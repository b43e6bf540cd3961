/-
# `AlchemyDB.BTree.Insert` — `bt_insert`

Insertion splits every full node on the way down.  `btreesplitchild` is called
with one place `(p, pi)` for all the nodes it touches: for a child split it is
`(x, i)`, the place of the child that is split, also where the code sets DRs of
the parent `x` and of the new node `z`; when the root grows it is the slot `0`
of the OLD root.  The addresses the DR functions return to it for `x` are not
handed back to the caller.
-/
import AlchemyDB.BTree.Search

namespace AlchemyDB

open Store

variable {α : Type} [Inhabited α]

/-- The upper half of the full node `y` moves to the new node `z`: keys. -/
def splitKeys (t z y p pi : Nat) : BtM α Nat :=
  (List.range (t - 1)).foldlM (fun z j => setBTKey z j y (j + t) true p pi) z

/-- The upper half of the full node `y` moves to the new node `z`: children, with
their scions. -/
def splitNodes (t z y : Nat) : BtM α Unit :=
  (List.range t).forM fun j => do
    let c ← getNode y (j + t)
    let nc ← getN c
    decrScion y nc.scion
    incrScion z nc.scion
    setNode z j c

/-- The children of `x` after slot `i` move up one slot, from the last one down. -/
def shiftNodesUp (x i : Nat) : BtM α Unit := do
  let nd ← getN x
  ((List.range (nd.n - i)).reverse).forM fun m => do
    let c ← getNode x (i + 1 + m)
    setNode x (i + 1 + m + 1) c

/-- The keys of `x` from slot `i` on move up one slot, from the last one down. -/
def shiftKeysUp (x i p pi : Nat) : BtM α Nat := do
  let nd ← getN x
  ((List.range (nd.n - i)).reverse).foldlM
    (fun x m => setBTKey x (i + m + 1) x (i + m) true p pi) x

/-- `btreesplitchild`: the full child `y`, in slot `i` of `x`, is cut at its median. -/
def btreesplitchild (x i y p pi : Nat) : BtM α Unit := do
  let s ← get
  let ndy ← getN y
  let z ← allocbtreenode ndy.dirty
  modN z (fun nd => { nd with leaf := ndy.leaf })
  let z ← splitKeys s.t z y p pi
  let sc ← getScionRange z 0 (s.t - 1)
  modN z (fun nd => { nd with scion := sc })
  decrScion y sc
  modN z (fun nd => { nd with n := s.t - 1 })
  modN y (fun nd => { nd with n := nd.n - (s.t - 1) })
  unlessLeaf ndy.leaf (splitNodes s.t z y)
  shiftNodesUp x i
  setNode x (i + 1) z
  let x ← shiftKeysUp x i p pi
  let ndy ← getN y
  decrScion y (1 + ndy.dr (ndy.n - 1))
  let x ← setBTKey x i y (ndy.n - 1) true p pi
  modN x (fun nd => { nd with n := nd.n + 1 })
  let _ ← trimBTN y false
  pure ()

/-- `GETN`: how many keys a node can hold. -/
def Bt.getn (b : Bt α) : Nat := 2 * b.t - 1

/-- `bt_insertnonfull`. -/
def btInsertnonfull (k : α) (dr : Nat) : Nat → Nat → Nat → Nat → BtM α Unit
  | 0, _, _, _ => failure
  | fuel + 1, x, p, pi => do
    let s ← get
    let nd ← getN x
    if nd.leaf then do
      let i1 := ((findkindex s nd k).1 + 1).toNat
      let (x, _) ← mvXKeys x (i1 + 1) x i1 (nd.n - i1) p pi
      let x ← overwriteDR x i1 dr p pi
      setBTKeyRaw x i1 (.val k)
      modN x (fun nd => { nd with n := nd.n + 1 })
      incrScion x 1
    else do
      let i := ((findkindex s nd k).1 + 1).toNat
      let c ← getNode x i
      let ndc ← getN c
      let i ← if ndc.n = s.getn then do
          btreesplitchild x i c x i
          let nd ← getN x
          pure (if s.cmp k (nd.keys i) > 0 then i + 1 else i)
        else pure i
      let c ← getNode x i
      btInsertnonfull k dr fuel c x i
      incrScion x 1

/-- `bt_insert`. -/
def btInsert (k : α) (dr : Nat) : BtM α Unit := do
  let s ← get
  let r := s.root
  let ndr ← getN r
  let (r, p) ← if ndr.n = s.getn then do
      let s ← allocbtreenode ndr.dirty
      modify (fun b => { b with root := s })
      modN s (fun nd => { nd with leaf := false, n := 0 })
      incrScion s ndr.scion
      setNode s 0 r
      btreesplitchild s 0 r r 0
      pure (s, s)
    else pure (r, r)
  let s ← get
  btInsertnonfull k dr s.next r p 0
  modify (fun b => { b with numkeys := b.numkeys + 1 })

end AlchemyDB
