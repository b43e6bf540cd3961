/-
# `AlchemyDB.BTree.Delete` — `bt_delete` and `bt_evict`

`deletekey` is the top-down removal: on the way to the key every node that is
entered is first brought to at least `t` keys, by borrowing from a sibling (3a)
or by merging with one (3b); a key found in an inner node is replaced by its
neighbour from a subtree that can spare one (2a, 2b), or pushed down by a merge
(2c).  With `drt` the removed row is EVICTED: it is counted in the DR of the key
before it, which `plist`, the trail of the recursion, helps to find.

The cases of the C function are separate definitions here, in its order.
-/
import AlchemyDB.BTree.Search

namespace AlchemyDB

open Store

variable {α : Type}

/-- `dwd_t`. -/
structure Dwd (α : Type) where
  k : KData α
  dr : Nat

/-- The parameter `s` of `deletekey`: the key `k`, the maximum (2a) or the
minimum (2b). -/
inductive DK where
  | none | a2 | b2
deriving DecidableEq, Repr

/-- `plist`: the trail `(x, i)`, last entry first; `NULL` in a delete. -/
abbrev PList := Option (List (Nat × Nat))

/-- `ADD_BP`. -/
def addBP (plist : PList) (x i : Nat) : PList := plist.map ((x, i) :: ·)

/-! ## DRs of the key before -/

/-- The ancestor key just before the subtree the trail leads to, and the place of
its node: the walk of `incrPrevDR` over `plist`. -/
def prevBP (root : Nat) : List (Nat × Nat) → Option (Nat × Nat × Nat × Nat)
  | [] => some (root, 0, root, 0)
  | (x, i) :: rest =>
    if i = 0 then prevBP root rest
    else if x = root then some (x, i - 1, root, 0)
    else match rest with
      | [] => none
      | (px, pi) :: _ => some (x, i - 1, px, pi)

/-- `incrPrevDR`. -/
def incrPrevDR (x i dr p pi : Nat) (plist : PList) : BtM α Nat :=
  if dr = 0 then pure x
  else if i > 0 then incrDR x (i - 1) dr p pi
  else do
    let s ← get
    let mn ← findminnode s.next s.root
    if x = mn then do
      modify (fun s => { s with dirtyLeft := s.dirtyLeft + dr, dirty := true })
      pure x
    else match plist with
      | none => failure
      | some l => match prevBP s.root l with
        | none => failure
        | some (rx, ri, prx, pri) => do
          let _ ← incrDR rx ri dr prx pri
          pure x

/-- `get_prev_child_recurse`: the leaf that ends child `i` of `x`, and its place. -/
def getPrevChildRecurse : Nat → Nat → Nat → BtM α (Nat × Nat × Nat)
  | 0, _, _ => failure
  | fuel + 1, x, i => do
    let xp ← getNode x i
    let nd ← getN xp
    if nd.leaf then pure (xp, x, i) else getPrevChildRecurse fuel xp nd.n

/-- `incrCase2B`. -/
def incrCase2B (x i dr : Nat) : BtM α Unit := do
  let s ← get
  let (c, p, pi) ← getPrevChildRecurse s.next x i
  let nd ← getN c
  let nc ← incrDR c (nd.n - 1) dr p pi
  incrScion nc dr

/-! ## The cases of `deletekey` -/

/-- `replaceKeyWithGhost`. -/
def replaceKeyWithGhost [RowStream α] (x i : Nat) (k : KData α) (dr p pi : Nat) : BtM α Nat := do
  let s ← get
  match s.deref k with
  | none => failure
  | some e => do
    let x ← overwriteDR x i dr p pi
    setBTKeyRaw x i (.val (RowStream.ghost e))
    pure x

/-- `CREATE_RETURN_DELETED_KEY`: an entry wider than 8 bytes goes to `BT_DelBuf`.
`memcpy` follows `kp`, which is no pointer when the slot is narrow. -/
def createReturnDeletedKey (kp : KData α) (dr : Nat) : BtM α (Dwd α) := do
  let s ← get
  if s.s.bigBt then
    match kp with
    | .val _ => failure
    | kp => do
      modify (fun s' => { s' with delBuf := s.deref kp })
      pure { k := .delBuf, dr := dr }
  else pure { k := kp, dr := dr }

/-- The end of case 1: key `i` leaves the leaf `x`. -/
def dropKey (x i : Nat) (drt : Bool) (p pi : Nat) : BtM α Unit := do
  let nd ← getN x
  let (x, _) ← mvXKeys x i x (i + 1) (nd.n - i - 1) p pi
  let _ ← trimBTN x drt
  pure ()

/-- Case 1: the key is in the leaf `x`. -/
def deleteCase1 [RowStream α] (x i : Nat) (dk : DK) (drt : Bool) (p pi : Nat) (plist : PList) :
    BtM α (Dwd α) := do
  let s ← get
  let kp ← KEYS x i
  let dr ← getDR x i
  let dwd ← createReturnDeletedKey kp dr
  let (x, rgst) ←
    if drt then
      if dk = .none then do
        let x ← incrPrevDR x i (dr + 1) p pi plist
        pure (x, false)
      else do
        decrScion x (1 + dr)
        pure (x, false)
    else if dk = .none then
      if dr ≠ 0 then
        if s.s.inode then do
          let x ← incrPrevDR x i dr p pi plist
          pure (x, false)
        else do
          let x ← replaceKeyWithGhost x i kp dr p pi
          pure (x, true)
      else pure (x, false)
    else if dr ≠ 0 then do
      decrScion x dr
      pure (x, false)
    else pure (x, false)
  if rgst then pure dwd
  else do
    dropKey x i drt p pi
    pure dwd

/-- The end of the merges 2c and 3b, once the separator has become key `yn` of `y`:
the keys and children of `z` follow it, and `x` closes the gap. -/
def mergeEnd (x i y z yn : Nat) (leaf drt : Bool) (p pi : Nat) : BtM α (Nat × Nat) := do
  let ndz ← getN z
  let sc ← getScionRange z 0 ndz.n
  incrScion y sc
  let (y, z) ← mvXKeys y (yn + 1) z 0 ndz.n x i
  unlessLeaf leaf do
    moveScion y z (ndz.n + 1)
    mvXNodes y (yn + 1) z 0 (ndz.n + 1)
  modN y (fun nd => { nd with n := nd.n + ndz.n })
  let ndx ← getN x
  let (x, _) ← mvXKeys x i x (i + 1) (ndx.n - i - 1) p pi
  mvXNodes x (i + 1) x (i + 2) (ndx.n - i - 1)
  let x ← trimBTN x drt
  freeN z
  pure (x, y)

/-- Case 2c: `k` and the node `z` after it go to the node `y` before it. -/
def mergeCase2c (x i : Nat) (k : α) (drt : Bool) (p pi : Nat) : BtM α (Nat × Nat) := do
  let y ← getNode x i
  let z ← getNode x (i + 1)
  let ndx ← getN x
  let dr := ndx.dr i
  incrScion y (1 + dr)
  let ndy ← getN y
  let y ← setDR y ndy.n dr x i
  setBTKeyRaw y ndy.n (.val k)
  modN y (fun nd => { nd with n := nd.n + 1 })
  mergeEnd x i y z ndy.n ndy.leaf drt p pi

/-- Case 3a, left sibling `y`: its last key goes up to `x`, the key of `x` before
`xp` goes down to `xp`. -/
def borrowCase3a1 (x i : Nat) (drt : Bool) (p pi : Nat) : BtM α (Nat × Nat) := do
  let xp ← getNode x i
  let y ← getNode x (i - 1)
  let ndp ← getN xp
  let (xp, _) ← mvXKeys xp 1 xp 0 ndp.n x i
  unlessLeaf ndp.leaf (mvXNodes xp 1 xp 0 (ndp.n + 1))
  let ndx ← getN x
  incrScion xp (1 + ndx.dr (i - 1))
  let xp ← setBTKey xp 0 x (i - 1) drt x i
  modN xp (fun nd => { nd with n := nd.n + 1 })
  let ndy ← getN y
  decrScion y (1 + ndy.dr (ndy.n - 1))
  let x ← setBTKey x (i - 1) y (ndy.n - 1) drt p pi
  unlessLeaf ndp.leaf do
    let c ← getNode y ndy.n
    let nc ← getN c
    incrScion xp nc.scion
    decrScion y nc.scion
    setNode xp 0 c
  let _ ← trimBTN y drt
  pure (x, xp)

/-- Case 3a, right sibling `y`: its first key goes up to `x`, the key of `x` after
`xp` goes down to `xp`. -/
def borrowCase3a2 (x i : Nat) (drt : Bool) (p pi : Nat) : BtM α (Nat × Nat) := do
  let xp ← getNode x i
  let y ← getNode x (i + 1)
  let ndx ← getN x
  incrScion xp (1 + ndx.dr i)
  let ndp ← getN xp
  modN xp (fun nd => { nd with n := nd.n + 1 })
  let xp ← setBTKey xp ndp.n x i drt x i
  let ndy ← getN y
  decrScion y (1 + ndy.dr 0)
  let x ← setBTKey x i y 0 drt p pi
  unlessLeaf ndp.leaf do
    let c ← getNode y 0
    let nc ← getN c
    incrScion xp nc.scion
    decrScion y nc.scion
    setNode xp (ndp.n + 1) c
  let (y, _) ← mvXKeys y 0 y 1 (ndy.n - 1) x (i + 1)
  unlessLeaf ndy.leaf (mvXNodes y 0 y 1 ndy.n)
  let _ ← trimBTN y drt
  pure (x, xp)

/-- The merge of case 3b: child `l + 1` of `x` and key `l` go to child `l`. -/
def mergeCase3b (x l : Nat) (drt : Bool) (p pi : Nat) : BtM α (Nat × Nat) := do
  let y ← getNode x l
  let z ← getNode x (l + 1)
  let ndx ← getN x
  incrScion y (1 + ndx.dr l)
  let ndy ← getN y
  modN y (fun nd => { nd with n := nd.n + 1 })
  let y ← setBTKey y ndy.n x l drt x l
  let ndz ← getN z
  mergeEnd x l y z ndy.n ndz.leaf drt p pi

/-- Case 3b, left sibling: `xp` is merged into it. -/
def mergeCase3b1 (x i : Nat) (drt : Bool) (p pi : Nat) : BtM α (Nat × Nat) :=
  mergeCase3b x (i - 1) drt p pi

/-- Case 3b, right sibling: it is merged into `xp`. -/
def mergeCase3b2 (x i : Nat) (drt : Bool) (p pi : Nat) : BtM α (Nat × Nat) :=
  mergeCase3b x i drt p pi

/-- The number of keys of child `i` of `x`. -/
def childN (x i : Nat) : BtM α Nat := do
  let c ← getNode x i
  let nd ← getN c
  pure nd.n

/-- Case 3: make sure child `i` of `x` has at least `t` keys.  The node `x`, the
child to go on with and its slot are returned. -/
def rebalanceCase3 (x i : Nat) (drt : Bool) (p pi : Nat) : BtM α (Nat × Nat × Nat) := do
  let s ← get
  let ndx ← getN x
  let xp ← getNode x i
  let ndp ← getN xp
  if ndp.n ≠ s.t - 1 then pure (x, xp, i)
  else do
    let yn ← if i > 0 then childN x (i - 1) else pure 0
    if i > 0 ∧ yn ≥ s.t then do
      let (x, xp) ← borrowCase3a1 x i drt p pi
      pure (x, xp, i)
    else do
      let zn ← if i < ndx.n then childN x (i + 1) else pure 0
      if i < ndx.n ∧ zn ≥ s.t then do
        let (x, xp) ← borrowCase3a2 x i drt p pi
        pure (x, xp, i)
      else if i > 0 ∧ yn = s.t - 1 then do
        let (x, xp) ← mergeCase3b1 x i drt p pi
        pure (x, xp, i - 1)
      else if i < ndx.n ∧ zn = s.t - 1 then do
        let (x, xp) ← mergeCase3b2 x i drt p pi
        pure (x, xp, i)
      else pure (x, xp, i)

/-! ## `deletekey` -/

/-- Where `deletekey` looks in a node: the slot `i` and the outcome `r`. -/
def deletePos (b : Bt α) (nd : BtN α) (k : α) : DK → Int × Int
  | .none => findkindex b nd k
  | .a2 => ((nd.n : Int) - 1, if nd.leaf then 0 else 1)
  | .b2 => (-1, if nd.leaf then 0 else -1)

/-- A delete takes one off the scion of every node it comes through. -/
def payScion (x : Nat) (drt : Bool) : BtM α Unit := if drt then pure () else decrScion x 1

/-- A key with a DR is not deleted from an inner node. -/
def ghostCase2 [RowStream α] (x i : Nat) (kp : KData α) (dr p pi : Nat) : BtM α (Dwd α) := do
  let _ ← replaceKeyWithGhost x i kp dr p pi
  createReturnDeletedKey kp dr

/-- The end of case 2a: key `i` is replaced by the one before it, taken from the left. -/
def endCase2a (x i : Nat) (kp : KData α) (dwd : Dwd α) (drt : Bool) (p pi : Nat) :
    BtM α (Dwd α) :=
  if drt then do
    let x ← incrDR x i (dwd.dr + 1) p pi
    setBTKeyRaw x i dwd.k
    pure { k := kp, dr := dwd.dr + 1 }
  else do
    let x ← setDR x i dwd.dr p pi
    setBTKeyRaw x i dwd.k
    pure { k := kp, dr := dwd.dr }

/-- The key before key `i` of `x` gets the DR of the evicted one. -/
def incrBefore (x i : Nat) (drt : Bool) : BtM α Unit :=
  if drt then do
    let nd ← getN x
    incrCase2B x i (nd.dr i + 1)
  else pure ()

/-- The end of case 2b: key `i` is replaced by the one after it, taken from the right. -/
def endCase2b (x i : Nat) (kp : KData α) (dwd : Dwd α) (drt : Bool) (p pi : Nat) :
    BtM α (Dwd α) := do
  incrBefore x i drt
  let x ← overwriteDR x i dwd.dr p pi
  setBTKeyRaw x i dwd.k
  pure { k := kp, dr := dwd.dr }

/-- `case_2c_ptr` keeps the first key of a chain of merges. -/
def markCase2c (kp : KData α) : BtM α Unit :=
  modify (fun s => { s with case2cPtr := s.case2cPtr.or (some kp) })

/-- The scions on the way of an entry that was taken for a key above. -/
def settleScion (x : Nat) (dk : DK) (dr : Nat) (drt : Bool) : BtM α Unit :=
  if dk = .none then pure () else decrScion x (if drt then 1 + dr else dr)

/-- `deletekey`. -/
def deletekey [RowStream α] (k : α) (dk : DK) (drt : Bool) :
    Nat → Nat → Nat → Nat → PList → BtM α (Dwd α)
  | 0, _, _, _, _ => failure
  | fuel + 1, x, p, pi, plist => do
    let s ← get
    let nd ← getN x
    let (i, r) := deletePos s nd k dk
    payScion x drt
    if nd.leaf then
      let i := if dk = .b2 then i + 1 else i
      if i < 0 then failure
      else deleteCase1 x i.toNat dk drt p pi plist
    else if r = 0 then do
      let i := i.toNat
      let kp ← KEYS x i
      if !drt && nd.dr i ≠ 0 then ghostCase2 x i kp (nd.dr i) p pi
      else do
        let y ← getNode x i
        let ndy ← getN y
        if ndy.n ≥ s.t then do
          let dwd ← deletekey k .a2 drt fuel y x i (addBP plist x i)
          endCase2a x i kp dwd drt p pi
        else do
          let z ← getNode x (i + 1)
          let ndz ← getN z
          if ndz.n ≥ s.t then do
            let dwd ← deletekey k .b2 drt fuel z x (i + 1) (addBP plist x (i + 1))
            endCase2b x i kp dwd drt p pi
          else if ndy.n = s.t - 1 ∧ ndz.n = s.t - 1 then do
            markCase2c kp
            let (x, y) ← mergeCase2c x i k drt p pi
            deletekey k dk drt fuel y x i (addBP plist x i)
          else failure
    else do
      let (x, xp, i) ← rebalanceCase3 x (i + 1).toNat drt p pi
      let dwd ← deletekey k dk drt fuel xp x i (addBP plist x i)
      settleScion x dk dwd.dr drt
      pure dwd

/-- `remove_key`. -/
def removeKey [RowStream α] (k : α) (drt : Bool) : BtM α (Dwd α) := do
  modify (fun s => { s with case2cPtr := none })
  let s ← get
  let p := s.root
  let plist : PList := if drt then some [(p, 0)] else none
  let dwd ← deletekey k .none drt s.next s.root p 0 plist
  modify (fun s => { s with numkeys := s.numkeys - 1 })
  let s ← get
  let ndr ← getN s.root
  if ndr.n = 0 ∧ !ndr.leaf then do
    let c ← getNode s.root 0
    modify (fun s => { s with root := c })
    freeN s.root
  else pure ()
  let s ← get
  match s.case2cPtr with
  | none => pure dwd
  | some kp => pure { dwd with k := kp }

/-- The entry that is handed back, case 2c's if there is one. -/
theorem case2cPtr_elim (o : Option (KData α)) (dwd : Dwd α) :
    (match o with
      | none => pure dwd
      | some kp => pure { dwd with k := kp } : BtM α (Dwd α)) =
      o.elim (pure dwd) fun kp => pure { dwd with k := kp } := by
  cases o <;> rfl

/-- `bt_delete`. -/
def btDelete [RowStream α] (k : α) : BtM α (Dwd α) := removeKey k false

/-- `bt_evict`. -/
def btEvict [RowStream α] (k : α) : BtM α (KData α) := do
  let dwd ← removeKey k true
  pure dwd.k

end AlchemyDB
