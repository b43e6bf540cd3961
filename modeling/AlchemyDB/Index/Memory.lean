/-
# The memory of an index — `msize` in the nested trees

Each tree of an index counts in `msize` the blocks that it has allocated itself and
the `msize` of the trees nested under its keys.  The first part is kept by the tree
code, the second by `iAdd`, `iRem`, `_iAddMCI` and `iRemMCI`, which hand differences
up to the trees above.  A nested tree is followed here with its B-tree, since what a
key costs depends on the nodes; the keys and the entries are those of `Index.Model`.

The multi column code takes the growth of a tree for that of its nested tree, and
adds it to the tree a second time; its destroy pass hands nothing up.
-/
import AlchemyDB.BTree.Memory
import AlchemyDB.Index.Take

namespace AlchemyDB.Index

open Assoc

/-! ## Keys in a B-tree -/

instance : Inhabited Aobj := ⟨.int 0⟩

/-- The trees of an index hold no ghosts. -/
instance : RowStream Aobj where
  numKey
    | .int i => i
    | .long l => l
    | .u128 x => x
    | .text _ => 0
  ghost := id
  isGhost _ := false

/-- The comparison of the trees. -/
def Aobj.cmp (a b : Aobj) : Int := if a = b then 0 else if a.lt b then -1 else 1

/-! ## What the trees are created as -/

/-- `createIBT`: a tree over a column of type `t`, with nested trees. -/
def createIBT (t : KType) (btype : BType) : Bts :=
  match t with
  | .int => ⟨.int, btype, 12, btflagUintUlong + btflagUintIndex⟩
  | .long => ⟨.long, btype, 16, btflagUlongUlong + btflagUlongIndex⟩
  | .u128 => ⟨.u128, btype, 24, btflagU128Ulong + btflagU128Index⟩
  | .text => ⟨.string, btype, 8, btflagNone⟩

/-- `createOBT`: a tree of numbers with a number each.  `CREATE INDEX` lets no text through to it. -/
def createOBT (ktype vtype : KType) (btype : BType) : Bts :=
  match ktype, vtype with
  | .int, .int => ⟨.int, btype, 8, btflagUintUint⟩
  | .int, .long => ⟨.int, btype, 12, btflagUintUlong⟩
  | .int, .u128 => ⟨.int, btype, 20, btflagUintU128⟩
  | .long, .int => ⟨.long, btype, 12, btflagUlongUint⟩
  | .long, .long => ⟨.long, btype, 16, btflagUlongUlong⟩
  | .long, .u128 => ⟨.long, btype, 24, btflagUlongU128⟩
  | .u128, .int => ⟨.u128, btype, 20, btflagU128Uint⟩
  | .u128, .long => ⟨.u128, btype, 24, btflagU128Ulong⟩
  | .u128, .u128 => ⟨.u128, btype, 32, btflagU128U128⟩
  | _, _ => ⟨.string, btype, 8, btflagNone⟩

/-- `createIndexNode` without an ORDER BY column. -/
def createINode (pktyp : KType) : Bts :=
  match pktyp with
  | .int => ⟨.int, .inode, 4, btflagNone⟩
  | .long => ⟨.long, .inode, 8, btflagNone⟩
  | .u128 => ⟨.u128, .inode, 16, btflagNone⟩
  | .text => ⟨.string, .inode, 8, btflagNone⟩

/-- `createIndexNode` with an ORDER BY column of type `otype`. -/
def createObcNode (pktyp otype : KType) : Bts :=
  let sp := createOBT otype pktyp .inode
  { sp with bflag := sp.bflag + btflagObc }

/-- The trees of an index, `d` levels over the bottom. -/
def Kind.spec (ty : Nat → KType) (k : Kind) (d : Nat) : Bts :=
  match k, d with
  | .silent, _ => createINode (ty 0)
  | .single _ none, 0 => createINode (ty 0)
  | .single _ (some o), 0 => createObcNode (ty 0) (ty o)
  | .single col _, _ + 1 => createIBT (ty col) .index
  | .uniq _ t, _ => createOBT t (ty 0) .simpUniq
  | .mci _ none, 0 => createINode (ty 0)
  | .mci _ (some o), 0 => createObcNode (ty 0) (ty o)
  | .umci _ _ t, 0 => createOBT t (ty 0) .mciUniq
  | .mci cols _, d + 1 | .umci cols _ _, d + 1 =>
      createIBT (ty ((cols[cols.length - (d + 1)]?).getD 0)) (if d + 1 = cols.length then .mci else .mciMid)

/-! ## One tree -/

/-- A tree with its counter, an integer, so that a decrement too many shows. -/
structure Mem where
  bt : Bt Aobj
  msize : Int

/-- The length of a key in a stream. -/
def klen : Aobj → Nat
  | .text s => if s.length < 128 then s.length + 1 else s.length + 4
  | _ => 0

/-- The block that `createStream` allocates for a key: in a tree of texts the key, and the pointer to
the nested tree if there is one. -/
def streamSize (sp : Bts) (k : Aobj) : Nat :=
  if sp.inode || sp.otherBt then 0 else klen k + if sp.btype = .inode then 0 else 8

namespace Mem

/-- `bt_create`. -/
def create (sp : Bts) : Mem :=
  let bt := btCreate Aobj.cmp .one sp false
  ⟨bt, (sizeofBtree + bt.nodeBytes : Nat)⟩

/-- `abt_insert`: the block of the stream, and the nodes of the tree. -/
def add (k : Aobj) (m : Mem) : Option Mem :=
  (btInsert k 0 m.bt).map fun r =>
    ⟨r.2, m.msize + ((r.2.nodeBytes : Int) - m.bt.nodeBytes) + streamSize m.bt.s k⟩

/-- `abt_del`: `destroyStream` takes off the block as `getStreamMallocSize` finds it, rounded up. -/
def del (k : Aobj) (m : Mem) : Option Mem :=
  (btDelete k m.bt).map fun r =>
    ⟨r.2, m.msize + ((r.2.nodeBytes : Int) - m.bt.nodeBytes) - round8 (streamSize m.bt.s k)⟩

/-- The blocks that a tree with these keys has allocated. -/
def own (m : Mem) (ks : List Aobj) : Int :=
  (sizeofBtree + m.bt.nodeBytes + (ks.map (streamSize m.bt.s)).sum : Nat)

end Mem

/-! ## The tree at the bottom -/

namespace Leaf

/-- `btAdd` on the memory of the tree. -/
def addMem (l : Leaf) (a : Option Aobj) (pk : Aobj) (m : Mem) : Option Mem :=
  match createBTKey l.kind a with
  | none => some m
  | some _ => m.add (createStream l.kind a pk).1

/-- `btDelete` on the memory of the tree. -/
def delMem (l : Leaf) (a : Option Aobj) (m : Mem) : Option Mem :=
  match createBTKey l.kind a with
  | none => some m
  | some k => m.del k

end Leaf

def btIndNodeAddMem (obc : Option Nat) (r : Row) (l : Leaf) (m : Mem) : Option Mem :=
  match obc with
  | none => l.addMem (some r.pk) r.pk m
  | some o => if l.find (getCol r o) then some m else l.addMem (getCol r o) r.pk m

def uniqAddMem (col : Nat) (r : Row) (l : Leaf) (m : Mem) : Option Mem :=
  match getCol r col with
  | none => some m
  | some v => if l.find (some v) then some m else l.addMem (some v) r.pk m

/-- What `leafAdd` does to the memory of the tree. -/
def Kind.leafAddMem : Kind → Row → Leaf → Mem → Option Mem
  | .silent, _, _, m => some m
  | .single _ obc, r, l, m => btIndNodeAddMem obc r l m
  | .uniq col _, r, l, m => uniqAddMem col r l m
  | .mci _ obc, r, l, m => btIndNodeAddMem obc r l m
  | .umci _ last _, r, l, m => uniqAddMem last r l m

def btIndNodeDeleteMem (obc : Option Nat) (r : Row) (l : Leaf) (m : Mem) : Option Mem :=
  match obc with
  | none => l.delMem (some r.pk) m
  | some o => l.delMem (getCol r o) m

/-- What `leafDel` does to the memory of the tree. -/
def Kind.leafDelMem : Kind → Row → Leaf → Mem → Option Mem
  | .silent, _, _, m => some m
  | .single _ obc, r, l, m => btIndNodeDeleteMem obc r l m
  | .uniq col _, r, l, m => if getCol r col = none then some m else l.delMem (getCol r col) m
  | .mci _ obc, r, l, m => btIndNodeDeleteMem obc r l m
  | .umci _ last _, r, l, m => l.delMem (getCol r last) m

/-! ## Nested trees -/

/-- `Nest`, with the memory of each tree. -/
inductive Mnest where
  | leaf (l : Leaf) (m : Mem)
  | tree (t : List (Aobj × Mnest)) (m : Mem)

namespace Mnest

def mem : Mnest → Mem
  | leaf _ m => m
  | tree _ m => m

def numkeys : Mnest → Nat
  | leaf l _ => l.ents.length
  | tree t _ => t.length

/-- A tree that is created on demand, `d` levels over the bottom. -/
def fresh (sp : Nat → Bts) (l : Leaf) : Nat → Mnest
  | 0 => leaf l (Mem.create (sp 0))
  | d + 1 => tree [] (Mem.create (sp (d + 1)))

section Steps

variable (twice : Bool) (sp : Nat → Bts)

/-- The way down of `_iAddMCI` and `iAdd`, and what is handed up to the trees above.  `twice` is what
`_iAddMCI` does: the growth of the tree that takes a new key is part of what is added to it. -/
def add (new : Leaf) (f : Leaf → Nest.Added × Leaf) (fm : Leaf → Mem → Option Mem) :
    List (Option Aobj) → Mnest → Option (Nest.Added × Mnest × Int)
  | [], leaf l m => (fm l m).map fun m' => ((f l).1, leaf (f l).2 m', m'.msize - m.msize)
  | some k :: ks, tree t m =>
      match get? t k with
      | some s => (add new f fm ks s).map fun r =>
          (r.1, tree (Assoc.set k r.2.1 t) { m with msize := m.msize + r.2.2 }, r.2.2)
      | none =>
          (m.add k).bind fun m' =>
            let nbtr := fresh sp new ks.length
            let idiff := nbtr.mem.msize + if twice then m'.msize - m.msize else 0
            (add new f fm ks nbtr).map fun r =>
              (r.1, tree (Assoc.set k r.2.1 (put k nbtr t))
                { m' with msize := m'.msize + idiff + r.2.2 }, idiff + r.2.2)
  | _, t => some (.skip, t, 0)

/-- The destroy pass of `_iAddMCI`: nothing is handed up. -/
def destroy : List (Option Aobj) → Mnest → Option Mnest
  | some k :: ks, tree t m =>
      match get? t k with
      | none => some (tree t m)
      | some s => (destroy ks s).bind fun s' =>
          if t.length = 1 then (m.del k).map fun m' => tree (Assoc.del k t) m'
          else some (tree (Assoc.set k s' t) m)
  | _, t => some t

/-- One step of the way up of `iRemMCI` and `iRem`. -/
def trickle (k : Aobj) (t : List (Aobj × Mnest)) (m : Mem) :
    Bool × Mnest × Int → Option (Bool × Mnest × Int)
  | (false, _, _) => some (false, tree t m, 0)
  | (true, nbtr, diff) =>
      if nbtr.numkeys = 0 then
        (m.del k).map fun m' =>
          let idiff := nbtr.mem.msize + if twice then m.msize - m'.msize else 0
          (true, tree (Assoc.del k t) { m' with msize := m'.msize - diff - idiff }, diff + idiff)
      else some (true, tree (Assoc.set k nbtr t) { m with msize := m.msize - diff }, diff)

/-- The way down of `iRemMCI` and `iRem`, and what is taken off in the trees above. -/
def rem (f : Leaf → Option Leaf) (fm : Leaf → Mem → Option Mem) :
    List (Option Aobj) → Mnest → Option (Bool × Mnest × Int)
  | [], leaf l m => (f l).bind fun l' => (fm l m).map fun m' => (true, leaf l' m', m.msize - m'.msize)
  | some k :: ks, tree t m =>
      match get? t k with
      | none => if ks.head? = some none then some (false, tree t m, 0) else none
      | some s => (rem f fm ks s).bind (trickle twice k t m)
  | _, t => some (false, t, 0)

end Steps

/-- The keys and the entries. -/
def plain : Nat → Mnest → Nest
  | _, leaf l _ => .leaf l
  | 0, tree _ _ => .tree []
  | d + 1, tree t _ => .tree (t.map fun e => (e.1, plain d e.2))

end Mnest

/-! ## Indexes -/

structure Mind where
  ty : Nat → KType
  kind : Kind
  tree : Mnest

namespace Mind

def new (ty : Nat → KType) (k : Kind) : Mind :=
  ⟨ty, k, match k with
    | .silent => .leaf ⟨.inode (ty 0), []⟩ (Mem.create (k.spec ty 0))
    | .uniq _ t => .leaf (createUIBT t (ty 0)) (Mem.create (k.spec ty 0))
    | _ => .tree [] (Mem.create (k.spec ty k.depth))⟩

/-- The index without its memory. -/
def plain (x : Mind) : Ind := ⟨x.kind, x.tree.plain x.kind.depth⟩

/-- The size that is reported. -/
def msize (x : Mind) : Int := x.tree.mem.msize

/-- `addToIndex`. -/
def addToIndex (x : Mind) (r : Row) : Option (Bool × Mind) :=
  (Mnest.add x.kind.multi (x.kind.spec x.ty) (x.kind.newLeaf r) (x.kind.leafAdd r) (x.kind.leafAddMem r)
      (x.kind.path r) x.tree).bind fun a =>
    (if x.kind.multi ∧ a.1 ≠ .ok then Mnest.destroy (x.kind.path r) a.2.1 else some a.2.1).map fun t =>
      (decide (a.1 ≠ .viol), ⟨x.ty, x.kind, t⟩)

/-- `delFromIndex`. -/
def delFromIndex (x : Mind) (r : Row) : Option Mind :=
  (Mnest.rem x.kind.multi (x.kind.leafDel r) (x.kind.leafDelMem r) (x.kind.path r) x.tree).map fun e =>
    ⟨x.ty, x.kind, e.2.1⟩

end Mind

end AlchemyDB.Index
