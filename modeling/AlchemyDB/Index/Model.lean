/-
# Secondary indexes — nested trees over the rows of a table

An index is a tree of trees: one level for each of its columns, and at the bottom
a tree of primary keys (`INODE`), of ORDER BY values, or, in a unique index, of
the values of the last column.  Trees are followed by their reading
(`Lib.Assoc`); what the B-tree modules show of a tree of the kind is used, and
what they do not grant is a step that goes wrong (`none`): to delete a key that
is not there, and to delete from a node tree of U128 keys once it has keys above
its leaves.

A key is handed to a tree as a pointer, and the null pointer makes every
operation a no-op: this happens to the key 0 in the trees that hold numbers in
place of pointers.  In the packed trees (`UU`) a key and its value are one number.
-/
import AlchemyDB.Lib.Assoc

namespace AlchemyDB.Index

open Assoc

/-! ## Values -/

inductive KType where
  | int | long | u128 | text
  deriving DecidableEq, Repr

/-- A value of a column.  Columns that hold floats or Lua objects are not modelled. -/
inductive Aobj where
  | int (i : Nat)
  | long (l : Nat)
  | u128 (x : Nat)
  | text (s : List Char)
  deriving DecidableEq, Repr

namespace Aobj

def ktype : Aobj → KType
  | int _ => .int
  | long _ => .long
  | u128 _ => .u128
  | text _ => .text

/-- The order of the trees.  The keys of one tree have one type; across types the order is by type. -/
def lt : Aobj → Aobj → Bool
  | int a, int b => decide (a < b)
  | int _, _ => true
  | long _, int _ => false
  | long a, long b => decide (a < b)
  | long _, _ => true
  | u128 _, int _ => false
  | u128 _, long _ => false
  | u128 a, u128 b => decide (a < b)
  | u128 _, _ => true
  | text a, text b => decide (a < b)
  | text _, _ => false

instance : LT Aobj := ⟨fun a b => a.lt b = true⟩

instance : DecidableLT Aobj := fun a b => inferInstanceAs (Decidable (a.lt b = true))

/-- The field of an `aobj` that a tree with keys of type `t` reads.  All fields of an empty `aobj`
are zero, and so are those of the other types. -/
def field : KType → Option Aobj → Aobj
  | .int, some (int i) => int i
  | .int, _ => int 0
  | .long, some (long l) => long l
  | .long, _ => long 0
  | .u128, some (u128 x) => u128 x
  | .u128, _ => u128 0
  | .text, some (text s) => text s
  | .text, _ => text []

end Aobj

/-! ## Packed entries -/

/-- `UINT_MAX`. -/
def uintMax : Int := 4294967295

/-- What is left of a sum in a 64 bit signed word. -/
def wrap64 (z : Int) : Int := (z + 9223372036854775808) % 18446744073709551616 - 9223372036854775808

/-- The entry of a `UU` tree: `key * UINT_MAX + val`. -/
def uuPack (k v : Nat) : Int := wrap64 (wrap64 (k * uintMax) + v)

/-- `(uint32)(stream / UINT_MAX)`; `uuCmp` finds two entries equal when these agree. -/
def uuKey (p : Int) : Nat := (p.tdiv uintMax % 4294967296).toNat

/-- `stream % UINT_MAX`. -/
def uuVal (p : Int) : Nat := (p.tmod uintMax % 4294967296).toNat

/-! ## The trees at the bottom -/

inductive LKind where
  /-- Node trees: `INODE_I`, `INODE_L`, `INODE_X` and those of texts. -/
  | inode (t : KType)
  /-- `UU`. -/
  | uu
  /-- The trees of structures, `UL` to `XX`. -/
  | wide (t : KType)
  deriving DecidableEq, Repr

structure Leaf where
  kind : LKind
  ents : List (Aobj × Aobj)
  deriving DecidableEq, Repr

/-- A number that is stored as a pointer. -/
def numPtr : Aobj → Option Aobj
  | .int 0 => none
  | .long 0 => none
  | a => some a

/-- `createBTKey`: the key as the tree compares it, `none` for the null pointer. -/
def createBTKey : LKind → Option Aobj → Option Aobj
  | .inode t, a => numPtr (Aobj.field t a)
  | .wide t, a => some (Aobj.field t a)
  | .uu, a =>
      match Aobj.field .int a with
      | .int 0 => none
      | .int k => some (.int (uuKey (uuPack k 0)))
      | _ => none

/-- `createStream`: the entry that is stored for a key that is not null. -/
def createStream : LKind → Option Aobj → Aobj → Aobj × Aobj
  | .inode t, a, _ => (Aobj.field t a, Aobj.field t a)
  | .wide t, a, pk => (Aobj.field t a, pk)
  | .uu, a, pk =>
      match Aobj.field .int a, pk with
      | .int k, .int v => (.int (uuKey (uuPack k v)), .int (uuVal (uuPack k v)))
      | k, v => (k, v)

namespace Leaf

/-- `btFind` as a truth value: node trees have no values, and a packed value is tested as a pointer. -/
def find (l : Leaf) (a : Option Aobj) : Bool :=
  match createBTKey l.kind a with
  | none => false
  | some k =>
      match get? l.ents k with
      | none => false
      | some v =>
          match l.kind with
          | .inode _ => false
          | .uu => v != .int 0
          | .wide _ => true

/-- `btAdd`. -/
def add (l : Leaf) (a : Option Aobj) (pk : Aobj) : Leaf :=
  match createBTKey l.kind a with
  | none => l
  | some _ =>
      { l with ents := put (createStream l.kind a pk).1 (createStream l.kind a pk).2 l.ents }

/-- A tree with `TRANS_ONE` has seven keys in a node: with no more than that in all, it never takes
the successor of a key out of a leaf, which goes wrong in a node tree of U128 keys. -/
def Granted (l : Leaf) : Prop := l.kind = .inode .u128 → l.ents.length ≤ 7

instance (l : Leaf) : Decidable l.Granted := inferInstanceAs (Decidable (_ → _))

/-- `btDelete`. -/
def del (l : Leaf) (a : Option Aobj) : Option Leaf :=
  match createBTKey l.kind a with
  | none => some l
  | some k =>
      if (get? l.ents k).isSome ∧ l.Granted then some { l with ents := Assoc.del k l.ents }
      else none

end Leaf

/-- `createIndexNode`; `otype` is the type of the ORDER BY value, if there is one. -/
def createIndexNode (pktyp : KType) (otype : Option KType) : Leaf :=
  match otype with
  | none => ⟨.inode pktyp, []⟩
  | some .int => if pktyp = .int then ⟨.uu, []⟩ else ⟨.wide .int, []⟩
  | some t => ⟨.wide t, []⟩

/-- `createU_S_IBT` and `createU_MCI_IBT`. -/
def createUIBT (ktype pktyp : KType) : Leaf :=
  if ktype = .int ∧ pktyp = .int then ⟨.uu, []⟩ else ⟨.wide ktype, []⟩

/-! ## Nested trees -/

/-- Trees of trees, down to a tree at the bottom. -/
inductive Nest where
  | leaf (l : Leaf)
  | tree (t : List (Aobj × Nest))

namespace Nest

/-- The tree that is created on demand, `d` levels over the bottom. -/
def fresh (l : Leaf) : Nat → Nest
  | 0 => leaf l
  | _ + 1 => tree []

def numkeys : Nest → Nat
  | leaf l => l.ents.length
  | tree t => t.length

/-- How an addition ends. -/
inductive Added where
  | ok
  /-- A column of the index is empty: the row is not indexed. -/
  | skip
  /-- The row violates the constraint of the index. -/
  | viol
  deriving DecidableEq, Repr

/-- The way down of `_iAddMCI` and `iAdd`: missing trees are created, and `f` is what is done at the
bottom. -/
def add (new : Leaf) (f : Leaf → Added × Leaf) : List (Option Aobj) → Nest → Added × Nest
  | [], leaf l => ((f l).1, leaf (f l).2)
  | some k :: ks, tree t =>
      let r := add new f ks ((get? t k).getD (fresh new ks.length))
      (r.1, tree (Assoc.set k r.2 (if (get? t k).isSome then t else put k (fresh new ks.length) t)))
  | _, t => (.skip, t)

/-- The destroy pass of `_iAddMCI`: down to the first empty column, every tree with one key loses it. -/
def destroy : List (Option Aobj) → Nest → Nest
  | some k :: ks, tree t =>
      match get? t k with
      | none => tree t
      | some s =>
          if t.length = 1 then tree (Assoc.del k t) else tree (Assoc.set k (destroy ks s) t)
  | _, t => t

/-- One step of the way up of `iRemMCI`: a tree that has become empty is removed from the one above,
unless an empty column was met. -/
def trickle (k : Aobj) (t : List (Aobj × Nest)) : Bool × Nest → Bool × Nest
  | (false, _) => (false, tree t)
  | (true, s) => (true, tree (if numkeys s = 0 then Assoc.del k t else Assoc.set k s t))

/-- The way down of `iRemMCI` and `iRem`.  Trees that become empty are removed, unless an empty
column was met, which the flag tells; a missing tree is followed as a null pointer. -/
def rem (f : Leaf → Option Leaf) : List (Option Aobj) → Nest → Option (Bool × Nest)
  | [], leaf l => (f l).map (fun l => (true, leaf l))
  | some k :: ks, tree t =>
      match get? t k with
      | none => if ks.head? = some none then some (false, tree t) else none
      | some s => (rem f ks s).map (trickle k t)
  | _, t => some (false, t)

end Nest

/-! ## Indexes -/

/-- A row: its primary key and its other columns. -/
structure Row where
  pk : Aobj
  cols : List (Option Aobj)
  deriving DecidableEq, Repr

/-- `getCol`; `none` is the empty value. -/
def getCol (r : Row) (j : Nat) : Option Aobj :=
  if j = 0 then some r.pk else (r.cols[j - 1]?).join

/-- The kinds of index, with the columns they are on.  `silent` stands for those that keep nothing:
on the primary key, on a Lua function, and triggers. -/
inductive Kind where
  | silent
  | single (col : Nat) (obc : Option Nat)
  | uniq (col : Nat) (ktype : KType)
  | mci (cols : List Nat) (obc : Option Nat)
  | umci (cols : List Nat) (last : Nat) (ktype : KType)
  deriving DecidableEq, Repr

/-- How many levels of trees there are over the bottom. -/
def Kind.depth : Kind → Nat
  | .silent => 0
  | .single _ _ => 1
  | .uniq _ _ => 0
  | .mci cols _ => cols.length
  | .umci cols _ _ => cols.length

structure Ind where
  kind : Kind
  tree : Nest

/-- The index as it is created, in a table with primary keys of type `pktyp`. -/
def Ind.new (pktyp : KType) (k : Kind) : Ind :=
  ⟨k, match k with
    | .silent => .leaf ⟨.inode pktyp, []⟩
    | .uniq _ t => .leaf (createUIBT t pktyp)
    | _ => .tree []⟩

/-- The columns the levels are on. -/
def Kind.path : Kind → Row → List (Option Aobj)
  | .silent, _ => []
  | .single col _, r => [getCol r col]
  | .uniq _ _, _ => []
  | .mci cols _, r => cols.map (getCol r)
  | .umci cols _ _, r => cols.map (getCol r)

/-- The tree at the bottom that is created for a row. -/
def Kind.newLeaf : Kind → Row → Leaf
  | .silent, r => ⟨.inode r.pk.ktype, []⟩
  | .single _ obc, r => createIndexNode r.pk.ktype (obc.bind (fun o => (getCol r o).map Aobj.ktype))
  | .uniq _ ktype, r => createUIBT ktype r.pk.ktype
  | .mci _ obc, r => createIndexNode r.pk.ktype (obc.bind (fun o => (getCol r o).map Aobj.ktype))
  | .umci _ _ ktype, r => createUIBT ktype r.pk.ktype

/-- `btIndNodeAdd`. -/
def btIndNodeAdd (obc : Option Nat) (r : Row) (l : Leaf) : Nest.Added × Leaf :=
  match obc with
  | none => (.ok, l.add (some r.pk) r.pk)
  | some o => if l.find (getCol r o) then (.viol, l) else (.ok, l.add (getCol r o) r.pk)

/-- The last step into a unique index. -/
def uniqAdd (col : Nat) (r : Row) (l : Leaf) : Nest.Added × Leaf :=
  match getCol r col with
  | none => (.skip, l)
  | some v => if l.find (some v) then (.viol, l) else (.ok, l.add (some v) r.pk)

/-- What is done at the bottom for an addition. -/
def Kind.leafAdd : Kind → Row → Leaf → Nest.Added × Leaf
  | .silent, _, l => (.ok, l)
  | .single _ obc, r, l => btIndNodeAdd obc r l
  | .uniq col _, r, l => uniqAdd col r l
  | .mci _ obc, r, l => btIndNodeAdd obc r l
  | .umci _ last _, r, l => uniqAdd last r l

/-- `btIndNodeDelete`. -/
def btIndNodeDelete (obc : Option Nat) (r : Row) (l : Leaf) : Option Leaf :=
  match obc with
  | none => l.del (some r.pk)
  | some o => l.del (getCol r o)

/-- What is done at the bottom for a removal. -/
def Kind.leafDel : Kind → Row → Leaf → Option Leaf
  | .silent, _, l => some l
  | .single _ obc, r, l => btIndNodeDelete obc r l
  | .uniq col _, r, l => if getCol r col = none then some l else l.del (getCol r col)
  | .mci _ obc, r, l => btIndNodeDelete obc r l
  | .umci _ last _, r, l => l.del (getCol r last)

/-- The indexes with a list of columns. -/
def Kind.multi : Kind → Bool
  | .mci _ _ | .umci _ _ _ => true
  | _ => false

/-- The indexes with the constraint UNIQUE. -/
def Kind.unique : Kind → Bool
  | .uniq _ _ | .umci _ _ _ => true
  | _ => false

namespace Ind

/-- What `_iAddMCI` and `iAdd` do before anything is undone. -/
def tried (x : Ind) (r : Row) : Nest.Added × Nest :=
  Nest.add (x.kind.newLeaf r) (x.kind.leafAdd r) (x.kind.path r) x.tree

/-- `addToIndex`: whether the row is accepted, and the index afterwards.  Only a multi column index
undoes what it has done. -/
def addToIndex (x : Ind) (r : Row) : Bool × Ind :=
  let a := x.tried r
  (decide (a.1 ≠ .viol),
    ⟨x.kind, if x.kind.multi ∧ a.1 ≠ .ok then Nest.destroy (x.kind.path r) a.2 else a.2⟩)

/-- `delFromIndex`. -/
def delFromIndex (x : Ind) (r : Row) : Option Ind :=
  (Nest.rem (x.kind.leafDel r) (x.kind.path r) x.tree).map (fun e => ⟨x.kind, e.2⟩)

end Ind

/-- `__runInsertIndexes`: the indexes are gone through one by one, and when one of them rejects the row
it is taken out again of those before. -/
def runInsertIndexes (r : Row) : List Ind → Option (Bool × List Ind)
  | [] => some (true, [])
  | x :: rest =>
      let a := x.addToIndex r
      if a.1 then
        match runInsertIndexes r rest with
        | none => none
        | some (true, rest) => some (true, a.2 :: rest)
        | some (false, rest) => (a.2.delFromIndex r).map (fun y => (false, y :: rest))
      else some (false, a.2 :: rest)

/-- `runDeleteIndexes`. -/
def runDeleteIndexes (r : Row) : List Ind → Option (List Ind)
  | [] => some []
  | x :: rest =>
      match x.delFromIndex r, runDeleteIndexes r rest with
      | some y, some rest => some (y :: rest)
      | _, _ => none

end AlchemyDB.Index
