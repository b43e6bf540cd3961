/-
# SELECT — the operations that a WHERE clause runs

A WHERE clause is a lookup in the tree of the table or in an index, and filters on the rows that it
meets.  The operations go through the trees and hand what they meet to a callback: a row, a node
tree with the primary keys of an index, or the one primary key that a UNIQUE index has for a value.
For `SELECT COUNT(*)` the callbacks have short cuts.

Nothing here is evicted, and there is no ORDER BY, LIMIT or OFFSET.  `none` is an error, or a null
pointer or a number that is followed.
-/
import AlchemyDB.Table.Model
import AlchemyDB.Query.PassFilts

namespace AlchemyDB.Query.Select

open Assoc Index Table

/-! ## Iterators -/

/-- The exact match of `btRangeNext`, which ends the scan: a text matches what it is the beginning of. -/
def exactMatch : Aobj → Aobj → Bool
  | .text k, .text high => k.isPrefixOf high
  | k, high => decide (k = high)

/-- The loop over `btRangeNext`. -/
def scan {ν : Type} (high : Aobj) : List (Aobj × ν) → List (Aobj × ν)
  | [] => []
  | e :: l => if high < e.1 then [] else e :: if exactMatch e.1 high then [] else scan high l

/-- What `btGetRangeIter` gives, from what `createBTKey` makes of the low key. -/
def btRange {ν : Type} (bkey : Option Aobj) (high : Aobj) (l : List (Aobj × ν)) : List (Aobj × ν) :=
  match bkey with
  | none => []
  | some k => scan high (l.dropWhile fun e => decide (e.1 < k))

/-- What `btGetFullRangeIter` gives: the range from the least key to the greatest. -/
def btFullRange {ν : Type} (createBTKey : Aobj → Option Aobj) (l : List (Aobj × ν)) :
    List (Aobj × ν) :=
  match l.head?, l.getLast? with
  | some aL, some aH => btRange (createBTKey aL.1) aH.1 l
  | _, _ => []

/-- The entries of a tree at the bottom of an index. -/
def leafRange (l : Leaf) : List (Aobj × Aobj) := btFullRange (fun a => createBTKey l.kind (some a)) l.ents

/-! ## What is met -/

/-- What an operation hands to its callback. -/
inductive Meet where
  | row (r : Row)
  | node (nbtr : Leaf)
  | uniq (uv : Aobj)

/-- The levels of an index below its first column. -/
def nexpc : Kind → Nat
  | .mci cols _ => cols.length - 1
  | .umci cols _ _ => cols.length
  | _ => 0

/-- `btFind` in a UNIQUE index; a packed value is a pointer, and 0 is the null pointer. -/
def uniqFind (l : Leaf) (a : Aobj) : Option Aobj :=
  match createBTKey l.kind (some a) with
  | none => none
  | some k => (get? l.ents k).filter fun v => decide (¬ (l.kind = .uu ∧ v = .int 0))

/-- `btIndExist`. -/
def btIndExist (l : Leaf) (a : Aobj) : Bool :=
  match createBTKey l.kind (some a) with
  | none => false
  | some k => (get? l.ents k).isSome

/-- How `btMCIFindVal` ends: `UniqueIndexVal` is set when the last column of a UNIQUE index is found. -/
inductive Found where
  | stray
  | miss
  | node (nbtr : Nest) (nmatch : Nat) (uv : Option Aobj)

/-- `btMCIFindVal`: down the levels of an index, with the keys of `klist`. -/
def btMCIFindVal (k : Kind) : List Aobj → Nest → Nat → Found
  | [], n, nmatch => .node n nmatch none
  | a :: klist, .tree t, nmatch =>
      match get? t a with
      | none => .miss
      | some n => btMCIFindVal k klist n (nmatch + 1)
  | a :: _, .leaf l, nmatch =>
      if k.unique then
        match uniqFind l a with
        | none => .miss
        | some v => .node (.leaf l) (nmatch + 1) (some v)
      else .stray

section Ops

variable {σ : Type} (p : Meet → σ → Option σ)

/-- `runOnNode`: the callback is run `still` levels further down; in a UNIQUE index that is one level
higher, on the entries. -/
def runOnNode (k : Kind) : Nat → Nest → σ → Option σ
  | 1, .leaf l, s => if k.unique then (leafRange l).foldlM (fun s e => p (.uniq e.2) s) s else none
  | 1, .tree t, s =>
      if k.unique then none
      else (btFullRange some t).foldlM (fun s e =>
        match e.2 with
        | .leaf l => p (.node l) s
        | .tree _ => none) s
  | still + 2, .tree t, s => (btFullRange some t).foldlM (fun s e => runOnNode k (still + 1) e.2 s) s
  | _, _, _ => none

/-- What the operations on indexes do with what `btMCIFindVal` finds. -/
def onFound (k : Kind) (f : Found) (s : σ) : Option σ :=
  match f with
  | .stray => none
  | .miss => some s
  | .node n nmatch uv =>
      match nexpc k - nmatch, uv, n with
      | 0, some v, _ => p (.uniq v) s
      | 0, none, .leaf l => if k.unique then none else p (.node l) s
      | 0, none, .tree _ => none
      | diff + 1, _, n => runOnNode p k (diff + 1) n s

/-- `singleOpFK`. -/
def singleOpFK (klist : List Aobj) (x : Ind) (afk : Aobj) (s : σ) : Option σ :=
  match x.kind, x.tree with
  | .uniq _ _, .leaf l =>
      match uniqFind l afk with
      | none => none
      | some v => p (.uniq v) s
  | k, .tree t =>
      match get? t afk with
      | none => some s
      | some n => onFound p k (btMCIFindVal k klist n 0) s
  | _, _ => none

/-- `rangeOpFK`. -/
def rangeOpFK (klist : List Aobj) (x : Ind) (low high : Aobj) (s : σ) : Option σ :=
  match x.kind, x.tree with
  | .uniq _ _, .leaf l =>
      (btRange (createBTKey l.kind (some low)) high l.ents).foldlM (fun s e =>
        if l.kind = .uu ∧ e.2 = .int 0 then none
        else
          match uniqFind l e.1 with
          | none => none
          | some v => p (.uniq v) s) s
  | k, .tree t =>
      (btRange (some low) high t).foldlM (fun s e => onFound p k (btMCIFindVal k klist e.2 0) s) s
  | _, _ => none

/-- `inOpFK`.  In a UNIQUE index on one column nothing sets `UniqueIndexVal`: it is what an earlier
lookup has left there. -/
def inOpFK (uv : Aobj) (klist : List Aobj) (x : Ind) (inl : List Aobj) (s : σ) : Option σ :=
  match x.kind, x.tree with
  | .uniq _ _, .leaf l =>
      inl.foldlM (fun s afk =>
        match uniqFind l afk with
        | none => if btIndExist l afk then none else some s
        | some _ => if klist = [] then p (.uniq uv) s else none) s
  | k, .tree t =>
      inl.foldlM (fun s afk =>
        match get? t afk with
        | none => some s
        | some n => onFound p k (btMCIFindVal k klist n 0) s) s
  | _, _ => none

variable (t : Tab)

/-- `rangeOpPK`. -/
def rangeOpPK (low high : Aobj) (s : σ) : Option σ :=
  (btRange (Store.key t.store.kind low) high t.store.ents).foldlM (fun s e => p (.row ⟨e.1, e.2⟩) s) s

/-- `inOpPK`. -/
def inOpPK (inl : List Aobj) (s : σ) : Option σ :=
  inl.foldlM (fun s apk =>
    match t.store.find apk with
    | none => some s
    | some cols => p (.row ⟨apk, cols⟩) s) s

end Ops

/-- The lookup of a WHERE clause, on the primary key or on the index `imatch`. -/
inductive Lookup where
  | single (akey : Aobj)
  | pkRange (low high : Aobj)
  | pkIn (inl : List Aobj)
  | fk (imatch : Nat) (akey : Aobj)
  | fkRange (imatch : Nat) (low high : Aobj)
  | fkIn (imatch : Nat) (inl : List Aobj)

/-- `cswc_t`: the lookup, the keys for the other columns of the index, and the filters. -/
structure Cswc (L : Type) where
  wf : Lookup
  klist : List Aobj
  flist : Option (List (Flist.Filter L))

/-- `Op`, for all lookups but that of one primary key. -/
def op {σ : Type} (p : Meet → σ → Option σ) (t : Tab) (uv : Aobj) (klist : List Aobj) (wf : Lookup)
    (s : σ) : Option σ :=
  match wf with
  | .single _ => none
  | .pkRange low high => rangeOpPK p t low high s
  | .pkIn inl => inOpPK p t inl s
  | .fk imatch akey =>
      match t.inds[imatch]? with
      | none => none
      | some x => singleOpFK p klist x akey s
  | .fkRange imatch low high =>
      match t.inds[imatch]? with
      | none => none
      | some x => rangeOpFK p klist x low high s
  | .fkIn imatch inl =>
      match t.inds[imatch]? with
      | none => none
      | some x => inOpFK p uv klist x inl s

/-! ## SELECT -/

section Select

variable {L : Type} (t : Tab) (tmatch : Nat) (given : Row → Flist.Given L)
  (flist : Option (List (Flist.Filter L))) (cstar : Bool)

/-- The rows that are output, and `card`. -/
structure Sel where
  card : Nat
  rows : List Row

/-- The row that `btFind` gives for a primary key.  In a packed tree the null pointer is read as the
number 0; elsewhere it cannot be followed. -/
def rrow (pk : Aobj) : Option Row :=
  match t.store.find pk with
  | some cols => some ⟨pk, cols⟩
  | none => if t.store.kind = .uu then some ⟨pk, [some (.int 0)]⟩ else none

/-- `passFilts`, with the flag of a Lua function that fails as a failure. -/
def passes (row : Option Row) : Option Bool :=
  match flist, row with
  | none, _ => some true
  | some _, none => none
  | some fs, some r =>
      match Flist.passFilts (given r) tmatch (some fs) with
      | some (ret, false) => some ret
      | _ => none

/-- `select_op`. -/
def selectOp (row : Option Row) (s : Sel) : Option Sel :=
  match passes tmatch given flist row with
  | none => none
  | some false => some s
  | some true =>
      if cstar then some { s with card := s.card + 1 }
      else row.map fun r => { card := s.card + 1, rows := s.rows ++ [r] }

/-- `uBT_Op`, with `UniqueIndexVal`. -/
def uBTOp (uv : Aobj) (s : Sel) : Option Sel :=
  if cstar then some { s with card := s.card + 1 }
  else selectOp tmatch given flist cstar (rrow t uv) s

/-- The primary key of an entry of a node tree; where the node is in the order of a column, it is the
value. -/
def nodePk (l : Leaf) (e : Aobj × Aobj) : Aobj :=
  match l.kind with
  | .inode _ => e.1
  | _ => e.2

/-- `nBT_Op`; the scion of the root is the number of keys. -/
def nBTOp (l : Leaf) (s : Sel) : Option Sel :=
  if cstar ∧ flist.isNone then some { s with card := s.card + l.ents.length }
  else (leafRange l).foldlM (fun s e => selectOp tmatch given flist cstar (rrow t (nodePk l e)) s) s

/-- The callbacks. -/
def callback : Meet → Sel → Option Sel
  | .row r, s => selectOp tmatch given flist cstar (some r) s
  | .node l, s => nBTOp t tmatch given flist cstar l s
  | .uniq uv, s => uBTOp t tmatch given flist cstar uv s

/-- `sqlSelectBinary` and `iselectAction`; `uv` is what is left in `UniqueIndexVal`. -/
def sqlSelect (uv : Aobj) (w : Cswc L) : Option Sel :=
  match w.wf with
  | .single akey =>
      if cstar then some ⟨1, []⟩
      else
        match t.store.find akey with
        | none => some ⟨0, []⟩
        | some cols => selectOp tmatch given w.flist cstar (some ⟨akey, cols⟩) ⟨0, []⟩
  | wf => op (callback t tmatch given w.flist cstar) t uv w.klist wf ⟨0, []⟩

end Select

variable {L : Type} (t : Tab) (tmatch : Nat) (given : Row → Flist.Given L) (uv : Aobj) (w : Cswc L)

/-- `SELECT COUNT(*)`. -/
def selectCount : Option Nat := (sqlSelect t tmatch given true uv w).map Sel.card

/-- `SELECT *`. -/
def selectRows : Option (List Row) := (sqlSelect t tmatch given false uv w).map Sel.rows

/-- `COUNT(*)` is the number of rows that `SELECT *` returns, and it fails when `SELECT *` does. -/
def CountsRows : Prop := selectCount t tmatch given uv w = (selectRows t tmatch given uv w).map List.length

instance : Decidable (CountsRows t tmatch given uv w) := inferInstanceAs (Decidable (_ = _))

end AlchemyDB.Query.Select
