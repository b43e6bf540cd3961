/-
# Tables — rows and the commands on them

A table is a tree of rows and the list of its indexes, in the order of
`match_index`.  The commands are those of a table that is not dirty: no row is
evicted, no row is a ghost.  Texts have been parsed, and an expression of an
UPDATE is what it gives on a row; `none` is the error reply.

Trees are followed by their reading, as in the indexes: a step that the trees do
not grant (to delete a key that is not there) is `none`.
-/
import AlchemyDB.Index.Model

namespace AlchemyDB.Table

open Assoc Index

/-! ## The tree of a table -/

/-- Rows (`NORM_BT`), or a single number per key in the tables with two columns of numbers. -/
inductive SKind where
  | norm | uu | wide
  deriving DecidableEq, Repr

abbrev Cols := List (Option Aobj)

structure Store where
  kind : SKind
  ents : List (Aobj × Cols)
  deriving DecidableEq, Repr

namespace Store

/-- `createBTKey`: in a packed tree the key 0 is the null pointer. -/
def key : SKind → Aobj → Option Aobj
  | .uu, .int 0 => none
  | .uu, .int k => some (.int (uuKey (uuPack k 0)))
  | _, pk => some pk

/-- `createStream`. -/
def stream : SKind → Aobj → Cols → Aobj × Cols
  | .uu, .int k, [some (.int v)] => (.int (uuKey (uuPack k v)), [some (.int (uuVal (uuPack k v)))])
  | _, pk, c => (pk, c)

/-- `btFindD`; a packed 0 is the null pointer again. -/
def find (s : Store) (pk : Aobj) : Option Cols :=
  match key s.kind pk with
  | none => none
  | some k => (get? s.ents k).filter (fun c => decide (¬ (s.kind = .uu ∧ c = [some (.int 0)])))

/-- `btAdd`. -/
def add (s : Store) (pk : Aobj) (c : Cols) : Store :=
  match key s.kind pk with
  | none => s
  | some _ => { s with ents := put (stream s.kind pk c).1 (stream s.kind pk c).2 s.ents }

/-- `btDelete`. -/
def del (s : Store) (pk : Aobj) : Option Store :=
  match key s.kind pk with
  | none => some s
  | some k =>
      if (get? s.ents k).isSome then some { s with ents := Assoc.del k s.ents } else none

/-- `btReplace`; an entry with another key would stand in a wrong place.  A key that is not there is
followed as a null pointer in a tree of rows, and passed over in the others. -/
def replace (s : Store) (pk : Aobj) (c : Cols) : Option Store :=
  match key s.kind pk with
  | none => some s
  | some k =>
      match get? s.ents k with
      | none => if s.kind = .norm then none else some s
      | some _ =>
          if (stream s.kind pk c).1 = k then
            some { s with ents := Assoc.set k (stream s.kind pk c).2 s.ents }
          else none

end Store

/-! ## Tables -/

structure Tab where
  /-- The types of the columns; column 0 is the primary key. -/
  ty : Nat → KType
  /-- The number of columns behind the primary key. -/
  ncols : Nat
  store : Store
  inds : List Ind

/-- The columns of an index, for which `newIndex` sets `indxd`; the ORDER BY column is not one. -/
def indexCols : Kind → List Nat
  | .silent => []
  | .single col _ => [col]
  | .uniq col _ => [col]
  | .mci cols _ => cols
  | .umci cols last _ => cols ++ [last]

namespace Tab

/-- The rows, in the order of their primary keys. -/
def live (t : Tab) : List Row := t.store.ents.map fun e => ⟨e.1, e.2⟩

def indxd (t : Tab) (j : Nat) : Bool := t.inds.any (fun x => decide (j ∈ indexCols x.kind))

/-- The row as it is stored: where there is one number per key, the empty value is 0. -/
def asStored (t : Tab) (c : Cols) : Cols :=
  match t.store.kind with
  | .norm => c
  | _ => c.map (fun v => some (Aobj.field (t.ty 1) v))

/-- The new row of an INSERT. -/
def asRow (t : Tab) (r : Row) : Row := ⟨r.pk, t.asStored r.cols⟩

/-- The row of a packed tree is the number itself, and 0 is the null pointer. -/
def null (t : Tab) (r : Row) : Bool := decide (t.store.kind = .uu ∧ r.cols = [some (.int 0)])

end Tab

/-! ## UPDATE -/

/-- A new value for the primary key. -/
structure PkExpr where
  /-- What `createAobjFromString` reads in the text of the value. -/
  checked : Aobj
  eval : Row → Option Aobj

/-- A number. -/
def PkExpr.number (v : Aobj) : PkExpr := ⟨v, fun _ => some v⟩

/-- A text: it is checked with its quotes. -/
def PkExpr.quoted (s : List Char) : PkExpr := ⟨.text ('\'' :: s ++ ['\'']), fun _ => some (.text s)⟩

/-- An expression over a primary key that is a number: its text is read as the number 0. -/
def PkExpr.expr (t : KType) (f : Row → Option Aobj) : PkExpr := ⟨Aobj.field t none, f⟩

/-- The SET list: a new primary key, and what a column gets from the old row. -/
structure Sets where
  pk : Option PkExpr
  col : Nat → Option (Row → Option (Option Aobj))

namespace Sets

/-- `chit`. -/
def hit (u : Sets) (j : Nat) : Bool := if j = 0 then u.pk.isSome else (u.col j).isSome

/-- The first loop of `updateRow`: the new row, `none` when a value or an expression fails. -/
def evalRow (u : Sets) (ncols : Nat) (r : Row) : Option Row :=
  match (match u.pk with
    | none => some r.pk
    | some e => e.eval r) with
  | none => none
  | some pk =>
      ((List.range ncols).mapM fun j =>
        match u.col (j + 1) with
        | none => some (getCol r (j + 1))
        | some e => e r).map (Row.mk pk)

end Sets

/-- The stream flag of a number (`cIcol`); a U128 has none. -/
def sflag : Aobj → Nat
  | .int i => if i < 128 then 1 else if i < 16384 then 2 else if i < 536870912 then 4 else 5
  | .long l =>
      if l < 128 then 1 else if l < 16384 then 2 else if l < 536870912 then 4
      else if l < 17592186044416 then 6 else if l < 576460752303423488 then 8 else 9
  | _ => 0

/-- A column does not stand in the way of overwriting the row in place: it is not hit, or it is a
number that is not indexed, with the same stream flag before and after. -/
def overwritesCol (t : Tab) (u : Sets) (old new : Row) (j : Nat) : Bool :=
  if u.hit j then
    decide (j ≠ 0) && decide (t.ty j ≠ .text) && !t.indxd j &&
      match getCol old j, getCol new j with
      | some a, some b => decide (sflag a = 0 ∨ sflag a = sflag b)
      | some a, none => decide (sflag a = 0)
      | none, _ => false
  else true

/-- `ovrwr`. -/
def overwrites (t : Tab) (u : Sets) (old new : Row) : Bool :=
  decide (t.store.kind = .norm) &&
    (List.range (t.ncols + 1)).all (overwritesCol t u old new)

/-- `updateOverwrite`: a column without a stream flag is not written. -/
def updateOverwrite (t : Tab) (u : Sets) (old new : Row) : Cols :=
  (List.range t.ncols).map fun j =>
    match getCol old (j + 1) with
    | some a => if u.hit (j + 1) ∧ sflag a ≠ 0 then getCol new (j + 1) else some a
    | none => none

/-- Whether an index is redone: its columns are looked at, not its ORDER BY column. -/
def effected (u : Sets) (k : Kind) : Bool := (indexCols k).any u.hit

/-- `upEffectedFailableIndexes`: an index is added to and deleted from before the next one is tried, and
when one fails only the additions are undone. -/
def upEffectedFailableIndexes (u : Sets) (orow nrow : Row) :
    List Ind → Option (Bool × List Ind)
  | [] => some (true, [])
  | x :: rest =>
      if effected u x.kind then
        let a := x.addToIndex nrow
        if a.1 then
          match a.2.delFromIndex orow with
          | none => none
          | some y =>
              match upEffectedFailableIndexes u orow nrow rest with
              | none => none
              | some (true, rest) => some (true, y :: rest)
              | some (false, rest) => (y.delFromIndex nrow).map (fun z => (false, z :: rest))
        else some (false, a.2 :: rest)
      else (upEffectedFailableIndexes u orow nrow rest).map (fun e => (e.1, x :: e.2))

/-- `runUpdate`; what the index functions return is not looked at. -/
def runUpdate (t : Tab) (u : Sets) (orow nrow : Row) : Option Tab :=
  if u.pk.isSome then do
    let (_, inds) ← runInsertIndexes nrow t.inds
    let inds ← runDeleteIndexes orow inds
    let s ← t.store.del orow.pk
    some { t with store := s.add nrow.pk nrow.cols, inds := inds }
  else do
    let (_, inds) ← upEffectedFailableIndexes u orow nrow t.inds
    let s ← t.store.replace orow.pk nrow.cols
    some { t with store := s, inds := inds }

/-- What `updateRow` has decided for a row. -/
inductive Planned where
  | failed
  | overwrite (cols : Cols)
  | newRow (r : Row)
  /-- The tree would follow the new value as an address, or read it at a wrong place. -/
  | misread

/-- The new row of `updateRow`.  In the tables with two columns of numbers it is the number itself,
which only a packed tree expects, or the structure of two U128s (`Row.Layout`). -/
def handRow (t : Tab) (r : Row) : Planned :=
  match t.store.kind with
  | .norm => .newRow r
  | .uu => if t.null r then .failed else .newRow r
  | .wide =>
      match r.cols with
      | [some (.u128 _)] => if t.ty 0 = .u128 then .newRow r else .misread
      | [some a] => if numPtr a = none then .failed else .misread
      | _ => .misread

def planRow (t : Tab) (u : Sets) (orow : Row) : Planned :=
  match u.evalRow t.ncols orow with
  | none => .failed
  | some new =>
      if overwrites t u orow new then .overwrite (updateOverwrite t u orow new)
      else handRow t (t.asRow new)

/-- The single row branch of `updateInnards`: whether the command succeeds, and the table after it. -/
def updateSingle (t : Tab) (u : Sets) (pk : Aobj) : Option (Bool × Tab) :=
  if u.pk.any (fun e => (t.store.find e.checked).isSome) then some (false, t)
  else
    match t.store.find pk with
    | none => some (false, t)
    | some cols =>
        match planRow t u ⟨pk, cols⟩ with
        | .failed => some (false, t)
        | .overwrite c => (t.store.replace pk c).map fun s => (true, { t with store := s })
        | .newRow new => (runUpdate t u ⟨pk, cols⟩ new).map fun t => (true, t)
        | .misread => none

/-! ## INSERT and DELETE -/

/-- `insertCommit` from the point where a new row is built. -/
def insertRow (t : Tab) (repl : Bool) (r : Row) : Option (Bool × Tab) := do
  let (ok, inds) ← runInsertIndexes r t.inds
  if ok then
    let inds ← (match repl, t.store.find r.pk with
      | true, some orow => runDeleteIndexes ⟨r.pk, orow⟩ inds
      | _, _ => some inds)
    let s ← if repl then t.store.replace r.pk r.cols else some (t.store.add r.pk r.cols)
    some (true, { t with store := s, inds := inds })
  else some (false, { t with inds := inds })

/-- `createRow` returns a null pointer when it fails, and for a row that is one. -/
def insertNew (t : Tab) (repl : Bool) (r : Row) : Option (Bool × Tab) :=
  if t.null r then some (false, t) else insertRow t repl r

/-- INSERT, REPLACE and INSERT ... ON DUPLICATE KEY UPDATE. -/
inductive Mode where
  | insert
  | repl
  | upd (u : Sets)

def insertCommit (t : Tab) (mode : Mode) (r : Row) : Option (Bool × Tab) :=
  match mode, t.store.find r.pk with
  | .insert, some _ => some (false, t)
  | .upd u, some _ => updateSingle t u r.pk
  | .repl, _ => insertNew t true (t.asRow r)
  | _, none => insertNew t false (t.asRow r)

/-- `deleteRow`. -/
def deleteRow (t : Tab) (pk : Aobj) : Option (Bool × Tab) :=
  match t.store.find pk with
  | none => some (false, t)
  | some cols => do
      let inds ← runDeleteIndexes ⟨pk, cols⟩ t.inds
      let s ← t.store.del pk
      some (true, { t with store := s, inds := inds })

end AlchemyDB.Table
