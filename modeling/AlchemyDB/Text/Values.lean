/-
# The values of an INSERT

`parseRowVals` finds where in the text `(v1, v2, ..)` each column's value stands, and
`createRow` cuts the values out of it.  Pointers into the text are distances from its
start, so that a value's extent is a pair of distances from `mvals`, the first value.

A value ends at a comma that `get_next_insert_value_token` reaches.  It steps over a
quote, a parenthesis or a brace to the next character that closes it, whatever stands
between.
-/
import AlchemyDB.Text.Scan

namespace AlchemyDB.Text

open Catalog

/-! ## The next value -/

/-- The character that `get_next_insert_value_token` goes to from an opening one. -/
def closing (c : Char) : Option Char :=
  if c = '\'' then some '\'' else if c = '(' then some ')' else if c = '{' then some '}' else none

/-- The loop of `get_next_insert_value_token`: the distance to the comma. -/
def nextValue : Nat → Sds → Option Nat
  | 0, _ => none
  | _ + 1, [] => none
  | n + 1, c :: s =>
      match closing c with
      | some d =>
          (strNextUnescapedChr (c :: s) d).bind fun k =>
            (nextValue n ((c :: s).drop (k + 1))).map (k + 1 + ·)
      | none => if c = ',' then some 0 else (nextValue n s).map (· + 1)

/-- `SKIP_SPACES(p)`. -/
def skipFrom (v : Sds) (p : Nat) : Nat := p + ((v.drop p).takeWhile isBlank).length

/-- `REV_SKIP_SPACES(p)`, which steps over the terminator too. -/
def revSkipFrom (v : Sds) : Nat → Nat
  | 0 => 0
  | p + 1 => if (v[p + 1]?).all isBlank then revSkipFrom v p else p + 1

/-- `get_next_insert_value_token(tkn)`. -/
def getNextInsertValueToken (v : Sds) (tkn : Nat) : Option Nat :=
  let p := skipFrom v tkn
  (nextValue ((v.drop p).length + 1) (v.drop p)).map (p + ·)

/-- `validate_parsed_insert_val`: a TEXT stands between quotes. -/
def validateParsedInsertVal (v : Sds) (ctype : CType) (start nextc : Nat) : Bool :=
  if ctype = .text then
    v[skipFrom v start]? == some '\'' && v[revSkipFrom v (nextc - 1)]? == some '\''
  else true

/-- `parse_insert_val_list_nextc`. -/
def parseInsertValListNextc (v : Sds) (start : Nat) (ctype : CType) : Option Nat :=
  (getNextInsertValueToken v start).filter (validateParsedInsertVal v ctype start)

/-! ## The row -/

/-- The primary key: the text of it, or the next of AUTO_INCREMENT. -/
inductive Key where
  | given (pk : Sds)
  | auto
  deriving DecidableEq, Repr

/-- `UETYPE_*`. -/
inductive Uet where
  | err | int | u128 | flt
  deriving DecidableEq, Repr

/-- What `parseRowVals` reads: the text, `ncols`, `lncols`, and how many columns are listed
(`pcols`).  What `strtol` and `strtod` accept is left open in `getExprType`. -/
structure Request where
  vals : Sds
  ncols : Nat
  lncols : Nat
  pcols : Nat
  getExprType : Sds → Uet

/-- What `parseRowVals` changes: the types of the table's columns, the numbers in the list of
columns (`-1` for one that is not in the table yet), the extents, and the key. -/
structure Parsed where
  types : List CType
  ics : List Int
  cofsts : List (Int × Int)
  pk : Option Key
  deriving DecidableEq, Repr

/-- `assign_pk`. -/
def assignPk (q : Request) (s : Parsed) (cstart : Nat) (pklen : Int) :
    Except Fault (Option Parsed) :=
  if pklen = 0 then
    .ok (if (s.types.head?).any CType.isNum then some { s with pk := some .auto } else none)
  else if pklen < 0 then .error .segv
  else .ok (some { s with pk := some (.given ((q.vals.drop cstart).take pklen.toNat)) })

/-- `pcols ? ics[numc].cmatch : numc`. -/
def cmatchOf (q : Request) (s : Parsed) (numc : Nat) : Except Fault Int :=
  if q.pcols ≠ 0 then
    match s.ics[numc]? with
    | some c => .ok c
    | none => .error .segv
  else .ok numc

/-- `determineColType`: the type of a column that the table does not have yet.  Of a number that a
comma follows the last character is left out. -/
def determineColType (q : Request) (nextc : Nat) : Option CType :=
  let s := q.vals.drop nextc
  if s.head? = some '\'' then some .text
  else
    let len := match strNextUnescapedChr s ',' with
      | some nxc => nxc - 1
      | none => s.length - 1
    match q.getExprType (s.take len) with
    | .flt => some .float
    | .int => some .long
    | _ => none

/-- The number and the type of the next column, at the head of the loop. -/
def columnAt (q : Request) (s : Parsed) (numc nextc : Nat) :
    Except Fault (Option (Parsed × Nat × CType)) := do
  let cmatch ← cmatchOf q s numc
  if cmatch ≥ q.ncols ∨ cmatch < -1 then return none
  if cmatch = -1 then
    match determineColType q nextc with
    | none => return none
    | some t =>
        return some ({ s with types := s.types ++ [t], ics := s.ics.set numc s.types.length },
          s.types.length, t)
  match s.types[cmatch.toNat]? with
  | none => .error .segv
  | some t => return some (s, cmatch.toNat, t)

/-- The primary key, when more values follow it. -/
def parsePk (q : Request) (s : Parsed) (ctype : CType) (token nextc : Nat) :
    Except Fault (Option Parsed) :=
  let cstart := skipFrom q.vals token
  let cend := revSkipFrom q.vals (nextc - 1)
  if ctype = .text then
    if q.vals[cstart]? = some '\'' ∧ q.vals[cend]? = some '\'' then
      assignPk q s (cstart + 1) (max 0 ((cend : Int) - 1 - (cstart + 1) + 1))
    else .ok none
  else assignPk q s cstart (max 0 ((cend : Int) - cstart + 1))

/-- `if (!cmatch) { /* parse PK */`. -/
def takePk (q : Request) (s : Parsed) (cmatch : Nat) (ctype : CType) (token nextc : Nat) :
    Except Fault (Option Parsed) :=
  if cmatch = 0 then parsePk q s ctype token nextc else .ok (some s)

/-- `cofsts[cmatch] = (token - mvals, nextc - mvals)`. -/
def Parsed.extent (s : Parsed) (mvals cmatch token nextc : Nat) : Parsed :=
  { s with cofsts := s.cofsts.set cmatch ((token : Int) - mvals, (nextc : Int) - mvals) }

/-- The place behind the last value, which reaches to the closing parenthesis. -/
def lastEnd (v : Sds) : Nat :=
  let e := revSkipFrom v (v.length - 1)
  revSkipFrom v (if v[e]? = some ')' then e - 1 else e) + 1

/-- The primary key as the last value, or of its own if there was none. -/
def lastPk (q : Request) (s : Parsed) (cmatch token nextc : Nat) : Except Fault (Option Parsed) :=
  if cmatch = 0 then assignPk q s token ((nextc : Int) - token)
  else if s.pk = none then assignPk q s token 0
  else .ok (some s)

/-- How many values there have to be. -/
def Request.total (q : Request) : Nat := if q.pcols ≠ 0 then q.pcols else q.lncols

/-- What follows the loop. -/
def lastValue (q : Request) (mvals numc token : Nat) (s : Parsed) :
    Except Fault (Option Parsed) := do
  let cmatch ← cmatchOf q s numc
  let nextc := lastEnd q.vals
  match s.types[cmatch.toNat]? with
  | none => .error .segv
  | some ctype =>
      if validateParsedInsertVal q.vals ctype token nextc then
        let r ← lastPk q (s.extent mvals cmatch.toNat token nextc) cmatch.toNat token nextc
        return r.filter fun _ => numc + 1 = q.total
      else return none

/-- The loop of `parseRowVals`. -/
def parseLoop (q : Request) (mvals : Nat) : Nat → Nat → Nat → Nat → Parsed →
    Except Fault (Option Parsed)
  | 0, _, _, _, _ => .ok none
  | n + 1, numc, token, nextc, s => do
      match ← columnAt q s numc nextc with
      | none => return none
      | some (s, cmatch, ctype) =>
          match parseInsertValListNextc q.vals nextc ctype with
          | none => lastValue q mvals numc token s
          | some nx =>
              match ← takePk q s cmatch ctype token nx with
              | none => return none
              | some s =>
                  parseLoop q mvals n (numc + 1) (nx + 1) (skipFrom q.vals (nx + 1))
                    (s.extent mvals cmatch token nx)

/-- `parseRowVals`, with `mvals`. -/
def parseRowVals (q : Request) (types : List CType) (ics : List Int) :
    Except Fault (Option (Nat × Parsed)) := do
  let evals := revSkipFrom q.vals (q.vals.length - 1)
  let svals := skipFrom q.vals 0
  if q.vals[svals]? = some '(' ∧ q.vals[evals]? = some ')' then
    let mvals := skipFrom q.vals (svals + 1)
    let s : Parsed := ⟨types, ics, List.replicate q.ncols (-1, -1), none⟩
    return (← parseLoop q mvals (q.vals.length + 1) 0 mvals mvals s).map (mvals, ·)
  else return none

/-! ## Columns of the row -/

/-- `crd[i].strs` and `crd[i].slens`, before the length is taken as unsigned. -/
structure Crd where
  empty : Bool
  strs : Nat
  slens : Int
  deriving DecidableEq, Repr

/-- The text of a column in `createRow`: blanks in front are passed over, and those at the end if
the character behind the extent is a blank.  The delimiters of a TEXT are not stored. -/
def createCol (vals : Sds) (mvals : Nat) (ctype : CType) (cofst : Int × Int) : Crd :=
  let c : Crd :=
    if cofst.1 = -1 then ⟨true, 0, if ctype = .text ∨ ctype = .luatable then 2 else 0⟩
    else
      let startc := (mvals + cofst.1).toNat
      let endc := (mvals + cofst.2).toNat
      let strs := skipFrom vals startc
      let mendc := if (vals[endc]?).any isBlank then revSkipFrom vals endc else endc
      ⟨false, strs, (cofst.2 - cofst.1) - ((strs : Int) - startc) - ((endc : Int) - mendc)⟩
  if ctype = .text then { c with strs := c.strs + 1, slens := c.slens - 2 } else c

/-- How many columns are written: none behind the last one filled. -/
def filledCols (cofsts : List (Int × Int)) : Nat :=
  cofsts.length - (cofsts.reverse.takeWhile (fun e => e.1 == -1)).length

/-- The columns of `createRow` after the primary key. -/
def createRow (vals : Sds) (mvals : Nat) (types : List CType) (cofsts : List (Int × Int)) :
    List Crd :=
  ((types.zip cofsts).take (filledCols cofsts)).tail.map fun e => createCol vals mvals e.1 e.2

/-- The characters that `writeRow` copies for a TEXT column; no text has a negative length. -/
def Crd.text (vals : Sds) (c : Crd) : Option Sds :=
  if c.slens < 0 then none
  else if c.empty then some [] else some ((vals.drop c.strs).take c.slens.toNat)

end AlchemyDB.Text
