/-
# Lua triggers — what a table calls while its rows change

A trigger stands among the indexes of its table and keeps nothing: it has up to four
commands, which are called with columns of a row.  They are called when a row has
been inserted, for a row that is taken out of the indexes, and before and after an
UPDATE.  The functions are those of `Table.Model` and `Index.Model` with the triggers
in their places and the calls in their order; the table of a trigger is not
overwritten in place.
-/
import AlchemyDB.Table.Session

namespace AlchemyDB.Table.Trigger

open Assoc Index

/-! ## Triggers -/

/-- `LUAT_DO_ADD`, `LUAT_DO_DEL`, `LUAT_DO_PREUP` and `LUAT_DO_POSTUP`. -/
inductive Whom where
  | add | del | preup | postup
  deriving DecidableEq, Repr

/-- `ltc_t`: a command, whether its first argument is the name of the table, and its columns. -/
structure Ltc where
  fname : String
  tblarg : Bool
  ics : List Nat
  deriving DecidableEq, Repr

/-- `luat_t`; a command without a name is not there. -/
structure Luat where
  add : Option Ltc
  del : Option Ltc
  preup : Option Ltc
  postup : Option Ltc
  deriving DecidableEq, Repr

def Luat.command (l : Luat) : Whom → Option Ltc
  | .add => l.add
  | .del => l.del
  | .preup => l.preup
  | .postup => l.postup

/-- A call of a Lua function for the trigger `imatch`: what it is called with behind the name of the
table. -/
structure Call where
  imatch : Nat
  whom : Whom
  fname : String
  tblarg : Bool
  args : List (Option Aobj)
  deriving DecidableEq, Repr

/-- An entry of `match_index`: an index, or a trigger (`hlt`), which keeps nothing. -/
structure Slot where
  imatch : Nat
  luat : Option Luat
  ind : Ind

/-- `luatDo`. -/
def luatDo (whom : Whom) (r : Row) (x : Slot) : List Call :=
  match x.luat.bind fun l => l.command whom with
  | some ltc => [⟨x.imatch, whom, ltc.fname, ltc.tblarg, ltc.ics.map (getCol r)⟩]
  | none => []

/-! ## The indexes of a table -/

/-- `runFailableInsertIndexes`: the triggers are passed over, but when an index rejects the row they are
called for the row as if it was taken out. -/
def runFailableInsertIndexes (r : Row) : List Slot → Option (Bool × List Slot × List Call)
  | [] => some (true, [], [])
  | x :: rest =>
      if x.luat.isSome then
        (runFailableInsertIndexes r rest).map fun e =>
          (e.1, x :: e.2.1, if e.1 then e.2.2 else luatDo .del r x ++ e.2.2)
      else
        let a := x.ind.addToIndex r
        if a.1 then
          match runFailableInsertIndexes r rest with
          | none => none
          | some (true, rest, calls) => some (true, { x with ind := a.2 } :: rest, calls)
          | some (false, rest, calls) =>
              (a.2.delFromIndex r).map fun y => (false, { x with ind := y } :: rest, calls)
        else some (false, { x with ind := a.2 } :: rest, [])

/-- `runDeleteIndexes`: an index gives the row up, a trigger is called. -/
def runDeleteIndexes (r : Row) : List Slot → Option (List Slot × List Call)
  | [] => some ([], [])
  | x :: rest =>
      if x.luat.isSome then
        (runDeleteIndexes r rest).map fun e => (x :: e.1, luatDo .del r x ++ e.2)
      else
        match x.ind.delFromIndex r, runDeleteIndexes r rest with
        | some y, some e => some ({ x with ind := y } :: e.1, e.2)
        | _, _ => none

/-- `upEffectedFailableIndexes`: the triggers have no part in it. -/
def upEffectedFailableIndexes (u : Sets) (orow nrow : Row) : List Slot → Option (Bool × List Slot)
  | [] => some (true, [])
  | x :: rest =>
      if x.luat.isNone ∧ effected u x.ind.kind then
        let a := x.ind.addToIndex nrow
        if a.1 then
          match a.2.delFromIndex orow with
          | none => none
          | some y =>
              match upEffectedFailableIndexes u orow nrow rest with
              | none => none
              | some (true, rest) => some (true, { x with ind := y } :: rest)
              | some (false, rest) =>
                  (y.delFromIndex nrow).map fun z => (false, { x with ind := z } :: rest)
        else some (false, { x with ind := a.2 } :: rest)
      else (upEffectedFailableIndexes u orow nrow rest).map fun e => (e.1, x :: e.2)

/-- `runLuaTriggerInsertIndexes`, `runPreUpdateLuatriggers` and `runPostUpdateLuatriggers`. -/
def runTriggers (whom : Whom) (r : Row) (slots : List Slot) : List Call :=
  slots.flatMap (luatDo whom r)

/-! ## The table -/

/-- A table with its indexes and triggers. -/
structure TTab where
  ty : Nat → KType
  ncols : Nat
  store : Store
  slots : List Slot

/-- The table without what its triggers are called with. -/
def TTab.tab (t : TTab) : Tab := ⟨t.ty, t.ncols, t.store, t.slots.map (·.ind)⟩

/-- `nltrgr`. -/
def TTab.nltrgr (t : TTab) : Nat := t.slots.countP (·.luat.isSome)

/-- `updateRow`: with triggers no row is overwritten in place. -/
def planRow (t : TTab) (u : Sets) (orow : Row) : Planned :=
  match u.evalRow t.ncols orow with
  | none => .failed
  | some new =>
      if t.nltrgr = 0 ∧ overwrites t.tab u orow new then .overwrite (updateOverwrite t.tab u orow new)
      else handRow t.tab (t.tab.asRow new)

/-- `runUpdate`. -/
def runUpdate (t : TTab) (u : Sets) (orow nrow : Row) : Option (TTab × List Call) :=
  let pre := runTriggers .preup orow t.slots
  if u.pk.isSome then do
    let (_, slots, undone) ← runFailableInsertIndexes nrow t.slots
    let (slots, dels) ← runDeleteIndexes orow slots
    let s ← t.store.del orow.pk
    some ({ t with store := s.add nrow.pk nrow.cols, slots := slots },
      pre ++ undone ++ dels ++ runTriggers .postup nrow slots)
  else do
    let (_, slots) ← upEffectedFailableIndexes u orow nrow t.slots
    let s ← t.store.replace orow.pk nrow.cols
    some ({ t with store := s, slots := slots }, pre ++ runTriggers .postup nrow slots)

/-- The single row branch of `updateInnards`. -/
def updateSingle (t : TTab) (u : Sets) (pk : Aobj) : Option (Bool × TTab × List Call) :=
  if u.pk.any (fun e => (t.store.find e.checked).isSome) then some (false, t, [])
  else
    match t.store.find pk with
    | none => some (false, t, [])
    | some cols =>
        match planRow t u ⟨pk, cols⟩ with
        | .failed => some (false, t, [])
        | .overwrite c => (t.store.replace pk c).map fun s => (true, { t with store := s }, [])
        | .newRow new => (runUpdate t u ⟨pk, cols⟩ new).map fun e => (true, e.1, e.2)
        | .misread => none

/-- `insertCommit` from the point where a new row is built. -/
def insertRow (t : TTab) (repl : Bool) (r : Row) : Option (Bool × TTab × List Call) := do
  let (ok, slots, undone) ← runFailableInsertIndexes r t.slots
  if ok then
    let adds := runTriggers .add r slots
    let (slots, dels) ← (match repl, t.store.find r.pk with
      | true, some orow => runDeleteIndexes ⟨r.pk, orow⟩ slots
      | _, _ => some (slots, []))
    let s ← if repl then t.store.replace r.pk r.cols else some (t.store.add r.pk r.cols)
    some (true, { t with store := s, slots := slots }, adds ++ dels)
  else some (false, { t with slots := slots }, undone)

/-- `createRow` returns a null pointer when it fails, and for a row that is one. -/
def insertNew (t : TTab) (repl : Bool) (r : Row) : Option (Bool × TTab × List Call) :=
  if t.tab.null r then some (false, t, []) else insertRow t repl r

def insertCommit (t : TTab) (mode : Mode) (r : Row) : Option (Bool × TTab × List Call) :=
  match mode, t.store.find r.pk with
  | .insert, some _ => some (false, t, [])
  | .upd u, some _ => updateSingle t u r.pk
  | .repl, _ => insertNew t true (t.tab.asRow r)
  | _, none => insertNew t false (t.tab.asRow r)

/-- `deleteRow`. -/
def deleteRow (t : TTab) (pk : Aobj) : Option (Bool × TTab × List Call) :=
  match t.store.find pk with
  | none => some (false, t, [])
  | some cols => do
      let (slots, dels) ← runDeleteIndexes ⟨pk, cols⟩ t.slots
      let s ← t.store.del pk
      some (true, { t with store := s, slots := slots }, dels)

/-! ## Range UPDATE -/

/-- The rows that are gone through, as in `updateRows`. -/
def updateRows (u : Sets) : TTab → List Aobj → Option (Bool × TTab × Queue)
  | t, [] => some (true, t, [])
  | t, pk :: pks =>
      match t.store.find pk with
      | none => none
      | some cols =>
          match planRow t u ⟨pk, cols⟩ with
          | .failed => some (false, t, [])
          | .overwrite c =>
              match t.store.replace pk c with
              | none => none
              | some s => updateRows u { t with store := s } pks
          | .newRow new =>
              if t.store.kind = .uu then none
              else (updateRows u t pks).map fun e => (e.1, e.2.1, (⟨pk, cols⟩, new) :: e.2.2)
          | .misread => none

/-- `runUpdateQueue`. -/
def runUpdateQueue (u : Sets) : TTab → Queue → Option (TTab × List Call)
  | t, [] => some (t, [])
  | t, e :: q =>
      match runUpdate t u e.1 e.2 with
      | none => none
      | some (t, calls) => (runUpdateQueue u t q).map fun e => (e.1, calls ++ e.2)

/-- `iupdateAction`; a trigger is on no column that would have the command refused. -/
def updateRange (t : TTab) (u : Sets) (q : Queue) (sc : Scan) :
    Option (Bool × TTab × Queue × List Call) :=
  if rangeRefused t.tab u then some (false, t, q, [])
  else if sc.rows = [] then some (true, t, q, [])
  else
    match updateRows u t sc.visited with
    | none => none
    | some (true, t, q') =>
        if q = [] then
          (runUpdateQueue u t (sharedRows t.tab q')).map fun e => (true, e.1, [], e.2)
        else none
    | some (false, t, q') => some (false, t, if sc.sorted then q ++ q' else [], [])

/-! ## Runs -/

/-- The table, the `UpdateQueue` of the client, and what was called. -/
structure State where
  tab : TTab
  queue : Queue
  log : List Call

/-- A command, as in `Sess.exec`. -/
def State.exec (s : State) : Cmd → Option State
  | .insert mode r =>
      (insertCommit s.tab mode r).map fun e => ⟨e.2.1, s.queue, s.log ++ e.2.2⟩
  | .update u pk => (updateSingle s.tab u pk).map fun e => ⟨e.2.1, s.queue, s.log ++ e.2.2⟩
  | .range u sc =>
      (updateRange s.tab u s.queue sc).map fun e => ⟨e.2.1, e.2.2.1, s.log ++ e.2.2.2⟩
  | .delete pk => (deleteRow s.tab pk).map fun e => ⟨e.2.1, s.queue, s.log ++ e.2.2⟩

def State.run (s : State) (cmds : List Cmd) : Option State := cmds.foldlM State.exec s

end AlchemyDB.Table.Trigger
