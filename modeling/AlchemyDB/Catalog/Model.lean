/-
# The catalog — tables, indexes and the places that hold index numbers

The global state that the data definition commands work on: the slots of `Tbl`
and `Index` with their drop lists, the dictionaries `TblD` and `IndD`, and in
each table the index numbers kept per table (`ilist`), per column (`imatch`, and
`ilist` of the column's dictionary entry) and per Lua function (`fdict`).

Commands are modelled from the parsed argument list on.  What Lua and the index
build answer is an argument (`Answers`); a fault is either a failed `ASSERT_OK`
or a dead pointer followed.
-/
import AlchemyDB.Lib.Slots
import AlchemyDB.Lib.Store

namespace AlchemyDB.Catalog

open Store Slots

/-! ## Names and dictionaries -/

abbrev Sds := List Char

/-- Dictionaries compare names without regard to case (`dictSdsKeyCaseCompare`). -/
def fold (s : Sds) : Sds := s.map Char.toLower

abbrev Dict (A : Type) := List (Sds × A)

def dictFetchValue {A : Type} (d : Dict A) (n : Sds) : Option A :=
  (d.find? (fun e => fold e.1 == fold n)).map (·.2)

def dictDelete {A : Type} (d : Dict A) (n : Sds) : Dict A :=
  d.filter (fun e => fold e.1 != fold n)

inductive Fault where
  /-- `ASSERT_OK` on a `dictAdd` that found its key. -/
  | assertOk
  /-- A null or stale pointer is followed. -/
  | segv
  deriving DecidableEq, Repr

/-- `ASSERT_OK(dictAdd(..))`. -/
def dictAdd {A : Type} (d : Dict A) (n : Sds) (v : A) : Except Fault (Dict A) :=
  if (dictFetchValue d n).isSome then .error .assertOk else .ok (d ++ [(n, v)])

/-! ## Data model -/

inductive CType where
  | int | long | u128 | float | text | luatable
  deriving DecidableEq, Repr

/-- `C_IS_NUM`. -/
def CType.isNum : CType → Bool
  | .int | .long | .u128 => true
  | _ => false

/-- A column, or a path below a Lua table column. -/
structure Icol where
  cmatch : Nat
  lo : List Sds
  deriving DecidableEq, Repr

/-- `icol_cmp(a, b) != 0`.  Two paths are compared by their elements alone. -/
def icolCmp (a b : Icol) : Bool :=
  if a.lo = [] then a.cmatch != b.cmatch else a.lo != b.lo

inductive Trig where
  | insert | delete | preupdate | postupdate
  deriving DecidableEq, Repr

/-- A slot of `Index`; a slot without a name is free. -/
structure Ind where
  name : Option Sds
  tmatch : Option Nat
  icol : Option Icol
  clist : Option (List Icol)
  virt : Bool
  uniq : Bool
  lru : Bool
  lfu : Bool
  obc : Option Icol
  done : Bool
  luat : Option (List Trig)
  fname : Option Sds
  deriving DecidableEq, Repr

/-- A slot after `bzero`. -/
def Ind.none : Ind :=
  { name := .none, tmatch := .none, icol := .none, clist := .none, virt := false, uniq := false,
    lru := false, lfu := false, obc := .none, done := false, luat := .none, fname := .none }

/-- A column with the index numbers kept for it: `imatch`, and the list `ilist` of its entry
in the column dictionary. -/
structure Col where
  name : Sds
  type : CType
  imatch : Option Nat
  indxd : Bool
  ilist : List Nat
  deriving DecidableEq, Repr

/-- A slot of `Tbl`; a slot without a name is free. -/
structure Tbl where
  name : Option Sds
  col : List Col
  ilist : List Nat
  fdict : Dict Nat
  vimatch : Option Nat
  nmci : Nat
  nltrgr : Nat
  sk : Option Nat
  dirty : Bool
  deriving DecidableEq, Repr

/-- Column `j` is there and holds numbers. -/
def Tbl.numCol (rt : Tbl) (j : Nat) : Bool :=
  match rt.col[j]? with
  | some k => k.type.isNum
  | none => false

/-- A slot after `initTable`. -/
def initTable : Tbl :=
  { name := .none, col := [], ilist := [], fdict := [], vimatch := .none, nmci := 0, nltrgr := 0,
    sk := .none, dirty := false }

structure Cat where
  index : Nat → Ind
  ipool : Pool
  indD : Dict Nat
  tbl : Nat → Tbl
  tpool : Pool
  tblD : Dict Nat

/-- `init_DXDB_PersistentStorageItems`. -/
def Cat.init (ntbl nindx : Nat) : Cat :=
  { index := fun _ => Ind.none, ipool := ⟨0, [], nindx⟩, indD := [],
    tbl := fun _ => initTable, tpool := ⟨0, [], ntbl⟩, tblD := [] }

namespace Cat

def setTbl (c : Cat) (t : Nat) (rt : Tbl) : Cat := { c with tbl := upd c.tbl t rt }

def setIndex (c : Cat) (i : Nat) (ri : Ind) : Cat := { c with index := upd c.index i ri }

/-! ## Lookups -/

def findTable (c : Cat) (tname : Sds) : Option Nat := dictFetchValue c.tblD tname

def matchPartialIndexName (c : Cat) (iname : Sds) : Option Nat := dictFetchValue c.indD iname

def matchIndexName (c : Cat) (iname : Sds) : Option Nat :=
  match c.matchPartialIndexName iname with
  | some i => if (c.index i).done then some i else none
  | none => none

/-- The indexes of a table that are complete, the unique ones first. -/
def matchIndex (c : Cat) (t : Nat) : List Nat :=
  (c.tbl t).ilist.foldl (fun indl i =>
    if (c.index i).done then (if (c.index i).uniq then i :: indl else indl ++ [i]) else indl) []

/-- A column by its name, or the path `name.lo` below it. -/
def findColumn (c : Cat) (t : Nat) (r : Sds × List Sds) : Option Icol :=
  ((c.tbl t).col.findIdx? (fun k => fold k.name == fold r.1)).map (fun j => ⟨j, r.2⟩)

def findPartialIndex (c : Cat) (t : Nat) (ic : Icol) : Option Nat :=
  match (c.tbl t).col[ic.cmatch]? with
  | none => none
  | some k =>
      if k.type ≠ .luatable then k.imatch
      else k.ilist.find? (fun i => match (c.index i).icol with
        | some jc => !icolCmp ic jc
        | none => false)

end Cat

/-! ## Removing an index -/

/-- The number is taken off the list of the table and off the column.  `listSearchKey` gives NULL
for a number that is not in the list, and the list of the column keeps it. -/
def unlisted (rt : Tbl) (ic : Option Icol) (i : Nat) : Except Fault Tbl :=
  match ic with
  | none => .ok rt
  | some ic =>
      match rt.col[ic.cmatch]? with
      | none => .error .segv
      | some k =>
          if i ∈ rt.ilist then
            .ok { rt with
              col := rt.col.set ic.cmatch { k with imatch := none }
              ilist := rt.ilist.erase i }
          else .error .segv

/-- The counters of the table. -/
def uncounted (rt : Tbl) (ri : Ind) : Tbl :=
  { rt with
    nltrgr := if ri.luat.isSome then rt.nltrgr - 1 else rt.nltrgr
    nmci := if ri.clist.isSome then rt.nmci - 1 else rt.nmci }

namespace Cat

/-- Slot `i` goes back to the pool. -/
def freed (c : Cat) (i : Nat) (n : Sds) (t : Nat) (rt : Tbl) : Cat :=
  { c with
    index := upd c.index i Ind.none
    ipool := c.ipool.give i
    indD := dictDelete c.indD n
    tbl := upd c.tbl t rt }

/-- `emptyIndex`. -/
def emptyIndex (c : Cat) (i : Nat) : Except Fault Cat :=
  match (c.index i).name, (c.index i).tmatch with
  | some n, some t =>
      unlisted (c.tbl t) (c.index i).icol i >>= fun rt =>
        .ok (c.freed i n t (uncounted rt (c.index i)))
  | some _, none => .error .segv
  | none, _ => .ok c

end Cat

/-! ## Creating an index -/

structure NewIndex where
  iname : Sds
  tmatch : Nat
  ic : Option Icol
  clist : Option (List Icol)
  uniq : Bool
  virt : Bool
  luat : Option (List Trig)
  obc : Option Icol
  prtl : Bool
  fname : Option Sds
  iconstrct : Option Sds
  deriving DecidableEq, Repr

/-- What the calls out of the catalog answer: the Lua constructor of a function index, the Lua
side of an index on a path, and the build of the index over the rows. -/
structure Answers where
  constr : Bool
  elem : Bool
  build : Bool
  deriving DecidableEq, Repr

/-- The slot as `newIndex` fills it. -/
def NewIndex.slot (a : NewIndex) : Ind :=
  { name := some a.iname, tmatch := some a.tmatch, icol := a.ic, clist := a.clist, virt := a.virt,
    uniq := a.uniq, lru := false, lfu := false, obc := a.obc, done := !a.prtl, luat := a.luat,
    fname := a.fname }

/-- The column takes the new index. -/
def Col.taking (k : Col) (i : Nat) : Col := { k with imatch := some i, ilist := k.ilist ++ [i] }

/-- The new number is put in the lists of the table and of the column. -/
def listed (rt : Tbl) (ic : Option Icol) (i : Nat) : Except Fault Tbl :=
  match ic with
  | none => .ok { rt with ilist := rt.ilist ++ [i] }
  | some ic =>
      match rt.col[ic.cmatch]? with
      | none => .error .segv
      | some k => .ok { rt with ilist := rt.ilist ++ [i], col := rt.col.set ic.cmatch (k.taking i) }

/-- A column of an index is marked; `updateRow` looks at the mark. -/
def markIndxd (l : List Col) (ic : Icol) : List Col :=
  match l[ic.cmatch]? with
  | some k => l.set ic.cmatch { k with indxd := true }
  | none => l

/-- The counters of the table and the marks on its columns. -/
def counted (rt : Tbl) (a : NewIndex) (i : Nat) : Tbl :=
  { rt with
    nltrgr := if a.luat.isSome then rt.nltrgr + 1 else rt.nltrgr
    nmci := if a.clist.isSome then rt.nmci + 1 else rt.nmci
    vimatch := if a.virt then some i else rt.vimatch
    col := (match a.clist with | some l => l | none => a.ic.toList).foldl markIndxd rt.col }

/-- A path of more than one step below a Lua table column. -/
def NewIndex.deep (a : NewIndex) : Bool :=
  match a.ic with
  | some ic => decide (1 < ic.lo.length)
  | none => false

/-- Whether the Lua side of the index cannot be made. -/
def NewIndex.luaFails (a : NewIndex) (o : Answers) : Bool :=
  !a.virt && a.luat.isNone &&
    ((a.iconstrct.isSome && !o.constr) ||
      (match a.ic with | some ic => !ic.lo.isEmpty && !o.elem | none => false))

/-- Whether the index is filled at once. -/
def NewIndex.builds (a : NewIndex) : Bool :=
  !a.virt && a.luat.isNone && !a.prtl && a.fname.isNone

namespace Cat

/-- The new number is in the slot and in the lists. -/
def placed (c : Cat) (a : NewIndex) (rt : Tbl) : Cat :=
  { c with
    index := upd c.index c.ipool.next a.slot
    ipool := c.ipool.take
    tbl := upd c.tbl a.tmatch rt }

/-- The error exit of `newIndex`. -/
def newindErr (c : Cat) (i : Nat) : Except Fault (Cat × Option Nat) :=
  c.emptyIndex i >>= fun c => .ok (c, none)

/-- The index is entered in `IndD` and filled. -/
def enterIndex (c : Cat) (a : NewIndex) (o : Answers) (i : Nat) : Except Fault (Cat × Option Nat) :=
  dictAdd c.indD a.iname i >>= fun indD =>
    if a.builds && !o.build then { c with indD := indD }.newindErr i
    else .ok ({ c with indD := indD }, some i)

/-- The second half of `newIndex`, once the slot and the lists are filled. -/
def finishIndex (c : Cat) (a : NewIndex) (o : Answers) (i : Nat) : Except Fault (Cat × Option Nat) :=
  if a.luaFails o then (c.setTbl a.tmatch (counted (c.tbl a.tmatch) a i)).newindErr i
  else (c.setTbl a.tmatch (counted (c.tbl a.tmatch) a i)).enterIndex a o i

/-- A Lua function has one index at most. -/
def addFname (c : Cat) (t : Nat) (f : Sds) (i : Nat) : Cat :=
  c.setTbl t { c.tbl t with fdict := (c.tbl t).fdict ++ [(f, i)] }

/-- The first half, once the number is in the lists. -/
def nameFunction (c : Cat) (a : NewIndex) (o : Answers) (i : Nat) : Except Fault (Cat × Option Nat) :=
  match a.fname with
  | none => c.finishIndex a o i
  | some f =>
      if (dictFetchValue (c.tbl a.tmatch).fdict f).isSome then c.newindErr i
      else (c.addFname a.tmatch f i).finishIndex a o i

/-- `newIndex`. -/
def newIndex (c : Cat) (a : NewIndex) (o : Answers) : Except Fault (Cat × Option Nat) :=
  if a.deep then .ok (c, none)
  else
    listed (c.tbl a.tmatch) a.ic c.ipool.next >>= fun rt =>
      (c.placed a rt).nameFunction a o c.ipool.next

/-! ## Tables -/

/-- `validateCreateTableCnames`: no column is named LRU and no two names agree. -/
def validateCreateTableCnames (cols : List (Sds × CType)) : Bool :=
  cols.all (fun k => fold k.1 != "lru".toList) && decide (cols.map (fun k => fold k.1)).Nodup

/-- The name of the index on the primary key. -/
def pkIndexName (tname pkname : Sds) : Sds := tname ++ '_' :: pkname ++ '_' :: "index".toList

/-- The table as it starts. -/
def freshTable (tname : Sds) (cols : List (Sds × CType)) : Tbl :=
  { initTable with
    name := some tname
    col := cols.map (fun k => ⟨k.1, k.2, none, false, []⟩) }

/-- The index on the primary key, which every table has. -/
def pkIndex (tname pk : Sds) (t : Nat) : NewIndex :=
  { iname := pkIndexName tname pk, tmatch := t, ic := some ⟨0, []⟩, clist := none, uniq := false,
    virt := true, luat := none, obc := none, prtl := false, fname := none, iconstrct := none }

/-- The table is in its slot and in `TblD`. -/
def withTable (c : Cat) (tblD : Dict Nat) (rt : Tbl) : Cat :=
  { c with tbl := upd c.tbl c.tpool.next rt, tpool := c.tpool.take, tblD := tblD }

/-- `newTable`. -/
def newTable (c : Cat) (tname : Sds) (cols : List (Sds × CType)) (o : Answers) :
    Except Fault Cat :=
  match cols with
  | (pk, _) :: _ :: _ =>
      if validateCreateTableCnames cols then
        dictAdd c.tblD tname c.tpool.next >>= fun tblD =>
          (c.withTable tblD (freshTable tname cols)).newIndex (pkIndex tname pk c.tpool.next) o
            >>= fun r => .ok r.1
      else .ok c
  | _ => .ok c

/-- Indexes removed one after the other. -/
def emptyIndexes (c : Cat) : List Nat → Except Fault Cat
  | [] => .ok c
  | i :: rest => c.emptyIndex i >>= fun c => c.emptyIndexes rest

/-- `emptyTable`.  Only the complete indexes of the table are removed with it. -/
def emptyTable (c : Cat) (t : Nat) : Except Fault Cat :=
  match (c.tbl t).name with
  | none => .ok c
  | some n =>
      { c with tblD := dictDelete c.tblD n }.emptyIndexes (c.matchIndex t) >>= fun c =>
        .ok { c with tbl := upd c.tbl t initTable, tpool := c.tpool.give t }

/-! ## Commands -/

/-- `createTable`. -/
def createTable (c : Cat) (tname : Sds) (cols : List (Sds × CType)) (o : Answers) :
    Except Fault Cat :=
  if (c.findTable tname).isSome then .ok c else c.newTable tname cols o

/-- `dropTable`. -/
def dropTable (c : Cat) (tname : Sds) : Except Fault Cat :=
  match c.findTable tname with
  | none => .ok c
  | some t => c.emptyTable t

/-- The indexes `dropIndex` refuses to drop: on the primary key, LRU, LFU, on the shard key. -/
def protectedIndex (c : Cat) (i : Nat) : Bool :=
  (c.index i).virt || (c.index i).lru || (c.index i).lfu ||
    match (c.index i).tmatch with
    | none => false
    | some t => (c.tbl t).sk.isSome && (c.tbl t).sk == (c.index i).icol.map (·.cmatch)

/-- `dropIndex`. -/
def dropIndex (c : Cat) (iname : Sds) : Except Fault Cat :=
  match c.matchPartialIndexName iname with
  | none => .ok c
  | some i => if c.protectedIndex i then .ok c else c.emptyIndex i

/-- `dropLuaTrigger`. -/
def dropLuaTrigger (c : Cat) (iname : Sds) : Except Fault Cat :=
  match c.matchIndexName iname with
  | none => .ok c
  | some i => if (c.index i).luat.isNone then .ok c else c.emptyIndex i

/-- A trigger is an index without a column. -/
def trigIndex (trname : Sds) (t : Nat) (ty : Trig) : NewIndex :=
  { iname := trname, tmatch := t, ic := none, clist := none, uniq := false, virt := false,
    luat := some [ty], obc := none, prtl := false, fname := none, iconstrct := none }

/-- `createLuaTrigger` with `luaTAdd`: a trigger that exists takes one more command.  `typ` is the
kind of event, `parsed` whether the call could be read. -/
def createLuaTrigger (c : Cat) (trname tname : Sds) (typ : Option Trig) (parsed : Bool)
    (o : Answers) : Except Fault Cat :=
  match c.findTable tname with
  | none => .ok c
  | some t =>
      match c.matchIndexName trname, typ with
      | none, none => .ok c
      | none, some ty =>
          if parsed then c.newIndex (trigIndex trname t ty) o >>= fun r => .ok r.1
          else .ok c
      | some i, ty =>
          match (c.index i).luat, ty with
          | none, _ => .error .segv
          | some _, none => .ok c
          | some l, some ty =>
              if ty ∈ l then .ok c
              else if !parsed then .ok c
              else .ok (c.setIndex i { c.index i with luat := some (l ++ [ty]) })

end Cat

/-! ## CREATE INDEX -/

/-- What an index is on: one column, several, or the result of a Lua function. -/
inductive Target where
  | col (r : Sds × List Sds) (numeric : Bool)
  | cols (r₁ r₂ : Sds × List Sds) (rs : List (Sds × List Sds))
  | func (fname : Sds) (iconstrct : Sds)
  deriving DecidableEq, Repr

/-- The arguments of `createIndex` once read. -/
structure CreateIndex where
  iname : Sds
  tname : Sds
  uniq : Bool
  target : Target
  obc : Option (Sds × List Sds)
  /-- `LIMIT`: the index is built by a cursor. -/
  prtl : Bool
  deriving DecidableEq, Repr

/-- How a step of the cursor ends. -/
inductive Cursor where
  | failed | more | finished
  deriving DecidableEq, Repr

namespace Cat

/-- The columns of a multi column index; none of them may be the primary key. -/
def mciColumns (c : Cat) (t : Nat) : List (Sds × List Sds) → Option (List Icol)
  | [] => some []
  | r :: rs =>
      match c.findColumn t r with
      | none => none
      | some ic => if ic.cmatch = 0 then none else (c.mciColumns t rs).map (ic :: ·)

/-- One index met in the search for an index that is there already: `none` when the command is
refused, otherwise whether a new index is to be made. -/
def meets (ri : Ind) (iname : Sds) (prtl : Bool) : Option Bool :=
  if prtl && !ri.done then (if ri.name = some iname then some false else none) else none

/-- The search goes through all counted slots; `same` is the test on one of them. -/
def alreadyIndexed (c : Cat) (iname : Sds) (prtl : Bool) (same : Ind → Bool) : Nat → Option Bool
  | 0 => some true
  | m + 1 =>
      match c.alreadyIndexed iname prtl same m with
      | none => none
      | some new =>
          if same (c.index m) then meets (c.index m) iname prtl else some new

/-- The test on a multi column index: as the source has it, the lists match when no two of their
columns are equal. -/
def sameMci (t : Nat) (clist : List Icol) (ri : Ind) : Bool :=
  ri.name.isSome && decide (ri.tmatch = some t) &&
    match ri.clist with
    | some l => decide (clist.length = l.length) && (clist.zip l).all (fun e => icolCmp e.1 e.2)
    | none => false

/-- The test on an index of one column. -/
def sameCol (t : Nat) (ic : Icol) (ri : Ind) : Bool :=
  ri.name.isSome && decide (ri.tmatch = some t) &&
    match ri.icol with
    | some jc => !icolCmp jc ic
    | none => false

/-- The columns an index is to be made on, and whether it is new; `none` when the command is
refused. -/
def indexOn (c : Cat) (t : Nat) (a : CreateIndex) : Option (Option Icol × Option (List Icol) × Bool) :=
  let rt := c.tbl t
  match a.target with
  | .func _ _ => some (none, none, true)
  | .cols r₁ r₂ rs =>
      if a.uniq && (decide (rt.nmci ≠ 0) || !rt.numCol 0) then none
      else
        match c.mciColumns t (r₁ :: r₂ :: rs) with
        | none => none
        | some [] => none
        | some (ic :: l) =>
            if a.uniq && !rt.numCol ((ic :: l).getLast (by simp)).cmatch then none
            else (c.alreadyIndexed a.iname a.prtl (sameMci t (ic :: l)) c.ipool.num).map
              (fun new => (some ic, some (ic :: l), new))
  | .col r numeric =>
      match c.findColumn t r with
      | none => none
      | some ic =>
          if a.uniq && ((!rt.numCol ic.cmatch && !numeric) || !rt.numCol 0) then none
          else (c.alreadyIndexed a.iname a.prtl (sameCol t ic) c.ipool.num).map
            (fun new => (some ic, none, new))

/-- The ORDER BY column; `none` when the command is refused. -/
def orderBy (c : Cat) (t : Nat) (a : CreateIndex) (ic : Option Icol) : Option (Option Icol) :=
  match a.obc with
  | none => some none
  | some r =>
      match c.findColumn t r with
      | none => none
      | some obc =>
          if obc.cmatch = 0 || a.uniq || (match ic with | some ic => !icolCmp obc ic | none => false)
              || !(c.tbl t).numCol obc.cmatch || !(c.tbl t).numCol 0 then none
          else some (some obc)

/-- The arguments `newIndex` is called with. -/
def indexArgs (a : CreateIndex) (t : Nat) (ic : Option Icol) (clist : Option (List Icol))
    (obc : Option Icol) : NewIndex :=
  { iname := a.iname, tmatch := t, ic := ic, clist := clist, uniq := a.uniq, virt := false,
    luat := none, obc := obc, prtl := a.prtl,
    fname := match a.target with | .func f _ => some f | _ => none
    iconstrct := match a.target with | .func _ k => some k | _ => none }

/-- A step of the cursor; the index is complete when the cursor has reached the end. -/
def cursorStep (c : Cat) (t : Nat) (ic : Option Icol) (k : Cursor) : Cat :=
  match ic.bind (c.findPartialIndex t) with
  | none => c
  | some i => if k = .finished then c.setIndex i { c.index i with done := true } else c

/-- What `ICommit` has decided once all its checks are passed: the table, the column the cursor
goes by, and the arguments of `newIndex` when a new index is to be made. -/
structure Plan where
  tmatch : Nat
  ic : Option Icol
  new : Option NewIndex

/-- The checks of `ICommit`; `none` when the command is refused. -/
def plan (c : Cat) (a : CreateIndex) : Option Plan :=
  match c.findTable a.tname with
  | none => none
  | some t =>
      if (c.tbl t).dirty || (a.prtl && !(c.tbl t).numCol 0) then none
      else
        match c.indexOn t a with
        | none => none
        | some (ic, clist, new) =>
            (c.orderBy t a ic).map (fun obc =>
              ⟨t, ic, if new then some (indexArgs a t ic clist obc) else none⟩)

/-- `ICommit`. -/
def iCommit (c : Cat) (a : CreateIndex) (o : Answers) (k : Cursor) : Except Fault Cat :=
  match c.plan a with
  | none => .ok c
  | some ⟨t, ic, none⟩ => .ok (if a.prtl then c.cursorStep t ic k else c)
  | some ⟨t, ic, some n⟩ =>
      c.newIndex n o >>= fun r =>
        .ok (if a.prtl && r.2.isSome then r.1.cursorStep t ic k else r.1)

/-- `createIndex`.  The test for the word ORDER is the wrong way round, so that every ORDER BY
clause is a syntax error; a function index takes no LIMIT. -/
def createIndex (c : Cat) (a : CreateIndex) (o : Answers) (k : Cursor) : Except Fault Cat :=
  if (c.matchIndexName a.iname).isSome || a.obc.isSome then .ok c
  else
    match a.target with
    | .func _ _ => if a.prtl then .ok c else c.iCommit a o k
    | _ => c.iCommit a o k

/-! ## Runs -/

inductive Cmd where
  | createTable (tname : Sds) (cols : List (Sds × CType)) (o : Answers)
  | createIndex (a : CreateIndex) (o : Answers) (k : Cursor)
  | createLuaTrigger (trname tname : Sds) (typ : Option Trig) (parsed : Bool) (o : Answers)
  | dropIndex (iname : Sds)
  | dropLuaTrigger (iname : Sds)
  | dropTable (tname : Sds)
  deriving DecidableEq, Repr

def step (c : Cat) : Cmd → Except Fault Cat
  | .createTable tname cols o => c.createTable tname cols o
  | .createIndex a o k => c.createIndex a o k
  | .createLuaTrigger trname tname typ parsed o => c.createLuaTrigger trname tname typ parsed o
  | .dropIndex iname => c.dropIndex iname
  | .dropLuaTrigger iname => c.dropLuaTrigger iname
  | .dropTable tname => c.dropTable tname

def run (c : Cat) : List Cmd → Except Fault Cat
  | [] => .ok c
  | cmd :: cmds => c.step cmd >>= fun c => c.run cmds

end Cat

end AlchemyDB.Catalog
