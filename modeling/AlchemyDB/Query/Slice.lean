/-
# ORDER BY, LIMIT and OFFSET — range queries

A query whose order is that of the scan counts LIMIT and OFFSET while it goes; any other query puts its
rows into a list, which is sorted and sliced when the scan is over.  SELECT, UPDATE and DELETE go the same
way: they scan alike, and differ in what they do with the rows.

The scans are those of `Op` in ascending direction: where a descending one begins depends on the tree.
`none` is an error, or a null pointer or a number that is followed, as it is for the lookups.
-/
import AlchemyDB.Query.Met
import AlchemyDB.Query.Sorting
import AlchemyDB.Table.Range

namespace AlchemyDB.Query.Slice

open Assoc Index Table Select
open Sorting (Ocol Obsl)

/-! ## The clause -/

/-- `wob_t`: the columns of ORDER BY, and -1 for no LIMIT and for no OFFSET. -/
structure Wob where
  obc : List Ocol
  lim : Int
  ofst : Int

/-- `qr_t`. -/
structure Qr where
  pk : Bool
  pkDesc : Bool
  pkLim : Bool
  pkLo : Bool
  fk : Bool
  fkDesc : Bool
  fkLim : Bool
  fkLo : Bool
  inrDesc : Bool
  xth : Bool
  qed : Bool

/-- `!icol_cmp(&wb->obc[i], &ic)`, for columns without a path. -/
def Wob.on (w : Wob) (i : Nat) (ic : Int) : Bool := (w.obc[i]?).any fun o => decide ((o.cmatch : Int) = ic)

/-- `!wb->asc[i]`. -/
def Wob.desc (w : Wob) (i : Nat) : Bool := (w.obc[i]?).any fun o => !o.asc

/-- `icol` of an index. -/
def firstCol : Kind → Int
  | .silent => -1
  | .single col _ => col
  | .uniq col _ => col
  | .mci cols _ => (cols.headD 0 : Nat)
  | .umci cols last _ => ((cols ++ [last]).headD 0 : Nat)

/-- `obc` of an index. -/
def orderCol : Kind → Int
  | .single _ (some o) => o
  | .mci _ (some o) => o
  | _ => -1

/-- `bclist` of an index. -/
def bclist : Kind → List Nat
  | .mci cols _ => cols
  | .umci cols last _ => cols ++ [last]
  | _ => []

/-- The loop of `mci_fk_queued`: the number of columns that agree. -/
def agreeing : List Ocol → List Nat → Nat
  | o :: os, c :: cs => if o.cmatch = c then agreeing os cs + 1 else 0
  | _, _ => 0

/-- `mci_fk_queued`. -/
def mciFkQueued (w : Wob) (k : Kind) : Bool :=
  let i := agreeing w.obc (bclist k)
  if i + 1 = w.obc.length then !w.on i (orderCol k) else decide (i ≠ w.obc.length)

/-- `setRangeQueued` for the primary key. -/
def pkQueued (w : Wob) (flist : Bool) : Qr :=
  let nob := w.obc.length
  let pk := decide (nob > 1) || (decide (nob = 1) && !w.on 0 0)
  let lim := !pk && decide (w.lim ≠ -1)
  let lo := lim && decide (w.ofst ≠ -1)
  { pk := pk, pkDesc := w.desc 0 && w.on 0 0, pkLim := lim, pkLo := lo, fk := false, fkDesc := false,
    fkLim := false, fkLo := false, inrDesc := false,
    xth := lo && !(flist && decide (w.ofst ≠ -1)), qed := pk }

/-- `setRangeQueued` for an index; `single` stands for `SQL_SINGLE_FK_LKP`. -/
def fkQueued (k : Kind) (single : Bool) (w : Wob) (flist : Bool) : Qr :=
  let nob := w.obc.length
  let ic := if firstCol k = 0 then -1 else firstCol k
  let obc := if orderCol k = -1 then 0 else orderCol k
  let fk :=
    if single then
      if bclist k ≠ [] then mciFkQueued w k
      else decide (nob > 2) || (decide (nob = 1) && !w.on 0 ic && !w.on 0 obc) ||
        (decide (nob = 2) && (!(w.on 0 ic && w.on 1 obc) && !(w.on 1 ic && w.on 0 obc)))
    else decide (nob > 2) || (decide (nob = 1) && !w.on 0 ic) ||
      (decide (nob = 2) && !(w.on 0 ic && w.on 1 obc))
  let lim := !fk && decide (w.lim ≠ -1)
  let lo := lim && decide (w.ofst ≠ -1)
  { pk := false, pkDesc := false, pkLim := false, pkLo := false, fk := fk, fkDesc := w.desc 0 && w.on 0 ic,
    fkLim := lim, fkLo := lo,
    inrDesc := (decide (nob = 1) && w.desc 0 && w.on 0 obc) ||
      (decide (nob > 1) && w.on 0 ic && w.desc 1 && w.on 1 obc),
    xth := lo && !(flist && decide (w.ofst ≠ -1)), qed := fk }

/-- `setQueued`: with an IN list it is `setInQueued`. -/
def setQueued (t : Tab) (wf : Lookup) (w : Wob) (flist : Bool) : Option Qr :=
  match wf with
  | .single _ => none
  | .pkRange _ _ => some (pkQueued w flist)
  | .pkIn _ => some { pkQueued w flist with pkLo := false, fkLo := false }
  | .fk imatch _ => (t.inds[imatch]?).map fun x => fkQueued x.kind true w flist
  | .fkRange imatch _ _ => (t.inds[imatch]?).map fun x => fkQueued x.kind false w flist
  | .fkIn imatch _ =>
      (t.inds[imatch]?).map fun x => { fkQueued x.kind false w flist with pkLo := false, fkLo := false }

/-! ## Iterators with an OFFSET -/

/-- What `btGetXthIter` gives: the first entries are jumped over before the high key is looked at. -/
def btXthRange {ν : Type} (bkey : Option Aobj) (high : Aobj) (ofst : Nat) (l : List (Aobj × ν)) :
    List (Aobj × ν) :=
  match bkey with
  | none => []
  | some k => scan high ((l.dropWhile fun e => decide (e.1 < k)).drop ofst)

/-- An entry that is the null pointer. -/
def nullEntry : LKind → Aobj × Aobj → Bool
  | .uu, e => decide (e.1 = .int 0 ∧ e.2 = .int 0)
  | k, e => (createBTKey k (some e.1)).isNone

/-- What `btGetFullXthIter` gives where the OFFSET leaves entries. -/
def leafXth (l : Leaf) (ofst : Nat) : List (Aobj × Aobj) :=
  match l.ents.head?, l.ents.getLast? with
  | some aL, some aH =>
      if nullEntry l.kind aL || nullEntry l.kind aH then [] else scan aH.1 (l.ents.drop ofst)
  | _, _ => []

/-! ## The scan -/

/-- What the loops count, and the rows that the operation has taken. -/
structure Run where
  card : Nat
  loops : Int
  ofst : Int
  brkr : Bool
  rows : List Row

section Scan

variable {L : Type} (t : Tab) (tmatch : Nat) (given : Row → Flist.Given L)
  (flist : Option (List (Flist.Filter L))) (q : Qr) (w : Wob)

/-- What `select_op`, `update_op` and `dellist_op` have in common.  A row that is not there is read. -/
def rowOp (row : Option Row) (s : Run) : Option Run :=
  row.bind fun r => (passes tmatch given flist (some r)).map fun ok =>
    if ok then { s with card := s.card + 1, rows := s.rows ++ [r] } else s

/-- `pk_op_l`. -/
def pkOpL (row : Option Row) (s : Run) : Option Run :=
  let s := { s with loops := s.loops + 1, brkr := false }
  if q.pkLim ∧ ¬ q.pkLo ∧ w.ofst ≠ -1 ∧ s.loops < w.ofst then some s
  else (rowOp tmatch given flist row s).map fun s =>
    if q.pkLim ∧ w.lim = s.card then { s with brkr := true } else s

/-- `uBT_Op`. -/
def uBTOp (uv : Aobj) (s : Run) : Option Run :=
  let s := { s with loops := s.loops + 1, brkr := false }
  if q.fkLim ∧ q.fkLo ∧ s.loops < s.ofst then some s
  else if q.fkLim ∧ w.lim = s.card then some { s with brkr := true }
  else rowOp tmatch given flist (rrow t uv) s

/-- `nBT_ROp`. -/
def nBTROp (pk : Aobj) (s : Run) : Option Run :=
  let s := { s with loops := s.loops + 1 }
  if q.fkLim ∧ ¬ q.fkLo ∧ s.loops < s.ofst then some s
  else (rowOp tmatch given flist (rrow t pk) s).map fun s =>
    if q.fkLim ∧ w.lim = s.card then { s with brkr := true } else s

/-- A loop that `brkr` ends. -/
def loop {ε : Type} (f : ε → Run → Option Run) : List ε → Run → Option Run
  | [], s => some s
  | e :: l, s =>
      match f e s with
      | none => none
      | some s' => if s'.brkr then some s' else loop f l s'

/-- `nBT_Op`; `fkRq` says that the lookup is not that of one key.  The scion of the root is the number
of keys. -/
def nBTOp (fkRq : Bool) (l : Leaf) (s : Run) : Option Run :=
  if q.fkLo ∧ fkRq ∧ (l.ents.length : Int) ≤ s.ofst then
    some { s with ofst := s.ofst - l.ents.length }
  else
    let es := if q.xth ∧ s.ofst > 0 then leafXth l s.ofst.toNat else leafRange l
    (loop (nBTROp t tmatch given flist q w) (es.map (nodePk l)) { s with brkr := false }).map fun s =>
      let s := if q.fkLo then { s with ofst := 0 } else s
      if q.fkLim ∧ w.lim = s.card then { s with brkr := true } else s

/-- What is handed to the callback of `Op`. -/
def callback (fkRq : Bool) : Meet → Run → Option Run
  | .row r, s => pkOpL tmatch given flist q w (some r) s
  | .node l, s => nBTOp t tmatch given flist q w fkRq l s
  | .uniq uv, s => uBTOp t tmatch given flist q w uv s

variable (uv : Aobj) (cs : Cswc L)

/-- The entries that `rangeOpFK` gives `uBT_Op` of a UNIQUE index on one column. -/
def uniqMeet (l : Leaf) (e : Aobj × Aobj) : Option Meet :=
  if l.kind = .uu ∧ e.2 = .int 0 then none else (uniqFind l e.1).map .uniq

/-- What the lookup meets, and the OFFSET that is left for the loops: where the order is that of the
primary key or of a UNIQUE index on one column, `btGetXthIter` takes care of it. -/
def meets : Option (List Meet × Int) :=
  match cs.wf with
  | .pkRange low high =>
      if q.xth then
        some ((btXthRange (Store.key t.store.kind low) high w.ofst.toNat t.store.ents).map fun e =>
          .row ⟨e.1, e.2⟩, w.ofst)
      else (met t uv cs).map (·, w.ofst)
  | .fkRange imatch low high =>
      match t.inds[imatch]? with
      | some ⟨.uniq _ _, .leaf l⟩ =>
          if q.xth then
            ((btXthRange (createBTKey l.kind (some low)) high w.ofst.toNat l.ents).mapM
              (uniqMeet l)).map (·, -1)
          else (met t uv cs).map (·, w.ofst)
      | _ => (met t uv cs).map (·, w.ofst)
  | _ => (met t uv cs).map (·, w.ofst)

/-- The lookup is not that of one key (`FK_RQ`). -/
def fkRq : Lookup → Bool
  | .fk _ _ => false
  | _ => true

/-- The direction of no loop is descending. -/
def Qr.asc (q : Qr) : Bool := !q.pkDesc && !q.fkDesc && !q.inrDesc

/-- `Op`: the rows that are taken, in the order of the scan. -/
def scanRows : Option (List Row) :=
  if q.asc then
    (meets t q w uv cs).bind fun m =>
      (loop (callback t tmatch given cs.flist q w (fkRq cs.wf)) m.1 ⟨0, -1, m.2, false, []⟩).map Run.rows
  else none

end Scan

/-! ## The commands -/

section Commands

variable {L : Type} (qsort : (Obsl → Obsl → Int) → List Obsl → List Obsl) (malloc : Nat → Nat → Nat)
  (t : Tab) (tmatch : Nat) (given : Row → Flist.Given L) (uv : Aobj) (cs : Cswc L) (w : Wob)

/-- `addRow2OBList` of each row, and `sortOB2Vector`. -/
def sorted (rows : List Row) : List Row :=
  (Sorting.sortOB2Vector qsort w.obc (Sorting.obList malloc w.obc rows)).map Obsl.row

/-- The loop of `opSelectSort` and of `opUpdateSort`. -/
def opSort {ε : Type} (lim : Int) : List ε → Int → Nat → List ε
  | [], _, _ => []
  | o :: v, ofst, sent =>
      if lim ≠ -1 ∧ (sent : Int) = lim then []
      else if ofst > 0 then opSort lim v (ofst - 1) sent
      else o :: opSort lim v ofst (sent + 1)

/-- The loop of `opDeleteSort`, on the vector from its end on. -/
def opDeleteSort (lim : Int) : List Aobj → Int → Nat → Tab → Option (Nat × Tab)
  | [], _, sent, t => some (sent, t)
  | pk :: v, ofst, sent, t =>
      if lim ≠ -1 ∧ (sent : Int) = lim then some (sent, t)
      else if ofst > 0 then opDeleteSort lim v (ofst - 1) sent t
      else
        match deleteRow t pk with
        | none => none
        | some (ok, t) => opDeleteSort lim v ofst (if ok then sent + 1 else sent) t

/-- The loop of `ideleteAction`. -/
def deleteList : List Aobj → Nat → Tab → Option (Nat × Tab)
  | [], sent, t => some (sent, t)
  | pk :: v, sent, t =>
      match deleteRow t pk with
      | none => none
      | some (ok, t) => deleteList v (if ok then sent + 1 else sent) t

/-- The plan and the rows of a range query. -/
def planned : Option (Qr × List Row) :=
  (setQueued t cs.wf w cs.flist.isSome).bind fun q =>
    (scanRows t tmatch given q w uv cs).map (q, ·)

/-- `sqlSelectBinary` and `iselectAction`, without COUNT: the rows of the reply. -/
def select : Option (List Row) :=
  match cs.wf with
  | .single akey =>
      match t.store.find akey with
      | none => some []
      | some cols =>
          (passes tmatch given cs.flist (some ⟨akey, cols⟩)).map fun ok =>
            if ok then [⟨akey, cols⟩] else []
  | _ =>
      (planned t tmatch given uv cs w).map fun p =>
        if p.1.qed then opSort w.lim (sorted qsort malloc w p.2) w.ofst 0 else p.2

/-- `deleteInnards` and `ideleteAction`: the number of the reply, and the table.  The list of a query
that is not sorted is built from its end on. -/
def delete : Option (Nat × Tab) :=
  match cs.wf with
  | .single akey => (deleteRow t akey).map fun r => (if r.1 then 1 else 0, r.2)
  | _ =>
      (planned t tmatch given uv cs w).bind fun p =>
        if p.1.qed then
          opDeleteSort w.lim ((sorted qsort malloc w p.2).map Row.pk).reverse w.ofst 0 t
        else deleteList (p.2.map Row.pk).reverse 0 t

/-- The rows that `iupdateAction` goes through, and those of `updateInnards`. -/
def updated : Option (List Aobj) :=
  match cs.wf with
  | .single akey => some (if (t.store.find akey).isSome then [akey] else [])
  | _ =>
      (planned t tmatch given uv cs w).map fun p =>
        if p.1.qed then (opSort w.lim (sorted qsort malloc w p.2) w.ofst 0).map Row.pk
        else p.2.map Row.pk

end Commands

end AlchemyDB.Query.Slice
