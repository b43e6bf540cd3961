/-
# Cursors

`OFFSET var` names a redis variable.  It is the OFFSET of the request, and the request leaves the OFFSET
of the next one in it, or takes it away when it has output fewer rows than the LIMIT says.  So the same
SELECT goes through the rows in portions, if its OFFSET counts rows.
-/
import AlchemyDB.Query.Cut

namespace AlchemyDB.Query.Slice

open Assoc Index Table Select
open Sorting (Ocol Obsl)

/-! ## The variable -/

/-- What a redis key holds: a string that is a number, or anything else. -/
inductive Robj where
  | number (value : Int)
  | other

/-- The redis keys. -/
abbrev Db := String → Option Robj

def Db.dbDelete (db : Db) (key : String) : Db := Function.update db key none

def Db.setKey (db : Db) (key : String) (val : Robj) : Db := Function.update db key (some val)

/-- `setOffsetReply` for a variable: there is no OFFSET as long as it is not there. -/
def setOffsetReply (db : Db) (ovar : String) : Option Int :=
  match db ovar with
  | none => some (-1)
  | some (.number value) => some value
  | some .other => none

/-- `incrOffsetVar`. -/
def incrOffsetVar (w : Wob) (ovar : String) (incr : Int) (db : Db) : Db :=
  if w.lim > incr then db.dbDelete ovar
  else db.setKey ovar (.number (if w.ofst = -1 then incr else w.ofst + incr))

section Requests

variable {L : Type} (qsort : (Obsl → Obsl → Int) → List Obsl → List Obsl) (malloc : Nat → Nat → Nat)
  (t : Tab) (tmatch : Nat) (given : Row → Flist.Given L) (uv : Aobj) (cs : Cswc L) (obc : List Ocol)
  (lim : Int) (ovar : String)

/-- `iselectAction` with `OFFSET var`: the rows of the reply, and the redis keys.  Without a LIMIT a
sorted query counts all rows, also those that it does not output. -/
def iselectAction (db : Db) : Option (List Row × Db) :=
  (setOffsetReply db ovar).bind fun ofst =>
    (planned t tmatch given uv cs ⟨obc, lim, ofst⟩).map fun p =>
      let rows := if p.1.qed then opSort lim (sorted qsort malloc ⟨obc, lim, ofst⟩ p.2) ofst 0 else p.2
      let card := if lim ≠ -1 ∧ rows.length < p.2.length then rows.length else p.2.length
      (rows, incrOffsetVar ⟨obc, lim, ofst⟩ ovar card db)

/-- The same request, so many times. -/
def requests : Nat → Db → Option (List (List Row) × Db)
  | 0, db => some ([], db)
  | k + 1, db =>
      (iselectAction qsort malloc t tmatch given uv cs obc lim ovar db).bind fun r =>
        (requests k r.2).map fun s => (r.1 :: s.1, s.2)

/-- Some requests output all the rows, each of them once and in their order, and then the redis keys
are what they were. -/
def ReadOut (db : Db) : Prop :=
  ∃ rows k pages, select qsort malloc t tmatch given uv cs ⟨obc, -1, -1⟩ = some rows ∧
    requests qsort malloc t tmatch given uv cs obc lim ovar (k + 1) db = some (pages, db) ∧
    pages.flatten = rows

end Requests

/-! ## Runs of requests -/

section Runs

variable {L : Type} {qsort : (Obsl → Obsl → Int) → List Obsl → List Obsl} {malloc : Nat → Nat → Nat}
  {t : Tab} {tmatch : Nat} {given : Row → Flist.Given L} {uv : Aobj} {cs : Cswc L} {obc : List Ocol}
  {lim : Int} {ovar : String} {db : Db} {F : List Row} {n : Nat} {c : Int → Nat}

theorem setOffsetReply_absent (hdb : db ovar = none) : setOffsetReply db ovar = some (-1) := by
  unfold setOffsetReply
  rw [hdb]

@[simp] theorem setOffsetReply_setKey (db : Db) (value : Int) :
    setOffsetReply (db.setKey ovar (.number value)) ovar = some value := by
  unfold setOffsetReply Db.setKey
  rw [Function.update_self]

@[simp] theorem dbDelete_setKey (val : Robj) : (db.setKey ovar val).dbDelete ovar = db.dbDelete ovar :=
  Function.update_idem _ _ _

/-- The rows of the reply are those of `SELECT` at the OFFSET that the variable holds. -/
theorem iselectAction_select (hne : ∀ akey, cs.wf ≠ .single akey) (db : Db) :
    (iselectAction qsort malloc t tmatch given uv cs obc lim ovar db).map Prod.fst =
      (setOffsetReply db ovar).bind fun o =>
        select qsort malloc t tmatch given uv cs ⟨obc, lim, o⟩ := by
  unfold iselectAction
  cases setOffsetReply db ovar with
  | none => rfl
  | some o =>
      simp only [Option.bind_some, Option.map_map]
      cases hp : planned t tmatch given uv cs ⟨obc, lim, o⟩ with
      | none =>
          unfold select
          split
          · exact absurd ‹_› (hne _)
          · rw [hp]
            rfl
      | some p => exact (commands_planned qsort malloc hne hp).1.symm

/-- A request at `o` outputs this page, and counts it. -/
def Answers (qsort : (Obsl → Obsl → Int) → List Obsl → List Obsl) (malloc : Nat → Nat → Nat)
    (t : Tab) (tmatch : Nat) (given : Row → Flist.Given L) (uv : Aobj) (cs : Cswc L) (obc : List Ocol)
    (lim : Int) (ovar : String) (o : Int) (page : List Row) : Prop :=
  ∀ db, setOffsetReply db ovar = some o →
    iselectAction qsort malloc t tmatch given uv cs obc lim ovar db =
      some (page, incrOffsetVar ⟨obc, lim, o⟩ ovar page.length db)

theorem requests_succ {o : Int} {page : List Row} (k : Nat)
    (h : Answers qsort malloc t tmatch given uv cs obc lim ovar o page)
    (ho : setOffsetReply db ovar = some o) :
    requests qsort malloc t tmatch given uv cs obc lim ovar (k + 1) db =
      (requests qsort malloc t tmatch given uv cs obc lim ovar k
        (incrOffsetVar ⟨obc, lim, o⟩ ovar page.length db)).map fun s => (page :: s.1, s.2) := by
  rw [requests, h db ho, Option.bind_some]

/-- A page that is not full is the last one. -/
theorem incrOffsetVar_last {o : Int} {page : List Row} (h : (page.length : Int) < lim) :
    incrOffsetVar ⟨obc, lim, o⟩ ovar page.length db = db.dbDelete ovar :=
  if_pos h

/-- Behind a full page the variable is the number of the rows so far. -/
theorem incrOffsetVar_full {o : Int} {page : List Row} (h : (page.length : Int) = lim) (ho : -1 ≤ o) :
    incrOffsetVar ⟨obc, lim, o⟩ ovar page.length db =
      db.setKey ovar (.number (o.toNat + page.length)) := by
  unfold incrOffsetVar
  rw [if_neg (by simp only; omega)]
  congr 2
  simp only
  split <;> omega

/-- Where the pages begin where they should, those from one on are all the rows from there on. -/
theorem requests_exact (hlim : lim = n) (hn : 1 ≤ n)
    (h : ∀ o, -1 ≤ o → Answers qsort malloc t tmatch given uv cs obc lim ovar o
      ((F.drop (c o)).take n))
    (hc : ∀ (k : Nat) (o : Int), -1 ≤ o → o.toNat = k * n → k * n ≤ F.length → c o = k * n) :
    ∀ (r k : Nat) {o : Int} {db : Db}, -1 ≤ o → o.toNat = k * n → k * n ≤ F.length →
      setOffsetReply db ovar = some o → (F.length - k * n) / n = r →
      ∃ pages, requests qsort malloc t tmatch given uv cs obc lim ovar (r + 1) db =
        some (pages, db.dbDelete ovar) ∧ pages.flatten = F.drop (k * n)
  | 0, k, o, db, ho, hok, hk, hdb, hr => by
      have hlen : F.length - k * n < n := (Nat.div_eq_zero_iff.mp hr).resolve_left (by omega)
      have hans := h o ho
      rw [hc k o ho hok hk, List.take_of_length_le (by rw [List.length_drop]; omega)] at hans
      rw [requests_succ 0 hans hdb, incrOffsetVar_last (by rw [List.length_drop]; omega)]
      exact ⟨[F.drop (k * n)], rfl, by simp⟩
  | r + 1, k, o, db, ho, hok, hk, hdb, hr => by
      have hlen : n ≤ F.length - k * n := by
        by_contra hlt
        rw [Nat.div_eq_of_lt (by omega)] at hr
        cases hr
      have hans := h o ho
      rw [hc k o ho hok hk] at hans
      have hpage : ((F.drop (k * n)).take n).length = n := by
        rw [List.length_take, List.length_drop]
        omega
      have hsucc : (k + 1) * n = k * n + n := Nat.succ_mul k n
      rw [Nat.div_eq_sub_div (by omega) hlen, Nat.sub_sub, ← hsucc] at hr
      obtain ⟨pages, hreq, hflat⟩ := requests_exact hlim hn h hc r (k + 1) (o := o.toNat + n)
        (by omega) (by omega) (by omega) (setOffsetReply_setKey db _) (by omega)
      rw [requests_succ (r + 1) hans hdb, incrOffsetVar_full (by rw [hpage, hlim]) ho, hpage, hreq]
      refine ⟨_, by rw [Option.map_some, dbDelete_setKey], ?_⟩
      rw [List.flatten_cons, hflat, hsucc, ← List.drop_drop, List.take_append_drop]

/-- The pages from one on are all the rows from there on only if they begin where they should: the
first row of a page tells where it begins. -/
theorem requests_begin (hlim : lim = n) (hn : 1 ≤ n) (hnd : F.Nodup)
    (h : ∀ o, -1 ≤ o → Answers qsort malloc t tmatch given uv cs obc lim ovar o
      ((F.drop (c o)).take n)) (hle : ∀ o, c o ≤ o.toNat) :
    ∀ (r k : Nat) {o : Int} {db db' : Db} {pages : List (List Row)}, -1 ≤ o → o.toNat = k * n →
      k * n ≤ F.length → setOffsetReply db ovar = some o →
      requests qsort malloc t tmatch given uv cs obc lim ovar r db = some (pages, db') →
      db' ovar = none → pages.flatten = F.drop (k * n) →
      ∀ j, k ≤ j → j * n ≤ F.length → c (j * n : Nat) = j * n
  | 0, k, o, db, db', pages, ho, hok, hk, hdb, hreq, hnone, hflat, j, hj, hjF => by
      cases hreq
      have hlen := congrArg List.length hflat
      rw [List.flatten_nil, List.length_nil, List.length_drop] at hlen
      -- the variable is not there, so that nothing has been read
      have hfirst : o = -1 := Option.some.inj (hdb.symm.trans (setOffsetReply_absent hnone))
      have hj := hle (j * n : Nat)
      omega
  | r + 1, k, o, db, db', pages, ho, hok, hk, hdb, hreq, hnone, hflat, j, hj, hjF => by
      have hleo := hle o
      rw [requests_succ r (h o ho) hdb] at hreq
      obtain ⟨s, hs, heq⟩ := Option.map_eq_some_iff.mp hreq
      cases heq
      rw [List.flatten_cons] at hflat
      have hsucc : (k + 1) * n = k * n + n := Nat.succ_mul k n
      have hat : c o = k * n → c (k * n : Nat) = k * n := by
        intro hco
        rcases (by omega : o = (k * n : Nat) ∨ k * n = 0) with ho' | h0
        · rw [← ho', hco]
        · have hz := hle (k * n : Nat)
          omega
      by_cases hfull : n ≤ F.length - c o
      · have hpage : ((F.drop (c o)).take n).length = n := by
          rw [List.length_take, List.length_drop]
          omega
        have hco : c o = k * n := by
          have hhead := congrArg (fun l => l[0]?) hflat
          rw [List.getElem?_append_left (by omega), List.getElem?_take_of_lt hn, List.getElem?_drop,
            List.getElem?_drop, Nat.add_zero, Nat.add_zero] at hhead
          exact (List.getElem?_inj (by omega) hnd).mp hhead
        rcases Nat.eq_or_lt_of_le hj with rfl | hlt
        · exact hat hco
        · have hrest : s.1.flatten = F.drop ((k + 1) * n) := by
            rw [hco] at hflat
            rw [hsucc, ← List.drop_drop]
            exact List.append_cancel_left (hflat.trans (List.take_append_drop n _).symm)
          rw [incrOffsetVar_full (by rw [hpage, hlim]) ho, hpage] at hs
          exact requests_begin hlim hn hnd h hle r (k + 1) (o := o.toNat + n) (by omega) (by omega)
            (by omega) (setOffsetReply_setKey db _) hs hnone hrest j hlt hjF
      · have hlen := congrArg List.length hflat
        rw [List.length_append, List.length_take, List.length_drop, List.length_drop] at hlen
        rcases Nat.eq_or_lt_of_le hj with rfl | hlt
        · exact hat (by omega)
        · have hmul : (k + 1) * n ≤ j * n := Nat.mul_le_mul_right n hlt
          omega

end Runs

/-! ## Queries at every OFFSET -/

section Ranges

variable {L : Type} {qsort : (Obsl → Obsl → Int) → List Obsl → List Obsl} {malloc : Nat → Nat → Nat}
  {t : Tab} {tmatch : Nat} {given : Row → Flist.Given L} {uv : Aobj} {cs : Cswc L} {obc : List Ocol}
  {lim : Int} {ovar : String} {db : Db} {q : Qr} {ms : List Meet} {o : Int}

/-- A range or one key of an index, in ascending direction, with a LIMIT, and its plan at each OFFSET;
the filters do not fail on what is read. -/
structure Ranges (t : Tab) (tmatch : Nat) (given : Row → Flist.Given L) (uv : Aobj) (cs : Cswc L)
    (obc : List Ocol) (lim : Int) (q : Int → Qr) (ms : List Meet) : Prop where
  ranged : Ranged cs.wf = true
  plan : ∀ o, setQueued t cs.wf ⟨obc, lim, o⟩ cs.flist.isSome = some (q o)
  asc : (q (-1)).asc = true
  lim : 1 ≤ lim
  met : met t uv cs = some ms
  leads : ∀ m ∈ ms, Leads t m
  filters : ∀ r ∈ ms.flatMap (reads t), (passes tmatch given cs.flist (some r)).isSome = true

/-- Whether a query is sorted, and where it goes, does not hang on LIMIT and OFFSET. -/
theorem setQueued_same {wf : Lookup} {fl : Bool} {ofst : Int} (lim' ofst' : Int)
    (h : setQueued t wf ⟨obc, lim, ofst⟩ fl = some q) :
    ∃ q', setQueued t wf ⟨obc, lim', ofst'⟩ fl = some q' ∧ q'.qed = q.qed ∧ q'.asc = q.asc := by
  cases wf with
  | single akey => cases h
  | pkRange low high =>
      cases h
      exact ⟨_, rfl, rfl, rfl⟩
  | pkIn inl =>
      cases h
      exact ⟨_, rfl, rfl, rfl⟩
  | fk imatch akey =>
      obtain ⟨x, hx, rfl⟩ := Option.map_eq_some_iff.mp h
      exact ⟨_, Option.map_eq_some_iff.mpr ⟨x, hx, rfl⟩, rfl, rfl⟩
  | fkRange imatch low high =>
      obtain ⟨x, hx, rfl⟩ := Option.map_eq_some_iff.mp h
      exact ⟨_, Option.map_eq_some_iff.mpr ⟨x, hx, rfl⟩, rfl, rfl⟩
  | fkIn imatch inl =>
      obtain ⟨x, hx, rfl⟩ := Option.map_eq_some_iff.mp h
      exact ⟨_, Option.map_eq_some_iff.mpr ⟨x, hx, rfl⟩, rfl, rfl⟩

theorem setQueued_unlimited {wf : Lookup} {fl : Bool} (hwf : Ranged wf = true)
    (h : setQueued t wf ⟨obc, -1, o⟩ fl = some q) : q.Free :=
  setQueued_ranged hwf h (fun _ => pkQueued_free (Bool.and_false _))
    fun _ _ _ => fkQueued_free (Bool.and_false _)

/-- With filters there is no jump. -/
theorem setQueued_filtered {wf : Lookup} {w : Wob} (hwf : Ranged wf = true)
    (h : setQueued t wf w true = some q) : q.xth = false := by
  have hand : ∀ a b : Bool, (a && b && !(true && b)) = false := by decide
  exact setQueued_ranged (P := fun q => q.xth = false) hwf h (fun _ => hand _ _)
    fun _ _ _ => hand _ _

namespace Ranges

variable {q : Int → Qr} (h : Ranges t tmatch given uv cs obc lim q ms)

include h

/-- What is output without LIMIT and OFFSET, before it is sorted. -/
theorem selectRows : Select.selectRows t tmatch given uv cs =
    some ((ms.flatMap (reads t)).filter (admits tmatch given cs.flist)) :=
  selectRows_reads (ranged_not_single h.ranged) h.met h.leads h.filters

/-- Where nothing is counted off, the plan finds all rows that pass. -/
theorem planned_free {q' : Qr} {w : Wob} (hset : setQueued t cs.wf w cs.flist.isSome = some q')
    (hfree : q'.Free) (ha : q'.asc = true) : planned t tmatch given uv cs w =
      some (q', (ms.flatMap (reads t)).filter (admits tmatch given cs.flist)) := by
  unfold planned
  rw [hset, Option.bind_some, scanRows_free hfree ha (ranged_not_single h.ranged), h.selectRows,
    Option.map_some]

variable (qsort malloc) in
theorem select_all : select qsort malloc t tmatch given uv cs ⟨obc, -1, -1⟩ =
    some (if (q (-1)).qed then sorted qsort malloc ⟨obc, -1, -1⟩
        ((ms.flatMap (reads t)).filter (admits tmatch given cs.flist))
      else (ms.flatMap (reads t)).filter (admits tmatch given cs.flist)) := by
  obtain ⟨q', hset, hqed, hasc⟩ := setQueued_same (-1) (-1) (h.plan (-1))
  have hp := h.planned_free hset (setQueued_unlimited h.ranged hset) (hasc.trans h.asc)
  rw [(commands_planned qsort malloc (ranged_not_single h.ranged) hp).1, hqed, opSort_eq]
  rfl

end Ranges

theorem answers_planned {q' : Qr} {rows : List Row} (hq : ∀ cmp l, (qsort cmp l).Perm l)
    (hlim : 1 ≤ lim) (hp : planned t tmatch given uv cs ⟨obc, lim, o⟩ = some (q', rows)) :
    Answers qsort malloc t tmatch given uv cs obc lim ovar o
      (if q'.qed then slice lim o (sorted qsort malloc ⟨obc, -1, -1⟩ rows) else rows) := by
  intro db ho
  have hsorted : sorted qsort malloc ⟨obc, lim, o⟩ rows = sorted qsort malloc ⟨obc, -1, -1⟩ rows := rfl
  have hle : (if q'.qed then slice lim o (sorted qsort malloc ⟨obc, -1, -1⟩ rows) else rows).length ≤
      rows.length := by
    split
    · have hperm : (sorted qsort malloc ⟨obc, -1, -1⟩ rows).Perm rows := sorted_perm hq rows
      rw [← hperm.length_eq]
      exact slice_sublist.length_le
    · exact le_refl _
  unfold iselectAction
  rw [ho, Option.bind_some, hp, Option.map_some]
  simp only [opSort_eq, hsorted]
  generalize (if q'.qed then slice lim o (sorted qsort malloc ⟨obc, -1, -1⟩ rows) else rows) = page
    at hle
  have hcard : (if lim ≠ -1 ∧ page.length < rows.length then (page.length : Int) else rows.length) =
      page.length := by
    split <;> omega
  rw [hcard]

namespace Ranges

variable {q : Int → Qr} (h : Ranges t tmatch given uv cs obc lim q ms)

include h

theorem plan_same (o : Int) : (q o).qed = (q (-1)).qed ∧ (q o).asc = true := by
  obtain ⟨q', hset, hqed, hasc⟩ := setQueued_same lim o (h.plan (-1))
  obtain rfl := Option.some.inj ((h.plan o).symm.trans hset)
  exact ⟨hqed, hasc.trans h.asc⟩

/-- The pages of a query that is sorted. -/
theorem answers_sorted (hq : ∀ cmp l, (qsort cmp l).Perm l) (hqed : (q (-1)).qed = true) (o : Int) :
    Answers qsort malloc t tmatch given uv cs obc lim ovar o
      (((sorted qsort malloc ⟨obc, -1, -1⟩
        ((ms.flatMap (reads t)).filter (admits tmatch given cs.flist))).drop o.toNat).take
          lim.toNat) := by
  obtain ⟨hqed', hasc⟩ := h.plan_same o
  rw [hqed] at hqed'
  have hlim := h.lim
  have hans : Answers qsort malloc t tmatch given uv cs obc lim ovar o _ := answers_planned hq hlim
    (h.planned_free (h.plan o) (setQueued_free (h.plan o) hqed') hasc)
  rw [if_pos hqed', slice, if_neg (by omega)] at hans
  exact hans

/-- A query that is not sorted, at an OFFSET. -/
theorem unsorted (hqed : (q (-1)).qed = false) (ho : -1 ≤ o) :
    Unsorted t tmatch given uv cs ⟨obc, lim, o⟩ (q o) ms :=
  ⟨h.ranged, h.plan o, (h.plan_same o).1.trans hqed, (h.plan_same o).2, h.lim, ho, h.met, h.leads,
    h.filters⟩

end Ranges

/-- The pages of a query that is not sorted. -/
theorem Unsorted.answers (ht : Clean t) (hq : ∀ cmp l, (qsort cmp l).Perm l)
    (h : Unsorted t tmatch given uv cs ⟨obc, lim, o⟩ q ms) :
    Answers qsort malloc t tmatch given uv cs obc lim ovar o
      (taken (admits tmatch given cs.flist) lim.toNat (stepped q ⟨obc, lim, o⟩ cs.wf ms)
        (ms.flatMap (reads t))) := by
  have hscan := scanRows_taken ht h.ranged h.plan h.qed h.asc h.lim h.met h.leads h.filters
  have hp : planned t tmatch given uv cs ⟨obc, lim, o⟩ =
      some (q, taken (admits tmatch given cs.flist) lim.toNat (stepped q ⟨obc, lim, o⟩ cs.wf ms)
        (ms.flatMap (reads t))) := by
    unfold planned
    rw [h.plan, Option.bind_some, hscan]
    rfl
  have hans : Answers qsort malloc t tmatch given uv cs obc lim ovar o _ :=
    answers_planned hq h.lim hp
  rw [h.qed] at hans
  exact hans

end Ranges

/-! ## The cursor -/

section Cursor

variable {L : Type} {qsort : (Obsl → Obsl → Int) → List Obsl → List Obsl} {malloc : Nat → Nat → Nat}
  {t : Tab} {tmatch : Nat} {given : Row → Flist.Given L} {uv : Aobj} {cs : Cswc L} {obc : List Ocol}
  {n : Nat} {ovar : String} {db : Db} {q : Int → Qr} {ms : List Meet}

/-- The number of rows that pass among those that an OFFSET steps over. -/
def passed (t : Tab) (tmatch : Nat) (given : Row → Flist.Given L) (cs : Cswc L) (obc : List Ocol)
    (lim : Int) (q : Int → Qr) (ms : List Meet) (o : Int) : Nat :=
  ((ms.flatMap (reads t)).take (stepped (q o) ⟨obc, lim, o⟩ cs.wf ms)).countP
    (admits tmatch given cs.flist)

theorem passed_le (o : Int) : passed t tmatch given cs obc n q ms o ≤ o.toNat := by
  refine List.countP_le_length.trans ?_
  rw [List.length_take]
  exact (Nat.min_le_left _ _).trans stepped_le

/-- As long as the variable is not there, the cursor is at its beginning. -/
theorem readOut_exact {rows : List Row} {c : Int → Nat} (hn : 1 ≤ n) (hdb : db ovar = none)
    (hsel : select qsort malloc t tmatch given uv cs ⟨obc, -1, -1⟩ = some rows)
    (h : ∀ o, -1 ≤ o → Answers qsort malloc t tmatch given uv cs obc n ovar o
      ((rows.drop (c o)).take n))
    (hc : ∀ (k : Nat) (o : Int), -1 ≤ o → o.toNat = k * n → k * n ≤ rows.length → c o = k * n) :
    ReadOut qsort malloc t tmatch given uv cs obc n ovar db := by
  obtain ⟨pages, hreq, hflat⟩ := requests_exact rfl hn h hc _ 0 (le_refl _)
    (by rw [Nat.zero_mul]; rfl) (by omega) (setOffsetReply_absent hdb) rfl
  have hback : db.dbDelete ovar = db := Function.update_eq_self_iff.mpr hdb.symm
  rw [hback] at hreq
  rw [Nat.zero_mul, List.drop_zero] at hflat
  exact ⟨rows, _, pages, hsel, hreq, hflat⟩

namespace Ranges

variable (h : Ranges t tmatch given uv cs obc n q ms)

include h

theorem one_le : 1 ≤ n := by
  have hlim := h.lim
  omega

theorem readOut_sorted (hq : ∀ cmp l, (qsort cmp l).Perm l) (hqed : (q (-1)).qed = true)
    (hdb : db ovar = none) : ReadOut qsort malloc t tmatch given uv cs obc n ovar db := by
  have hsel := h.select_all qsort malloc
  rw [hqed, if_pos rfl] at hsel
  exact readOut_exact (c := Int.toNat) h.one_le hdb hsel (fun o _ => h.answers_sorted hq hqed o)
    fun k o _ hok _ => hok

variable (ht : Clean t) (hq : ∀ cmp l, (qsort cmp l).Perm l) (hqed : (q (-1)).qed = false)

include ht hq hqed

theorem answers_unsorted {o : Int} (ho : -1 ≤ o) :
    Answers qsort malloc t tmatch given uv cs obc n ovar o
      ((((ms.flatMap (reads t)).filter (admits tmatch given cs.flist)).drop
        (passed t tmatch given cs obc n q ms o)).take n) := by
  have hans : Answers qsort malloc t tmatch given uv cs obc n ovar o _ :=
    (h.unsorted hqed ho).answers ht hq
  rw [taken_eq] at hans
  exact hans

theorem readOut_unsorted (hdb : db ovar = none)
    (hc : ∀ (k : Nat) (o : Int), -1 ≤ o → o.toNat = k * n →
      k * n ≤ ((ms.flatMap (reads t)).filter (admits tmatch given cs.flist)).length →
      passed t tmatch given cs obc n q ms o = k * n) :
    ReadOut qsort malloc t tmatch given uv cs obc n ovar db := by
  have hsel := h.select_all qsort malloc
  rw [hqed] at hsel
  exact readOut_exact h.one_le hdb hsel (fun o ho => h.answers_unsorted ht hq hqed ho) hc

/-- Rows that are distinct are read out if and only if each page begins where it should. -/
theorem readOut_iff (hnd : (ms.flatMap (reads t)).Nodup) (hdb : db ovar = none) :
    ReadOut qsort malloc t tmatch given uv cs obc n ovar db ↔
      ∀ k : Nat, k * n ≤ (ms.flatMap (reads t)).countP (admits tmatch given cs.flist) →
        passed t tmatch given cs obc n q ms (k * n : Nat) = k * n := by
  rw [List.countP_eq_length_filter]
  constructor
  · rintro ⟨rows, r, pages, hrows, hreq, hflat⟩ k hk
    have hsel := h.select_all qsort malloc
    rw [hqed] at hsel
    obtain rfl := Option.some.inj (hrows.symm.trans hsel)
    exact requests_begin rfl h.one_le (hnd.filter _) (fun o ho => h.answers_unsorted ht hq hqed ho)
      passed_le (r + 1) 0 (le_refl _) (by rw [Nat.zero_mul]; rfl) (by omega)
      (setOffsetReply_absent hdb) hreq hdb (by rw [hflat, Nat.zero_mul]; rfl) k (Nat.zero_le _) hk
  · intro hc
    refine h.readOut_unsorted ht hq hqed hdb fun k o ho hok hk => ?_
    rcases (by omega : o = (k * n : Nat) ∨ k * n = 0) with rfl | h0
    · exact hc k hk
    · have hle : passed t tmatch given cs obc n q ms o ≤ o.toNat := passed_le o
      omega

end Ranges

/-- The rows of a range on the primary key are distinct. -/
theorem reads_pk_nodup (ht : Clean t) (hwf : Ranged cs.wf = true) (hpk : onPk cs.wf = true)
    (hm : met t uv cs = some ms) : (ms.flatMap (reads t)).Nodup := by
  obtain ⟨low, high, hw⟩ := pkRange_of hwf hpk
  obtain rfl := Option.some.inj (hm.symm.trans (met_pkRange hw))
  have hreads : ∀ es : List (Aobj × Cols),
      (es.map fun e => Meet.row ⟨e.1, e.2⟩).flatMap (reads t) = es.map fun e => ⟨e.1, e.2⟩ := by
    intro es
    rw [List.flatMap_map, List.map_eq_flatMap]
    rfl
  rw [hreads]
  refine List.Nodup.map (fun a b hab => ?_) ?_
  · obtain ⟨hkey, hcols⟩ := Row.mk.inj hab
    exact Prod.ext hkey hcols
  · refine ((ht.sorted.imp fun {a b} hab heq => ?_).sublist ?_)
    · rw [heq] at hab
      exact Aobj.lt_irrefl _ hab
    · unfold btRange
      split
      · exact List.nil_sublist _
      · exact (scan_begins _ _).sublist.trans (List.dropWhile_sublist _)

/-- Without filters each page begins where it should. -/
theorem Ranges.readOut_unfiltered (ht : Clean t) (hq : ∀ cmp l, (qsort cmp l).Perm l)
    (h : Ranges t tmatch given uv cs obc n q ms) (hf : cs.flist = none)
    (hone : fkRq cs.wf = false → ms.length ≤ 1) (hqed : (q (-1)).qed = false) (hdb : db ovar = none) :
    ReadOut qsort malloc t tmatch given uv cs obc n ovar db := by
  refine h.readOut_unsorted ht hq hqed hdb fun k o ho hok hk => ?_
  rw [filter_unfiltered hf] at hk
  refine ((h.unsorted hqed ho).passed_all hf hone).trans ?_
  rw [hok]
  exact Nat.min_eq_left hk

end Cursor

theorem uniqTab_ranges (flist : Option (List (Flist.Filter Nat)))
    (h : ∀ r ∈ uniqTab.live, (passes 0 ofInts flist (some r)).isSome = true) :
    Ranges uniqTab 0 ofInts (.int 0) (second flist) [] (1 : Nat)
      (fun o => pkQueued ⟨[], (1 : Nat), o⟩ flist.isSome) (uniqTab.live.map .row) where
  ranged := rfl
  plan := fun _ => rfl
  asc := rfl
  lim := by decide
  met := rfl
  leads := (uniqTab_unsorted flist h).leads
  filters := h

end AlchemyDB.Query.Slice
