/-
# DELETE and UPDATE against SELECT

The three commands scan alike, and a list that is not sorted is taken as a whole by each of them.  Of a
sorted list SELECT and UPDATE take a slice from the front, DELETE one from the end: as many rows, but the
same ones only if the slice lies in the middle.  One primary key is deleted and updated before any filter.
-/
import AlchemyDB.Query.Count
import AlchemyDB.Query.Slice
import AlchemyDB.Table.Sync

namespace AlchemyDB.Query.Slice

open Assoc Index Table Select
open Sorting (Obsl)

/-! ## Slices -/

section Slices

variable {ε : Type} {lim ofst : Int} {v : List ε} {e : ε}

/-- What LIMIT and OFFSET leave of a list. -/
def slice (lim ofst : Int) (v : List ε) : List ε :=
  if lim < 0 then v.drop ofst.toNat else (v.drop ofst.toNat).take lim.toNat

/-- The number of rows in a slice of `n`. -/
def Wob.shown (w : Wob) (n : Nat) : Nat :=
  if w.lim < 0 then n - w.ofst.toNat else min w.lim.toNat (n - w.ofst.toNat)

theorem length_slice (w : Wob) (v : List ε) : (slice w.lim w.ofst v).length = w.shown v.length := by
  unfold slice Wob.shown
  split
  · exact List.length_drop
  · rw [List.length_take, List.length_drop]

/-- With `sent` rows sent, the loop goes on with what is left of the slice. -/
theorem opSort_sent : ∀ (v : List ε) {ofst : Int} {sent : Nat}, 0 ≤ lim → (sent : Int) ≤ lim →
    opSort lim v ofst sent = (v.drop ofst.toNat).take (lim.toNat - sent)
  | [], ofst, sent, _, _ => by simp [opSort]
  | e :: v, ofst, sent, h0, hs => by
      rw [opSort]
      by_cases hfull : (sent : Int) = lim
      · rw [if_pos ⟨by omega, hfull⟩, show lim.toNat - sent = 0 by omega, List.take_zero]
      · rw [if_neg fun h => hfull h.2]
        by_cases ho : ofst > 0
        · rw [if_pos ho, opSort_sent v h0 hs, show ofst.toNat = (ofst - 1).toNat + 1 by omega,
            List.drop_succ_cons]
        · rw [if_neg ho, opSort_sent v h0 (by omega), show ofst.toNat = 0 by omega, List.drop_zero,
            List.drop_zero, show lim.toNat - sent = (lim.toNat - (sent + 1)) + 1 by omega,
            List.take_succ_cons]

theorem opSort_unlimited : ∀ (v : List ε) {ofst : Int} {sent : Nat}, lim < 0 →
    opSort lim v ofst sent = v.drop ofst.toNat
  | [], ofst, sent, _ => by simp [opSort]
  | e :: v, ofst, sent, h0 => by
      rw [opSort, if_neg (by omega)]
      by_cases ho : ofst > 0
      · rw [if_pos ho, opSort_unlimited v h0, show ofst.toNat = (ofst - 1).toNat + 1 by omega,
          List.drop_succ_cons]
      · rw [if_neg ho, opSort_unlimited v h0, show ofst.toNat = 0 by omega, List.drop_zero,
          List.drop_zero]

theorem opSort_eq (v : List ε) : opSort lim v ofst 0 = slice lim ofst v := by
  unfold slice
  split
  · exact opSort_unlimited v ‹_›
  · exact opSort_sent v (by omega) (by omega)

theorem slice_sublist : (slice lim ofst v).Sublist v := by
  unfold slice
  split
  · exact List.drop_sublist _ _
  · exact (List.take_sublist _ _).trans (List.drop_sublist _ _)

/-- The slice, by the places in the list. -/
theorem mem_slice (w : Wob) : e ∈ slice w.lim w.ofst v ↔
    ∃ i, w.ofst.toNat ≤ i ∧ i < w.ofst.toNat + w.shown v.length ∧ v[i]? = some e := by
  rw [List.mem_iff_getElem?]
  have hget : ∀ j, (slice w.lim w.ofst v)[j]? =
      if j < w.shown v.length then v[w.ofst.toNat + j]? else none := by
    intro j
    by_cases hj : j < w.shown v.length
    · rw [if_pos hj]
      unfold Wob.shown at hj
      unfold slice
      split
      · exact List.getElem?_drop
      · rw [if_neg ‹_›] at hj
        rw [List.getElem?_take_of_lt (by omega), List.getElem?_drop]
    · rw [if_neg hj, List.getElem?_eq_none]
      rw [length_slice]
      exact Nat.le_of_not_lt hj
  constructor
  · rintro ⟨j, hj⟩
    rw [hget] at hj
    split at hj
    · exact ⟨w.ofst.toNat + j, by omega, by omega, hj⟩
    · cases hj
  · rintro ⟨i, hlo, hhi, hi⟩
    refine ⟨i - w.ofst.toNat, ?_⟩
    rw [hget, if_pos (by omega), show w.ofst.toNat + (i - w.ofst.toNat) = i by omega]
    exact hi

/-- The slice from the end holds the same rows if and only if it lies in the middle. -/
theorem slice_reverse_iff (w : Wob) (hnd : v.Nodup) :
    (∀ e, e ∈ slice w.lim w.ofst v.reverse ↔ e ∈ slice w.lim w.ofst v) ↔
      w.shown v.length = 0 ∨ 2 * w.ofst.toNat + w.shown v.length = v.length := by
  have hle : w.shown v.length ≠ 0 → w.ofst.toNat + w.shown v.length ≤ v.length := by
    unfold Wob.shown
    split <;> omega
  have hrev : ∀ e, e ∈ slice w.lim w.ofst v.reverse ↔
      ∃ i, w.ofst.toNat ≤ i ∧ i < w.ofst.toNat + w.shown v.length ∧ v[v.length - 1 - i]? = some e := by
    intro e
    rw [mem_slice, List.length_reverse]
    refine exists_congr fun i => and_congr_right fun _ => and_congr_right fun hi => ?_
    rw [List.getElem?_reverse (by omega)]
  have hinj : ∀ {i j : Nat}, i < v.length → v[i]? = v[j]? → i = j := fun hi h =>
    (List.getElem?_inj hi hnd).mp h
  constructor
  · intro h
    by_contra hne
    rw [not_or] at hne
    have hlen := hle hne.1
    -- the first row of each slice lies in the other one
    obtain ⟨i, hi₁, hi₂, hi⟩ := (hrev _).mp ((h _).mpr ((mem_slice w).mpr
      ⟨w.ofst.toNat, le_refl _, by omega, List.getElem?_eq_getElem (by omega)⟩))
    obtain ⟨j, hj₁, hj₂, hj⟩ := (mem_slice w).mp ((h _).mp ((hrev _).mpr
      ⟨w.ofst.toNat + w.shown v.length - 1, by omega, by omega,
        List.getElem?_eq_getElem (by omega)⟩))
    have hi' := hinj (by omega) (hi.trans (List.getElem?_eq_getElem (by omega)).symm)
    have hj' := hinj (by omega) (hj.trans (List.getElem?_eq_getElem (by omega)).symm)
    omega
  · intro h e
    rw [hrev, mem_slice]
    rcases h with h | h
    · rw [h]
      constructor <;>
      · rintro ⟨i, h1, h2, -⟩
        omega
    · constructor
      · rintro ⟨i, h1, h2, hi⟩
        exact ⟨v.length - 1 - i, by omega, by omega, hi⟩
      · rintro ⟨i, h1, h2, hi⟩
        refine ⟨v.length - 1 - i, by omega, by omega, ?_⟩
        rw [show v.length - 1 - (v.length - 1 - i) = i by omega]
        exact hi

end Slices

/-! ## What is found -/

section Found

variable {L : Type} {t : Tab} {tmatch : Nat} {given : Row → Flist.Given L}
  {flist : Option (List (Flist.Filter L))} {q : Qr} {w : Wob} {uv : Aobj} {cs : Cswc L}

/-- Nothing is counted off in the scan. -/
structure Qr.Free (q : Qr) : Prop where
  pkLim : q.pkLim = false
  fkLim : q.fkLim = false
  fkLo : q.fkLo = false
  xth : q.xth = false

theorem pkQueued_free {fl : Bool} (h : (pkQueued w fl).pkLim = false) : (pkQueued w fl).Free := by
  refine ⟨h, rfl, rfl, ?_⟩
  show ((pkQueued w fl).pkLim && decide (w.ofst ≠ -1) && _) = false
  rw [h]
  rfl

theorem fkQueued_free {k : Kind} {single fl : Bool} (h : (fkQueued k single w fl).fkLim = false) :
    (fkQueued k single w fl).Free := by
  have hlo : (fkQueued k single w fl).fkLo =
      ((fkQueued k single w fl).fkLim && decide (w.ofst ≠ -1)) := rfl
  rw [h] at hlo
  refine ⟨rfl, h, hlo, ?_⟩
  show ((fkQueued k single w fl).fkLo && _) = false
  rw [hlo]
  rfl

theorem pkQueued_qed {fl : Bool} (h : (pkQueued w fl).qed = true) : (pkQueued w fl).Free := by
  have hpk : (pkQueued w fl).pk = true := h
  refine pkQueued_free ?_
  show (!(pkQueued w fl).pk && _) = false
  rw [hpk]
  rfl

theorem fkQueued_qed {k : Kind} {single fl : Bool} (h : (fkQueued k single w fl).qed = true) :
    (fkQueued k single w fl).Free := by
  have hfk : (fkQueued k single w fl).fk = true := h
  refine fkQueued_free ?_
  show (!(fkQueued k single w fl).fk && _) = false
  rw [hfk]
  rfl

/-- A query that is sorted counts nothing off in the scan. -/
theorem setQueued_free {wf : Lookup} {fl : Bool} (h : setQueued t wf w fl = some q)
    (hq : q.qed = true) : q.Free := by
  cases wf with
  | single akey => cases h
  | pkRange low high =>
      obtain rfl := Option.some.inj h
      exact pkQueued_qed hq
  | pkIn inl =>
      obtain rfl := Option.some.inj h
      have hf : (pkQueued w fl).Free := pkQueued_qed hq
      exact ⟨hf.pkLim, hf.fkLim, rfl, hf.xth⟩
  | fk imatch akey =>
      obtain ⟨x, -, rfl⟩ := Option.map_eq_some_iff.mp h
      exact fkQueued_qed hq
  | fkRange imatch low high =>
      obtain ⟨x, -, rfl⟩ := Option.map_eq_some_iff.mp h
      exact fkQueued_qed hq
  | fkIn imatch inl =>
      obtain ⟨x, -, rfl⟩ := Option.map_eq_some_iff.mp h
      have hf : (fkQueued x.kind false w fl).Free := fkQueued_qed hq
      exact ⟨hf.pkLim, hf.fkLim, rfl, hf.xth⟩

/-- What SELECT keeps of a scan. -/
def Run.sel (s : Run) : Sel := ⟨s.card, s.rows⟩

/-- The step does what SELECT does without LIMIT, and does not end the loop. -/
def Goes (o : Option Run) (sel : Option Sel) : Prop :=
  o.map Run.sel = sel ∧ ∀ s, o = some s → s.brkr = false

theorem goes_rowOp {row : Option Row} {s : Run} (hb : s.brkr = false) :
    Goes (rowOp tmatch given flist row s) (selectOp tmatch given flist false row s.sel) := by
  unfold Goes rowOp selectOp
  cases row with
  | none =>
      cases flist with
      | none => exact ⟨rfl, fun s h => by cases h⟩
      | some fs => exact ⟨rfl, fun s h => by cases h⟩
  | some r =>
      rw [Option.bind_some]
      cases passes tmatch given flist (some r) with
      | none => exact ⟨rfl, fun s h => by cases h⟩
      | some ok =>
          cases ok with
          | false =>
              refine ⟨rfl, fun s' h => ?_⟩
              cases h
              exact hb
          | true =>
              refine ⟨rfl, fun s' h => ?_⟩
              cases h
              exact hb

theorem goes_loop {ε : Type} {f : ε → Run → Option Run} {g : Sel → ε → Option Sel}
    (hf : ∀ e s, s.brkr = false → Goes (f e s) (g s.sel e)) :
    ∀ (l : List ε) (s : Run), s.brkr = false → Goes (loop f l s) (l.foldlM g s.sel)
  | [], s, hb => by
      refine ⟨rfl, fun s' h => ?_⟩
      cases h
      exact hb
  | e :: l, s, hb => by
      obtain ⟨h₁, h₂⟩ := hf e s hb
      rw [loop, List.foldlM_cons, ← h₁]
      cases hs : f e s with
      | none => exact ⟨rfl, fun s h => by cases h⟩
      | some s' =>
          simp only [h₂ s' hs, Bool.false_eq_true, if_false]
          exact goes_loop hf l s' (h₂ s' hs)

theorem goes_pkOpL (hq : q.Free) {row : Option Row} {s : Run} :
    Goes (pkOpL tmatch given flist q w row s) (selectOp tmatch given flist false row s.sel) := by
  have h : Goes (rowOp tmatch given flist row { s with loops := s.loops + 1, brkr := false })
      (selectOp tmatch given flist false row s.sel) := goes_rowOp rfl
  unfold pkOpL
  simp only [hq.pkLim, Bool.false_eq_true, false_and, if_false, Option.map_id']
  exact h

theorem goes_uBTOp (hq : q.Free) {v : Aobj} {s : Run} :
    Goes (uBTOp t tmatch given flist q w v s) (Select.uBTOp t tmatch given flist false v s.sel) := by
  have h : Goes (rowOp tmatch given flist (rrow t v) { s with loops := s.loops + 1, brkr := false })
      (selectOp tmatch given flist false (rrow t v) s.sel) := goes_rowOp rfl
  unfold uBTOp
  simp only [hq.fkLim, Bool.false_eq_true, false_and, if_false]
  exact h

theorem goes_nBTROp (hq : q.Free) {pk : Aobj} {s : Run} (hb : s.brkr = false) :
    Goes (nBTROp t tmatch given flist q w pk s)
      (selectOp tmatch given flist false (rrow t pk) s.sel) := by
  have h : Goes (rowOp tmatch given flist (rrow t pk) { s with loops := s.loops + 1 })
      (selectOp tmatch given flist false (rrow t pk) s.sel) := goes_rowOp hb
  unfold nBTROp
  simp only [hq.fkLim, Bool.false_eq_true, false_and, if_false, Option.map_id']
  exact h

theorem goes_nBTOp (hq : q.Free) {rq : Bool} {l : Leaf} {s : Run} :
    Goes (nBTOp t tmatch given flist q w rq l s)
      (Select.nBTOp t tmatch given flist false l s.sel) := by
  have hstep : ∀ pk (s : Run), s.brkr = false → Goes (nBTROp t tmatch given flist q w pk s)
      (selectOp tmatch given flist false (rrow t pk) s.sel) := fun pk s hb => goes_nBTROp hq hb
  have h := goes_loop (g := fun s pk => selectOp tmatch given flist false (rrow t pk) s) hstep
    ((leafRange l).map (nodePk l)) { s with brkr := false } rfl
  unfold nBTOp Select.nBTOp
  simp only [hq.fkLim, hq.fkLo, hq.xth, Bool.false_eq_true, false_and, if_false, Option.map_id']
  rw [List.foldlM_map] at h
  exact h

theorem goes_callback (hq : q.Free) {rq : Bool} (m : Meet) (s : Run) :
    Goes (callback t tmatch given flist q w rq m s)
      (Select.callback t tmatch given flist false m s.sel) := by
  cases m with
  | row r => exact goes_pkOpL hq
  | node l => exact goes_nBTOp hq
  | uniq v => exact goes_uBTOp hq

theorem meets_free (hq : q.Free) : meets t q w uv cs = (met t uv cs).map (·, w.ofst) := by
  unfold meets
  simp only [hq.xth, Bool.false_eq_true, if_false]
  repeat' split
  all_goals rfl

/-- Where nothing is counted off, the scan finds the rows of `SELECT *`. -/
theorem scanRows_free (hq : q.Free) (ha : q.asc = true) (hne : ∀ akey, cs.wf ≠ .single akey) :
    scanRows t tmatch given q w uv cs = Select.selectRows t tmatch given uv cs := by
  obtain ⟨-, -, hop⟩ := op_met t uv cs
  have hsel : sqlSelect t tmatch given false uv cs =
      op (Select.callback t tmatch given cs.flist false) t uv cs.klist cs.wf ⟨0, []⟩ := by
    unfold sqlSelect
    split
    · exact absurd ‹_› (hne _)
    · rfl
  unfold scanRows Select.selectRows
  rw [if_pos ha, meets_free hq, hsel, hop]
  cases met t uv cs with
  | none => rfl
  | some ms =>
      have hstep : ∀ m (s : Run), s.brkr = false →
          Goes (callback t tmatch given cs.flist q w (fkRq cs.wf) m s)
            (Select.callback t tmatch given cs.flist false m s.sel) := fun m s _ => goes_callback hq m s
      have h := (goes_loop (g := fun s m => Select.callback t tmatch given cs.flist false m s) hstep ms
        ⟨0, -1, w.ofst, false, []⟩ rfl).1
      simp only [Option.map_some, Option.bind_some]
      show _ = (ms.foldlM (fun s m => Select.callback t tmatch given cs.flist false m s)
        ⟨0, []⟩).map Sel.rows
      rw [show (⟨0, []⟩ : Sel) = Run.sel ⟨0, -1, w.ofst, false, []⟩ from rfl, ← h, Option.map_map]
      rfl

end Found

/-! ## What is found is in the table -/

section Rows

variable {σ : Type} (p : Meet → σ → Option σ)

/-- The callback without rows. -/
def rowless : Meet → σ → Option σ
  | .row _, _ => none
  | m, s => p m s

theorem runOnNode_rowless (k : Kind) : ∀ (still : Nat) (n : Nest) (s : σ),
    runOnNode (rowless p) k still n s = runOnNode p k still n s
  | 0, .leaf _, _ => rfl
  | 0, .tree _, _ => rfl
  | 1, .leaf _, _ => rfl
  | 1, .tree _, _ => rfl
  | still + 2, .leaf _, _ => rfl
  | still + 2, .tree t, s => by
      have h : (fun (s : σ) (e : Aobj × Nest) => runOnNode (rowless p) k (still + 1) e.2 s) =
          fun s e => runOnNode p k (still + 1) e.2 s :=
        funext fun s => funext fun e => runOnNode_rowless k (still + 1) e.2 s
      exact congrArg (fun f => (btFullRange some t).foldlM f s) h

theorem onFound_rowless (k : Kind) (f : Select.Found) (s : σ) :
    onFound (rowless p) k f s = onFound p k f s := by
  cases f with
  | stray => rfl
  | miss => rfl
  | node n nmatch v =>
      simp only [onFound]
      cases nexpc k - nmatch with
      | succ d => exact runOnNode_rowless p k (d + 1) n s
      | zero => cases v <;> cases n <;> rfl

/-- The lookup is one on the primary key. -/
def onPk : Lookup → Bool
  | .pkRange _ _ => true
  | .pkIn _ => true
  | _ => false

/-- In an index no rows are met. -/
theorem op_rowless (t : Tab) (uv : Aobj) (klist : List Aobj) {wf : Lookup} (s : σ)
    (h : onPk wf = false) : op (rowless p) t uv klist wf s = op p t uv klist wf s := by
  cases wf with
  | single akey => rfl
  | pkRange low high => cases h
  | pkIn inl => cases h
  | fk imatch akey =>
      simp only [op]
      cases t.inds[imatch]? with
      | none => rfl
      | some x =>
          obtain ⟨k, n⟩ := x
          cases k <;> cases n <;> simp only [singleOpFK, onFound_rowless]
          rfl
  | fkRange imatch low high =>
      simp only [op]
      cases t.inds[imatch]? with
      | none => rfl
      | some x =>
          obtain ⟨k, n⟩ := x
          cases k <;> cases n <;> simp only [rangeOpFK, onFound_rowless]
          rfl
  | fkIn imatch inl =>
      simp only [op]
      cases t.inds[imatch]? with
      | none => rfl
      | some x =>
          obtain ⟨k, n⟩ := x
          cases k <;> cases n <;> simp only [inOpFK, onFound_rowless]
          rfl

theorem foldlM_unit {ε : Type} {f : Unit → ε → Option Unit} : ∀ {l : List ε},
    l.foldlM f () = some () ↔ ∀ e ∈ l, f () e = some ()
  | [] => by simp
  | e :: l => by
      rw [List.foldlM_cons, List.forall_mem_cons, ← foldlM_unit (l := l)]
      cases he : f () e with
      | none => simp
      | some u => simp

theorem met_rowless {L : Type} {t : Tab} {uv : Aobj} {cs : Cswc L} {ms : List Meet} {r : Row}
    (hpk : onPk cs.wf = false) (h : met t uv cs = some ms) : Meet.row r ∉ ms := by
  intro hr
  obtain ⟨-, -, hop⟩ := op_met t uv cs
  rw [h] at hop
  have hall := (hop Unit (fun _ s => some s) ()).trans (foldlM_unit.mpr fun _ _ => rfl)
  rw [← op_rowless _ t uv cs.klist () hpk, hop] at hall
  exact absurd (foldlM_unit.mp hall _ hr) (by simp [rowless])

/-- Nothing but rows of the table. -/
def ofTable (t : Tab) : Meet → Unit → Option Unit
  | .row r, u => if r ∈ t.live then some u else none
  | _, _ => none

/-- The rows that are met are in the table. -/
theorem met_live {L : Type} {t : Tab} {uv : Aobj} {cs : Cswc L} {ms : List Meet} {r : Row}
    (hk : t.store.kind ≠ .uu) (h : met t uv cs = some ms) (hr : Meet.row r ∈ ms) : r ∈ t.live := by
  obtain ⟨-, -, hop⟩ := op_met t uv cs
  rw [h] at hop
  cases hpk : onPk cs.wf with
  | false => exact absurd hr (met_rowless hpk h)
  | true =>
      have hall : op (ofTable t) t uv cs.klist cs.wf () = some () := by
        cases hwf : cs.wf with
        | single akey => rw [hwf] at hpk; cases hpk
        | fk imatch akey => rw [hwf] at hpk; cases hpk
        | fkRange imatch low high => rw [hwf] at hpk; cases hpk
        | fkIn imatch inl => rw [hwf] at hpk; cases hpk
        | pkRange low high =>
            refine foldlM_unit.mpr fun e he => if_pos ?_
            refine List.mem_map.mpr ⟨e, ?_, rfl⟩
            unfold btRange at he
            split at he
            · cases he
            · exact (List.dropWhile_sublist _).subset ((scan_begins _ _).subset he)
        | pkIn inl =>
            refine foldlM_unit.mpr fun apk _ => ?_
            cases hf : t.store.find apk with
            | none => rfl
            | some cols =>
                rw [find_plain hk] at hf
                exact if_pos (List.mem_map.mpr ⟨(apk, cols), mem_of_get? hf, rfl⟩)
      rw [hop] at hall
      have hin := foldlM_unit.mp hall _ hr
      by_contra hnot
      rw [show ofTable t (.row r) () = none from if_neg hnot] at hin
      cases hin

end Rows

section Live

variable {L : Type} {t : Tab} {tmatch : Nat} {given : Row → Flist.Given L}
  {flist : Option (List (Flist.Filter L))} {q : Qr} {w : Wob} {uv : Aobj} {cs : Cswc L} {s s' : Run}

/-- What is found for a primary key is in the table. -/
theorem rrow_live (hk : t.store.kind ≠ .uu) {pk : Aobj} {r : Row} (h : rrow t pk = some r) :
    r ∈ t.live := by
  unfold rrow at h
  cases hf : t.store.find pk with
  | none =>
      rw [hf] at h
      simp [hk] at h
  | some cols =>
      rw [hf] at h
      cases h
      rw [find_plain hk] at hf
      exact List.mem_map.mpr ⟨(pk, cols), mem_of_get? hf, rfl⟩

/-- The rows that have been taken are in the table. -/
def Run.Live (t : Tab) (s : Run) : Prop := ∀ r ∈ s.rows, r ∈ t.live

theorem rowOp_live {row : Option Row} (h : rowOp tmatch given flist row s = some s')
    (hrow : ∀ r, row = some r → r ∈ t.live) (hs : s.Live t) : s'.Live t := by
  unfold rowOp at h
  obtain ⟨r, hr, h⟩ := Option.bind_eq_some_iff.mp h
  obtain ⟨ok, -, rfl⟩ := Option.map_eq_some_iff.mp h
  split
  · intro r' hr'
    rcases List.mem_append.mp hr' with hr' | hr'
    · exact hs r' hr'
    · rw [List.mem_singleton.mp hr']
      exact hrow r hr
  · exact hs

theorem loop_live {ε : Type} {f : ε → Run → Option Run} : ∀ {l : List ε} {s : Run},
    loop f l s = some s' → (∀ e ∈ l, ∀ s s', s.Live t → f e s = some s' → s'.Live t) →
    s.Live t → s'.Live t
  | [], s, h, _, hs => by
      cases h
      exact hs
  | e :: l, s, h, hf, hs => by
      rw [loop] at h
      cases he : f e s with
      | none =>
          rw [he] at h
          cases h
      | some s₁ =>
          rw [he] at h
          have hs₁ := hf e List.mem_cons_self s s₁ hs he
          simp only at h
          split at h
          · cases h
            exact hs₁
          · exact loop_live h (fun e he => hf e (List.mem_cons_of_mem _ he)) hs₁

theorem nBTROp_live (hk : t.store.kind ≠ .uu) {pk : Aobj} (hs : s.Live t)
    (h : nBTROp t tmatch given flist q w pk s = some s') : s'.Live t := by
  unfold nBTROp at h
  simp only at h
  split at h
  · cases h
    exact hs
  · obtain ⟨s₁, h₁, rfl⟩ := Option.map_eq_some_iff.mp h
    have hs₁ : s₁.Live t := rowOp_live h₁ (fun r hr => rrow_live hk hr) hs
    split
    · exact hs₁
    · exact hs₁

theorem callback_live (hk : t.store.kind ≠ .uu) {rq : Bool} {m : Meet}
    (hm : ∀ r, m = .row r → r ∈ t.live) (hs : s.Live t)
    (h : callback t tmatch given flist q w rq m s = some s') : s'.Live t := by
  cases m with
  | row r =>
      simp only [callback, pkOpL] at h
      split at h
      · cases h
        exact hs
      · obtain ⟨s₁, h₁, rfl⟩ := Option.map_eq_some_iff.mp h
        have hs₁ : s₁.Live t := rowOp_live h₁ (fun r' hr => hm r' (Option.some.inj hr ▸ rfl)) hs
        split
        · exact hs₁
        · exact hs₁
  | node l =>
      simp only [callback, nBTOp] at h
      split at h
      · cases h
        exact hs
      · obtain ⟨s₁, h₁, rfl⟩ := Option.map_eq_some_iff.mp h
        have hs₁ : s₁.Live t := loop_live h₁ (fun e _ s s' => nBTROp_live hk) hs
        repeat' split
        all_goals exact hs₁
  | uniq v =>
      simp only [callback, uBTOp] at h
      split at h
      · cases h
        exact hs
      · split at h
        · cases h
          exact hs
        · exact rowOp_live h (fun r hr => rrow_live hk hr) hs

/-- Of the entries of a UNIQUE index nothing else is met. -/
theorem mapM_uniqMeet {l : Leaf} {es : List (Aobj × Aobj)} {ms : List Meet}
    (h : es.mapM (uniqMeet l) = some ms) : ∀ m ∈ ms, m.isUniq = true := by
  intro m hm
  obtain ⟨i, hi⟩ := List.getElem?_of_mem hm
  obtain ⟨hlen, hget⟩ := mapM_some h
  obtain ⟨hlt, -⟩ := List.getElem?_eq_some_iff.mp hi
  obtain ⟨m', hm', hu⟩ := hget i _ (List.getElem?_eq_getElem (hlen ▸ hlt))
  rw [hi] at hm'
  cases hm'
  unfold uniqMeet at hu
  split at hu
  · cases hu
  · obtain ⟨v, -, rfl⟩ := Option.map_eq_some_iff.mp hu
    rfl

theorem meets_live (hk : t.store.kind ≠ .uu) {m : List Meet × Int} {r : Row}
    (h : meets t q w uv cs = some m) (hr : Meet.row r ∈ m.1) : r ∈ t.live := by
  have hplain : ∀ {o : Int}, (met t uv cs).map (·, o) = some m → r ∈ t.live := by
    intro o h
    obtain ⟨ms, hms, rfl⟩ := Option.map_eq_some_iff.mp h
    exact met_live hk hms hr
  unfold meets at h
  split at h
  · split at h
    · obtain rfl := Option.some.inj h
      obtain ⟨e, he, heq⟩ := List.mem_map.mp hr
      cases heq
      refine List.mem_map.mpr ⟨e, ?_, rfl⟩
      unfold btXthRange at he
      split at he
      · cases he
      · exact (List.dropWhile_sublist _).subset
          ((List.drop_sublist _ _).subset ((scan_begins _ _).subset he))
    · exact hplain h
  · split at h
    · split at h
      · obtain ⟨ms, hms, rfl⟩ := Option.map_eq_some_iff.mp h
        cases mapM_uniqMeet hms _ hr
      · exact hplain h
    · exact hplain h
  · exact hplain h

theorem scanRows_live (hk : t.store.kind ≠ .uu) {rows : List Row} {r : Row}
    (h : scanRows t tmatch given q w uv cs = some rows) (hr : r ∈ rows) : r ∈ t.live := by
  unfold scanRows at h
  split at h
  · obtain ⟨m, hm, h⟩ := Option.bind_eq_some_iff.mp h
    obtain ⟨s, hs, rfl⟩ := Option.map_eq_some_iff.mp h
    have hlive : s.Live t := loop_live hs
      (fun e he s s' hs h => callback_live hk (fun r hr => meets_live hk hm (hr ▸ he)) hs h)
      fun r hr => absurd hr List.not_mem_nil
    exact hlive r hr
  · cases h

end Live

/-! ## What is deleted -/

/-- The indexes are in step with the rows and give each of them back, whichever others are left. -/
structure Sound (t : Tab) : Prop where
  plain : t.store.kind ≠ .uu
  nodup : (t.live.map Row.pk).Nodup
  index : ∀ x ∈ t.inds, Synced t.ty t.live x ∧
    ∀ rows : List Row, rows.Subperm t.live → ∀ r ∈ rows, Gives t.ty rows x.kind r

section Deleted

variable {t t' : Tab} {r : Row} {rs : List Row} {lim : Int}

theorem find_live (hk : t.store.kind ≠ .uu) (hnd : (t.live.map Row.pk).Nodup) (hr : r ∈ t.live) :
    t.store.find r.pk = some r.cols := by
  rw [find_plain hk]
  obtain ⟨e, he, rfl⟩ := List.mem_map.mp hr
  have hkeys : (t.store.ents.map Prod.fst).Nodup := by
    rw [live_eq, List.map_map] at hnd
    exact hnd
  cases hg : get? t.store.ents e.1 with
  | none => exact absurd rfl (get?_eq_none.mp hg e he)
  | some c =>
      have heq := List.inj_on_of_nodup_map hkeys (mem_of_get? hg) he rfl
      exact congrArg (fun e => some e.2) heq

theorem runDeleteIndexes_each {Q : Ind → Prop} : ∀ {l : List Ind},
    (∀ x ∈ l, ∃ y, x.delFromIndex r = some y ∧ Q y) →
    ∃ l', runDeleteIndexes r l = some l' ∧ ∀ y ∈ l', Q y
  | [], _ => ⟨[], rfl, fun y hy => absurd hy List.not_mem_nil⟩
  | x :: l, h => by
      obtain ⟨y, hy, hq⟩ := h x List.mem_cons_self
      obtain ⟨l', hl, hq'⟩ := runDeleteIndexes_each fun z hz => h z (List.mem_cons_of_mem _ hz)
      refine ⟨y :: l', by simp only [runDeleteIndexes, hy, hl], fun z hz => ?_⟩
      rcases List.mem_cons.mp hz with rfl | hz
      · exact hq
      · exact hq' z hz

/-- A row is deleted, and the table stays sound. -/
theorem deleteRow_sound (ht : Sound t) (hr : r ∈ t.live) :
    ∃ t', deleteRow t r.pk = some (true, t') ∧ t.live.Perm (r :: t'.live) ∧ Sound t' := by
  have hf := find_live ht.plain ht.nodup hr
  obtain ⟨s, hs, hkind, hp⟩ := del_live (keeps_plain ht.plain r).1 hf
  have hsub : (s.ents.map asLive).Subperm t.live :=
    (List.sublist_cons_self r _).subperm.trans hp.symm.subperm
  obtain ⟨inds, hi, hinds⟩ := runDeleteIndexes_each
    (Q := fun y => Synced t.ty (s.ents.map asLive) y ∧
      ∀ rows : List Row, rows.Subperm (s.ents.map asLive) → ∀ r ∈ rows, Gives t.ty rows y.kind r)
    fun x hx => by
      obtain ⟨hsync, hgive⟩ := ht.index x hx
      obtain ⟨y, hy, hyk, hys⟩ := hsync.gives hp (hgive _ (List.Subperm.refl _) r hr)
      exact ⟨y, hy, hys, fun rows h => hyk ▸ hgive rows (h.trans hsub)⟩
  refine ⟨{ t with store := s, inds := inds }, ?_, hp, ?_, ?_, hinds⟩
  · unfold deleteRow
    rw [hf]
    simp only [Option.bind_eq_bind, hi, hs, Option.bind_some]
  · rw [show (_ : Tab).store.kind = s.kind from rfl, hkind]
    exact ht.plain
  · have hnd := ((hp.map Row.pk).nodup_iff).mp ht.nodup
    rw [List.map_cons, List.nodup_cons] at hnd
    exact hnd.2

/-- A list of rows is deleted. -/
theorem deleteList_sound : ∀ (sent : Nat) {rs : List Row} {t : Tab}, Sound t → rs.Nodup →
    (∀ r ∈ rs, r ∈ t.live) → ∃ t', deleteList (rs.map Row.pk) sent t = some (sent + rs.length, t') ∧
      ∀ r, r ∈ t'.live ↔ r ∈ t.live ∧ r ∉ rs
  | sent, [], t, _, _, _ => ⟨t, rfl, fun r => by simp⟩
  | sent, a :: rs, t, ht, hnd, hrs => by
      obtain ⟨hna, hnd⟩ := List.nodup_cons.mp hnd
      obtain ⟨t₁, h₁, hp, ht₁⟩ := deleteRow_sound ht (hrs a List.mem_cons_self)
      have hlive : t.live.Nodup := List.Nodup.of_map _ ht.nodup
      have hmem : ∀ r, r ∈ t₁.live ↔ r ∈ t.live ∧ r ≠ a := by
        intro r
        have hnd := hp.nodup_iff.mp hlive
        rw [List.nodup_cons] at hnd
        rw [hp.mem_iff, List.mem_cons]
        constructor
        · intro h
          exact ⟨.inr h, fun he => hnd.1 (he ▸ h)⟩
        · rintro ⟨h | h, hne⟩
          · exact absurd h hne
          · exact h
      obtain ⟨t', h', hmem'⟩ := deleteList_sound (sent + 1) ht₁ hnd fun r hr =>
        (hmem r).mpr ⟨hrs r (List.mem_cons_of_mem _ hr), fun he => hna (he ▸ hr)⟩
      refine ⟨t', ?_, fun r => ?_⟩
      · rw [List.map_cons, deleteList, h₁]
        simp only [if_true]
        rw [h', List.length_cons]
        congr 2
        omega
      · rw [hmem', hmem, List.mem_cons, not_or, and_assoc]

/-- The loop over the sorted vector deletes a slice, as the loop over a list does. -/
theorem opDeleteSort_eq : ∀ {rs : List Row} {t : Tab} {ofst : Int} {sent : Nat}, Sound t → rs.Nodup →
    (∀ r ∈ rs, r ∈ t.live) → opDeleteSort lim (rs.map Row.pk) ofst sent t =
      deleteList ((opSort lim rs ofst sent).map Row.pk) sent t
  | [], t, ofst, sent, _, _, _ => rfl
  | a :: rs, t, ofst, sent, ht, hnd, hrs => by
      obtain ⟨hna, hnd⟩ := List.nodup_cons.mp hnd
      rw [List.map_cons, opDeleteSort, opSort]
      split
      · rfl
      · split
        · exact opDeleteSort_eq ht hnd fun r hr => hrs r (List.mem_cons_of_mem _ hr)
        · obtain ⟨t₁, h₁, hp, ht₁⟩ := deleteRow_sound ht (hrs a List.mem_cons_self)
          have hrs₁ : ∀ r ∈ rs, r ∈ t₁.live := by
            intro r hr
            have h := hp.subset (hrs r (List.mem_cons_of_mem _ hr))
            rcases List.mem_cons.mp h with rfl | h
            · exact absurd hr hna
            · exact h
          rw [List.map_cons, deleteList, h₁]
          exact opDeleteSort_eq ht₁ hnd hrs₁

end Deleted

/-! ## The commands -/

section Commands

variable {L : Type} (qsort : (Obsl → Obsl → Int) → List Obsl → List Obsl) (malloc : Nat → Nat → Nat)
  (t : Tab) (tmatch : Nat) (given : Row → Flist.Given L) (uv : Aobj) (cs : Cswc L) (w : Wob)

/-- DELETE removes the rows that SELECT shows and no others, UPDATE goes through them, and the reply is
their number. -/
def Hits : Prop :=
  ∃ rs n t', select qsort malloc t tmatch given uv cs w = some rs ∧
    updated qsort malloc t tmatch given uv cs w = some (rs.map Row.pk) ∧
    delete qsort malloc t tmatch given uv cs w = some (n, t') ∧ n = rs.length ∧
    ∀ r, r ∈ t'.live ↔ r ∈ t.live ∧ r ∉ rs

/-- The row of the one primary key passes the filters; a slice of sorted rows is empty, or there are as
many rows behind it as before it. -/
def Evenly : Prop :=
  match cs.wf with
  | .single akey => ∀ cols, t.store.find akey = some cols →
      passes tmatch given cs.flist (some ⟨akey, cols⟩) = some true
  | _ => ∀ q rows, setQueued t cs.wf w cs.flist.isSome = some q → q.qed = true →
      Select.selectRows t tmatch given uv cs = some rows →
      w.shown rows.length = 0 ∨ 2 * w.ofst.toNat + w.shown rows.length = rows.length

variable {qsort malloc t tmatch given uv cs w}

theorem obList_rows (malloc : Nat → Nat → Nat) (cols : List Sorting.Ocol) : ∀ rows : List Row,
    (Sorting.obList malloc cols rows).map Obsl.row = rows
  | [] => rfl
  | r :: rows => congrArg (r :: ·) (obList_rows malloc cols rows)

theorem sorted_perm (hq : ∀ cmp l, (qsort cmp l).Perm l) (rows : List Row) :
    (sorted qsort malloc w rows).Perm rows := by
  have h := (hq (fun a b => Sorting.genOBsort w.obc a.keys b.keys)
    (Sorting.obList malloc w.obc rows)).map Obsl.row
  rw [obList_rows] at h
  exact h

/-- For one primary key. -/
theorem hits_single_iff (ht : Sound t) {akey : Aobj} (hwf : cs.wf = .single akey) :
    Hits qsort malloc t tmatch given uv cs w ↔ ∀ cols, t.store.find akey = some cols →
      passes tmatch given cs.flist (some ⟨akey, cols⟩) = some true := by
  unfold Hits select updated delete
  simp only [hwf]
  cases hf : t.store.find akey with
  | none =>
      refine iff_of_true ⟨[], 0, t, rfl, rfl, ?_, rfl, fun r => by simp⟩ fun cols h => by cases h
      simp [deleteRow, hf]
  | some cols =>
      have hr : (⟨akey, cols⟩ : Row) ∈ t.live := by
        rw [find_plain ht.plain] at hf
        exact List.mem_map.mpr ⟨(akey, cols), mem_of_get? hf, rfl⟩
      obtain ⟨t₁, h₁, hmem⟩ := deleteList_sound 0 ht (List.nodup_singleton ⟨akey, cols⟩)
        (List.forall_mem_singleton.mpr hr)
      obtain ⟨t₂, h₂, -, -⟩ := deleteRow_sound ht hr
      simp only [List.map_cons, List.map_nil, deleteList, h₂, if_true] at h₁
      obtain rfl : t₂ = t₁ := congrArg (fun e => e.2) (Option.some.inj h₁)
      simp only [h₂, Option.map_some, if_true, Option.isSome_some]
      constructor
      · rintro ⟨rs, n, t', hsel, hup, hdel, -, -⟩ c hc
        cases hc
        obtain ⟨ok, hok, rfl⟩ := Option.map_eq_some_iff.mp hsel
        cases ok with
        | true => exact hok
        | false => cases hup
      · intro h
        rw [h cols rfl]
        exact ⟨[⟨akey, cols⟩], 1, t₂, rfl, rfl, rfl, rfl, hmem⟩

section Planned

variable {q : Qr} {rows : List Row}

variable (qsort malloc) in
/-- For the other lookups, what the commands do with the rows of the scan. -/
theorem commands_planned (hne : ∀ akey, cs.wf ≠ .single akey)
    (hp : planned t tmatch given uv cs w = some (q, rows)) :
    select qsort malloc t tmatch given uv cs w =
        some (if q.qed then opSort w.lim (sorted qsort malloc w rows) w.ofst 0 else rows) ∧
      updated qsort malloc t tmatch given uv cs w =
        some ((if q.qed then opSort w.lim (sorted qsort malloc w rows) w.ofst 0 else rows).map
          Row.pk) ∧
      delete qsort malloc t tmatch given uv cs w =
        if q.qed then
          opDeleteSort w.lim ((sorted qsort malloc w rows).reverse.map Row.pk) w.ofst 0 t
        else deleteList (rows.reverse.map Row.pk) 0 t := by
  refine ⟨?_, ?_, ?_⟩
  · unfold select
    split
    · exact absurd ‹_› (hne _)
    · rw [hp]
      rfl
  · unfold updated
    split
    · exact absurd ‹_› (hne _)
    · rw [hp, Option.map_some, apply_ite (List.map Row.pk)]
  · unfold delete
    split
    · exact absurd ‹_› (hne _)
    · rw [hp, List.map_reverse, List.map_reverse]
      rfl

theorem hits_planned_iff (ht : Sound t) (hq : ∀ cmp l, (qsort cmp l).Perm l)
    (hne : ∀ akey, cs.wf ≠ .single akey) (hp : planned t tmatch given uv cs w = some (q, rows))
    (hnd : rows.Nodup) (hlive : ∀ r ∈ rows, r ∈ t.live) :
    Hits qsort malloc t tmatch given uv cs w ↔ (q.qed = true →
      w.shown rows.length = 0 ∨ 2 * w.ofst.toNat + w.shown rows.length = rows.length) := by
  obtain ⟨hsel, hup, hdel⟩ := commands_planned qsort malloc hne hp
  cases hqed : q.qed with
  | false =>
      simp only [hqed, Bool.false_eq_true, if_false] at hsel hup hdel
      obtain ⟨t', h', hmem⟩ := deleteList_sound 0 ht (List.nodup_reverse.mpr hnd)
        fun r hr => hlive r (List.mem_reverse.mp hr)
      refine iff_of_true ⟨rows, _, t', hsel, hup, hdel.trans h', ?_, fun r => ?_⟩ fun h => by cases h
      · rw [List.length_reverse, Nat.zero_add]
      · rw [hmem, List.mem_reverse]
  | true =>
      simp only [hqed, if_true] at hsel hup hdel
      have hperm : (sorted qsort malloc w rows).Perm rows := sorted_perm hq rows
      generalize sorted qsort malloc w rows = v at hsel hup hdel hperm
      have hvnd := hperm.nodup_iff.mpr hnd
      have hvlive : ∀ r ∈ v, r ∈ t.live := fun r hr => hlive r (hperm.subset hr)
      rw [opSort_eq] at hsel hup
      rw [opDeleteSort_eq ht (List.nodup_reverse.mpr hvnd) fun r hr => hvlive r (List.mem_reverse.mp hr),
        opSort_eq] at hdel
      obtain ⟨t', h', hmem⟩ := deleteList_sound 0 ht
        (slice_sublist.nodup (List.nodup_reverse.mpr hvnd))
        fun r hr => hvlive r (List.mem_reverse.mp (slice_sublist.subset hr))
      rw [h'] at hdel
      have hlen : v.length = rows.length := hperm.length_eq
      rw [← hlen, ← slice_reverse_iff w hvnd]
      constructor
      · rintro ⟨rs, n, t₁, hrs, -, ht₁, -, hmem₁⟩ - r
        rw [hsel] at hrs
        rw [hdel] at ht₁
        cases hrs
        cases ht₁
        -- both slices lie in the table, and what is left of it is the same
        have h := (hmem r).symm.trans (hmem₁ r)
        constructor
        · intro hr
          by_contra hno
          exact (h.mpr ⟨hvlive r (List.mem_reverse.mp (slice_sublist.subset hr)), hno⟩).2 hr
        · intro hr
          by_contra hno
          exact (h.mp ⟨hvlive r (slice_sublist.subset hr), hno⟩).2 hr
      · intro h
        refine ⟨_, _, t', hsel, hup, hdel, ?_, fun r => ?_⟩
        · rw [Nat.zero_add, length_slice, length_slice, List.length_reverse]
        · rw [hmem, h rfl r]

end Planned

end Commands

/-- All rows, in the order of the last column. -/
def byLast (lim : Int) : Wob := ⟨[⟨2, .int, true⟩], lim, -1⟩

def allRows : Cswc Nat := ⟨.pkRange (.int 1) (.int 2), [], none⟩

theorem uniqTab_sound : Sound uniqTab := by
  refine ⟨by decide, by decide, fun x hx => ?_⟩
  obtain rfl := List.mem_singleton.mp hx
  refine ⟨⟨⟨⟨rfl, by decide⟩, by decide⟩, ?_, fun r hr => ?_, by decide⟩, fun rows _ r _ => ?_⟩
  · show List.Pairwise _ _
    decide
  · exact Row.of_const ((by decide : ∀ r ∈ uniqTab.live, r.pk.ktype = .int) r hr)
      ((by decide : ∀ r ∈ uniqTab.live, ∀ c ∈ r.cols, c.all (fun v => v.ktype = .int) = true) r hr)
  · unfold Gives
    cases (Kind.uniq 1 .int).image r with
    | some p =>
        intro h
        cases h
    | none => trivial

end AlchemyDB.Query.Slice
