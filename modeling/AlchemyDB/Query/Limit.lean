/-
# Loops that count LIMIT and OFFSET

A query whose order is that of the scan steps over entries, and then takes rows until the LIMIT is
reached.  One loop goes over rows, another over the entries of UNIQUE indexes, a third over node trees,
of which it passes whole ones.
-/
import AlchemyDB.Query.Shown

namespace AlchemyDB.Query.Slice

open Assoc Index Table Select

/-! ## Loops that count -/

section Loops

variable {ε : Type} {p : Row → Bool} {g : ε → Row} {f : ε → Run → Option Run} {n : Nat} {o a : Int}

/-- An entry is stepped over, taken or left; the `n`th row that is taken ends the loop. -/
def counted (p : Row → Bool) (n : Nat) (o : Int) (r : Row) (s : Run) : Run :=
  if s.loops + 1 < o then { s with loops := s.loops + 1 }
  else if p r then
    ⟨s.card + 1, s.loops + 1, s.ofst, decide (s.card + 1 = n), s.rows ++ [r]⟩
  else { s with loops := s.loops + 1 }

/-- The rows that are taken of a list. -/
def taken (p : Row → Bool) (n j : Nat) (rows : List Row) : List Row := ((rows.drop j).filter p).take n

theorem taken_skip {j : Nat} {r : Row} {rows : List Row} :
    taken p n (j + 1) (r :: rows) = taken p n j rows := rfl

theorem taken_pass {r : Row} {rows : List Row} (h : p r = true) :
    taken p (n + 1) 0 (r :: rows) = r :: taken p n 0 rows := by
  unfold taken
  rw [List.drop_zero, List.drop_zero, List.filter_cons_of_pos h, List.take_succ_cons]

theorem taken_fail {r : Row} {rows : List Row} (h : ¬ p r = true) :
    taken p n 0 (r :: rows) = taken p n 0 rows := by
  unfold taken
  rw [List.drop_zero, List.drop_zero, List.filter_cons_of_neg h]

theorem taken_none {j : Nat} {rows : List Row} : taken p 0 j rows = [] := List.take_zero

/-- The loop has taken these rows, and it is at its end if that is all that is asked. -/
structure Took (n : Nat) (s s' : Run) (new : List Row) : Prop where
  rows : s'.rows = s.rows ++ new
  card : s'.card = s.card + new.length
  brkr : s'.brkr = decide (s'.card = n)
  loops : s.loops ≤ s'.loops

theorem loop_counts : ∀ {l : List ε} {s : Run},
    (∀ e ∈ l, ∀ s, s.card < n → s.brkr = false → -1 ≤ s.loops → s.ofst = a →
      f e s = some (counted p n o (g e) s)) →
    s.card < n → s.brkr = false → -1 ≤ s.loops → s.ofst = a →
    ∃ s', loop f l s = some s' ∧ s'.ofst = a ∧
      Took n s s' (taken p (n - s.card) (o - s.loops - 1).toNat (l.map g))
  | [], s, _, hc, hb, _, ha => by
      refine ⟨s, rfl, ha, ?_⟩
      simp only [taken, List.map_nil, List.drop_nil, List.filter_nil, List.take_nil]
      exact ⟨(List.append_nil _).symm, rfl, by rw [hb]; exact (decide_eq_false (by omega)).symm,
        le_refl _⟩
  | e :: l, s, hf, hc, hb, hl, ha => by
      have hrest := fun e he => hf e (List.mem_cons_of_mem _ he)
      rw [loop, hf e List.mem_cons_self s hc hb hl ha]
      unfold counted
      by_cases hskip : s.loops + 1 < o
      · simp only [if_pos hskip, hb, Bool.false_eq_true, if_false]
        obtain ⟨s', hs', ha', h1, h2, h3, h4⟩ := loop_counts
          (s := { s with loops := s.loops + 1, brkr := false }) hrest hc rfl (by simp; omega) ha
        have hj : (o - s.loops - 1).toNat = (o - (s.loops + 1) - 1).toNat + 1 := by omega
        simp only at h1 h2 h4
        refine ⟨s', hs', ha', ?_⟩
        rw [hj, List.map_cons, taken_skip]
        exact ⟨h1, h2, h3, by omega⟩
      · have hj : (o - s.loops - 1).toNat = 0 := by omega
        have hj' : (o - (s.loops + 1) - 1).toNat = 0 := by omega
        simp only [if_neg hskip]
        rw [hj, List.map_cons]
        by_cases hp : p (g e) = true
        · simp only [if_pos hp]
          by_cases hn : s.card + 1 = n
          · simp only [hn, decide_true, if_true]
            refine ⟨_, rfl, ha, ?_⟩
            rw [show n - s.card = 0 + 1 by omega, taken_pass hp, taken_none]
            exact ⟨rfl, hn.symm, by simp, by simp⟩
          · simp only [hn, decide_false, Bool.false_eq_true, if_false]
            obtain ⟨s', hs', ha', h1, h2, h3, h4⟩ := loop_counts
              (s := ⟨s.card + 1, s.loops + 1, s.ofst, false, s.rows ++ [g e]⟩) hrest (by simp; omega) rfl
              (by simp; omega) ha
            simp only [hj'] at h1 h2 h4
            refine ⟨s', hs', ha', ?_⟩
            rw [show n - s.card = (n - (s.card + 1)) + 1 by omega, taken_pass hp]
            refine ⟨?_, ?_, h3, by omega⟩
            · rw [h1, List.append_assoc, List.singleton_append]
            · rw [h2, List.length_cons]
              omega
        · simp only [if_neg hp, hb, Bool.false_eq_true, if_false]
          obtain ⟨s', hs', ha', h1, h2, h3, h4⟩ := loop_counts
            (s := { s with loops := s.loops + 1, brkr := false }) hrest hc rfl (by simp; omega) ha
          simp only [hj'] at h1 h2 h4
          rw [taken_fail hp]
          exact ⟨s', hs', ha', h1, h2, h3, by omega⟩

/-- In a UNIQUE index the LIMIT is looked at before the row. -/
def countedEarly (p : Row → Bool) (n : Nat) (o : Int) (r : Row) (s : Run) : Run :=
  if s.loops + 1 < o then { s with loops := s.loops + 1 }
  else if s.card = n then { s with loops := s.loops + 1, brkr := true }
  else if p r then ⟨s.card + 1, s.loops + 1, s.ofst, false, s.rows ++ [r]⟩
  else { s with loops := s.loops + 1 }

theorem loop_countsEarly : ∀ {l : List ε} {s : Run},
    (∀ e ∈ l, ∀ s, s.brkr = false → -1 ≤ s.loops → s.ofst = a →
      f e s = some (countedEarly p n o (g e) s)) →
    s.card ≤ n → s.brkr = false → -1 ≤ s.loops → s.ofst = a →
    ∃ s', loop f l s = some s' ∧
      s'.rows = s.rows ++ taken p (n - s.card) (o - s.loops - 1).toNat (l.map g)
  | [], s, _, _, _, _, _ => ⟨s, rfl, by simp [taken]⟩
  | e :: l, s, hf, hc, hb, hl, ha => by
      have hrest := fun e he => hf e (List.mem_cons_of_mem _ he)
      rw [loop, hf e List.mem_cons_self s hb hl ha]
      unfold countedEarly
      by_cases hskip : s.loops + 1 < o
      · simp only [if_pos hskip, hb, Bool.false_eq_true, if_false]
        obtain ⟨s', hs', h⟩ := loop_countsEarly
          (s := { s with loops := s.loops + 1, brkr := false }) hrest hc rfl (by simp; omega) ha
        refine ⟨s', hs', ?_⟩
        rw [show (o - s.loops - 1).toNat = (o - (s.loops + 1) - 1).toNat + 1 by omega, List.map_cons,
          taken_skip]
        exact h
      · have hj : (o - s.loops - 1).toNat = 0 := by omega
        have hj' : (o - (s.loops + 1) - 1).toNat = 0 := by omega
        simp only [if_neg hskip]
        rw [hj, List.map_cons]
        by_cases hn : s.card = n
        · simp only [if_pos hn, if_true]
          refine ⟨_, rfl, ?_⟩
          rw [hn, Nat.sub_self, taken_none, List.append_nil]
        · simp only [if_neg hn]
          by_cases hp : p (g e) = true
          · simp only [if_pos hp, Bool.false_eq_true, if_false]
            obtain ⟨s', hs', h⟩ := loop_countsEarly
              (s := ⟨s.card + 1, s.loops + 1, s.ofst, false, s.rows ++ [g e]⟩) hrest (by simp; omega) rfl
              (by simp; omega) ha
            simp only [hj'] at h
            refine ⟨s', hs', ?_⟩
            rw [show n - s.card = (n - (s.card + 1)) + 1 by omega, taken_pass hp, h,
              List.append_assoc, List.singleton_append]
          · simp only [if_neg hp, hb, Bool.false_eq_true, if_false]
            obtain ⟨s', hs', h⟩ := loop_countsEarly
              (s := { s with loops := s.loops + 1, brkr := false }) hrest hc rfl (by simp; omega) ha
            simp only [hj'] at h
            rw [taken_fail hp]
            exact ⟨s', hs', h⟩

end Loops

/-! ## The steps -/

section Steps

variable {L : Type} {t : Tab} {tmatch : Nat} {given : Row → Flist.Given L}
  {flist : Option (List (Flist.Filter L))} {q : Qr} {w : Wob} {p : Row → Bool} {n : Nat} {r : Row}
  {s : Run}

theorem rowOp_passes (hp : passes tmatch given flist (some r) = some (p r)) :
    rowOp tmatch given flist (some r) s =
      some (if p r then { s with card := s.card + 1, rows := s.rows ++ [r] } else s) := by
  unfold rowOp
  rw [Option.bind_some, hp]
  rfl

/-- The LIMIT is looked at behind the row. -/
theorem limited {lim : Bool} (hlim : lim = true) (hw : w.lim = n) (hc : s.card < n)
    (hb : s.brkr = false) :
    (fun s : Run => if lim ∧ w.lim = s.card then { s with brkr := true } else s)
      (if p r then { s with card := s.card + 1, rows := s.rows ++ [r] } else s) =
    if p r then ⟨s.card + 1, s.loops, s.ofst, decide (s.card + 1 = n), s.rows ++ [r]⟩ else s := by
  simp only [hlim, hw, true_and, Nat.cast_inj]
  cases p r with
  | true =>
      simp only [if_true]
      by_cases hn : n = s.card + 1
      · rw [if_pos hn, decide_eq_true hn.symm]
      · rw [if_neg hn, decide_eq_false (Ne.symm hn), hb]
  | false =>
      simp only [Bool.false_eq_true, if_false]
      rw [if_neg (by omega)]

theorem pkOpL_counted (hlim : q.pkLim = true) (hw : w.lim = n)
    (hp : passes tmatch given flist (some r) = some (p r)) (hc : s.card < n) (hb : s.brkr = false)
    (hl : -1 ≤ s.loops) : pkOpL tmatch given flist q w (some r) s =
      some (counted p n (if q.pkLo then -1 else w.ofst) r s) := by
  have hskip : (q.pkLim = true ∧ ¬ q.pkLo = true ∧ w.ofst ≠ -1 ∧ s.loops + 1 < w.ofst) ↔
      s.loops + 1 < if q.pkLo then -1 else w.ofst := by
    cases q.pkLo with
    | true => simp; omega
    | false => simp [hlim]; omega
  generalize (if q.pkLo then -1 else w.ofst) = o at hskip
  unfold pkOpL counted
  simp only [hskip]
  by_cases hs : s.loops + 1 < o
  · rw [if_pos hs, if_pos hs, hb]
  · rw [if_neg hs, if_neg hs, rowOp_passes hp, Option.map_some]
    have h := limited (p := p) (r := r) (s := { s with loops := s.loops + 1, brkr := false }) hlim hw
      hc rfl
    rw [← hb] at h ⊢
    exact congrArg some h

theorem nBTROp_counted (hlim : q.fkLim = true) (hw : w.lim = n) {pk : Aobj}
    (hr : rrow t pk = some r) (hp : passes tmatch given flist (some r) = some (p r))
    (hc : s.card < n) (hb : s.brkr = false) (hl : -1 ≤ s.loops) :
    nBTROp t tmatch given flist q w pk s =
      some (counted p n (if q.fkLo then -1 else s.ofst) r s) := by
  have hskip : (q.fkLim = true ∧ ¬ q.fkLo = true ∧ s.loops + 1 < s.ofst) ↔
      s.loops + 1 < if q.fkLo then -1 else s.ofst := by
    cases q.fkLo with
    | true => simp; omega
    | false => simp [hlim]
  generalize (if q.fkLo then -1 else s.ofst) = o at hskip
  unfold nBTROp counted
  simp only [hskip]
  by_cases hs : s.loops + 1 < o
  · rw [if_pos hs, if_pos hs]
  · rw [if_neg hs, if_neg hs, hr, rowOp_passes hp, Option.map_some]
    have h := limited (p := p) (r := r) (s := { s with loops := s.loops + 1 }) hlim hw hc hb
    exact congrArg some h

theorem uBTOp_counted (hlim : q.fkLim = true) (hw : w.lim = n) {v : Aobj}
    (hr : rrow t v = some r) (hp : passes tmatch given flist (some r) = some (p r))
    (hb : s.brkr = false) (hl : -1 ≤ s.loops) :
    uBTOp t tmatch given flist q w v s =
      some (countedEarly p n (if q.fkLo then s.ofst else -1) r s) := by
  have hskip : (q.fkLim = true ∧ q.fkLo = true ∧ s.loops + 1 < s.ofst) ↔
      s.loops + 1 < if q.fkLo then s.ofst else -1 := by
    cases q.fkLo with
    | true => simp [hlim]
    | false => simp; omega
  generalize (if q.fkLo then s.ofst else -1) = o at hskip
  unfold uBTOp countedEarly
  simp only [hskip]
  simp only [hlim, true_and, hw, Nat.cast_inj]
  by_cases hs : s.loops + 1 < o
  · rw [if_pos hs, if_pos hs, hb]
  · rw [if_neg hs, if_neg hs]
    by_cases hn : s.card = n
    · rw [if_pos hn.symm, if_pos hn]
    · rw [if_neg (Ne.symm hn), if_neg hn, hr, rowOp_passes hp]
      cases p r with
      | true => rfl
      | false => rw [hb]

end Steps

/-! ## Ranges behind an OFFSET -/

section Ranges

variable {ν : Type} {high : Aobj}

theorem scan_over : ∀ {l : List (Aobj × ν)}, (∀ e ∈ l, high < e.1) → scan high l = []
  | [], _ => rfl
  | e :: l, h => by rw [scan, if_pos (h e List.mem_cons_self)]

/-- In order, a number that matches is the last one. -/
theorem scan_drop : ∀ {l : List (Aobj × ν)} (j : Nat), (l.Pairwise fun a b => a.1 < b.1) →
    (∀ e ∈ l, e.1.ktype ≠ .text) → scan high (l.drop j) = (scan high l).drop j
  | l, 0, _, _ => rfl
  | [], j + 1, _, _ => rfl
  | e :: l, j + 1, hs, hnum => by
      obtain ⟨hlt, hs⟩ := List.pairwise_cons.mp hs
      have ih : scan high (l.drop j) = (scan high l).drop j :=
        scan_drop j hs fun e he => hnum e (List.mem_cons_of_mem _ he)
      rw [List.drop_succ_cons, ih, scan]
      by_cases hover : high < e.1
      · rw [if_pos hover, scan_over fun e' he => Aobj.lt_trans _ _ _ hover (hlt e' he)]
        simp
      · rw [if_neg hover, List.drop_succ_cons]
        cases hex : exactMatch e.1 high with
        | false => rfl
        | true =>
            have he : e.1 = high := by
              have htext := hnum e List.mem_cons_self
              cases hk : e.1 with
              | text k => exact absurd (congrArg Aobj.ktype hk) htext
              | int i =>
                  rw [hk] at hex
                  exact of_decide_eq_true hex
              | long i =>
                  rw [hk] at hex
                  exact of_decide_eq_true hex
              | u128 i =>
                  rw [hk] at hex
                  exact of_decide_eq_true hex
            rw [scan_over fun e' h => he ▸ hlt e' h]
            rfl

theorem btXthRange_eq {bkey : Option Aobj} {o : Nat} {l : List (Aobj × ν)}
    (hs : l.Pairwise fun a b => a.1 < b.1) (hnum : ∀ e ∈ l, e.1.ktype ≠ .text) :
    btXthRange bkey high o l = (btRange bkey high l).drop o := by
  unfold btXthRange btRange
  cases bkey with
  | none => exact List.drop_nil.symm
  | some k =>
      have hsub := List.dropWhile_sublist (l := l) fun e => decide (e.1 < k)
      exact scan_drop o (hs.sublist hsub) fun e he => hnum e (hsub.subset he)

/-- The entries of a tree are numbers in order, and none of them is taken for a null pointer. -/
structure Numbers (l : Leaf) : Prop where
  key : ∀ e ∈ l.ents, createBTKey l.kind (some e.1) = some e.1
  num : ∀ e ∈ l.ents, e.1.ktype ≠ .text
  sorted : l.ents.Pairwise fun a b => a.1 < b.1

theorem Numbers.range {l : Leaf} (h : Numbers l) : leafRange l = l.ents :=
  (leafRange_eq_iff l).mpr (whole_numbers h.key h.num h.sorted)

theorem Numbers.not_null {l : Leaf} (h : Numbers l) {e : Aobj × Aobj} (he : e ∈ l.ents) :
    nullEntry l.kind e = false := by
  have hkey := h.key e he
  unfold nullEntry
  split
  · rename_i hk
    rw [hk] at hkey
    refine decide_eq_false ?_
    rintro ⟨h0, -⟩
    rw [h0] at hkey
    cases hkey
  · rw [hkey]
    rfl

theorem Numbers.xth {l : Leaf} (h : Numbers l) (o : Nat) : leafXth l o = l.ents.drop o := by
  unfold leafXth
  split
  · rename_i aL aH hL hH
    rw [h.not_null (List.mem_of_mem_head? hL), h.not_null (List.mem_of_getLast? hH), Bool.or_self,
      if_neg (by simp), scan_drop o h.sorted h.num]
    have hw := (whole_numbers h.key h.num h.sorted aL aH hL hH).2
    rw [(scan_eq_self_iff ?_).mpr hw]
    intro e he
    rw [hH] at he
    cases he
    exact Aobj.lt_irrefl _
  · rename_i hno
    cases hents : l.ents with
    | nil => rw [List.drop_nil]
    | cons e rest =>
        rw [hents] at hno
        exact absurd (List.getLast?_eq_some_getLast (List.cons_ne_nil e rest)) (hno e _ rfl)

end Ranges

/-! ## What is read -/

section Reads

variable {L : Type} {t : Tab} {tmatch : Nat} {given : Row → Flist.Given L}
  {flist : Option (List (Flist.Filter L))} {p : Row → Bool} {uv : Aobj} {cs : Cswc L} {ms : List Meet}
  {r : Row}

/-- The row of a primary key. -/
def rowAt (t : Tab) (pk : Aobj) : Row := (rrow t pk).getD ⟨pk, []⟩

/-- The rows that are read for what is met, before any filter. -/
def reads (t : Tab) : Meet → List Row
  | .row r => [r]
  | .node l => l.ents.map fun e => rowAt t (nodePk l e)
  | .uniq v => [rowAt t v]

/-- What is met leads to rows, and a node tree is read as a whole. -/
def Leads (t : Tab) : Meet → Prop
  | .row _ => True
  | .node l => Numbers l ∧ ∀ e ∈ l.ents, (rrow t (nodePk l e)).isSome = true
  | .uniq v => (rrow t v).isSome = true

/-- The row passes the filters. -/
def admits (tmatch : Nat) (given : Row → Flist.Given L) (flist : Option (List (Flist.Filter L)))
    (r : Row) : Bool :=
  decide (passes tmatch given flist (some r) = some true)

theorem rrow_rowAt {pk : Aobj} (h : (rrow t pk).isSome = true) : rrow t pk = some (rowAt t pk) := by
  obtain ⟨r, hr⟩ := Option.isSome_iff_exists.mp h
  rw [rowAt, hr]
  rfl

theorem passes_admits (h : (passes tmatch given flist (some r)).isSome = true) :
    passes tmatch given flist (some r) = some (admits tmatch given flist r) := by
  obtain ⟨b, hb⟩ := Option.isSome_iff_exists.mp h
  unfold admits
  rw [hb]
  cases b <;> rfl

/-- The rows are output if they pass. -/
def pushed (p : Row → Bool) (new : List Row) (s : Sel) : Sel :=
  ⟨s.card + (new.filter p).length, s.rows ++ new.filter p⟩

theorem foldlM_pushed {ε : Type} {f : Sel → ε → Option Sel} {new : ε → List Row} :
    ∀ {l : List ε} {s : Sel}, (∀ e ∈ l, ∀ s, f s e = some (pushed p (new e) s)) →
      l.foldlM f s = some (pushed p (l.flatMap new) s)
  | [], s, _ => by simp [pushed]
  | e :: l, s, h => by
      rw [List.foldlM_cons, h e List.mem_cons_self s, Option.bind_eq_bind, Option.bind_some,
        foldlM_pushed fun e he => h e (List.mem_cons_of_mem _ he), List.flatMap_cons]
      unfold pushed
      rw [List.filter_append, List.length_append, List.append_assoc, Nat.add_assoc]

theorem selectOp_pushed (h : (passes tmatch given flist (some r)).isSome = true) (s : Sel) :
    selectOp tmatch given flist false (some r) s =
      some (pushed (admits tmatch given flist) [r] s) := by
  unfold selectOp pushed
  rw [passes_admits h]
  cases hr : admits tmatch given flist r with
  | false => simp [hr]
  | true => simp [hr]

theorem callback_pushed {m : Meet} (hl : Leads t m)
    (hp : ∀ r ∈ reads t m, (passes tmatch given flist (some r)).isSome = true) (s : Sel) :
    Select.callback t tmatch given flist false m s =
      some (pushed (admits tmatch given flist) (reads t m) s) := by
  cases m with
  | row r => exact selectOp_pushed (hp r (List.mem_singleton_self r)) s
  | uniq v =>
      show selectOp tmatch given flist false (rrow t v) s = _
      rw [rrow_rowAt hl]
      exact selectOp_pushed (hp _ (List.mem_singleton_self _)) s
  | node l =>
      show (leafRange l).foldlM (fun s e => selectOp tmatch given flist false (rrow t (nodePk l e)) s) s =
        some (pushed _ (l.ents.map fun e => rowAt t (nodePk l e)) s)
      rw [hl.1.range, List.map_eq_flatMap]
      refine foldlM_pushed fun e he s => ?_
      rw [rrow_rowAt (hl.2 e he)]
      exact selectOp_pushed (hp _ (List.mem_map.mpr ⟨e, he, rfl⟩)) s

/-- `SELECT *` without LIMIT outputs what is read and passes. -/
theorem selectRows_reads (hne : ∀ akey, cs.wf ≠ .single akey) (hm : met t uv cs = some ms)
    (hl : ∀ m ∈ ms, Leads t m)
    (hp : ∀ r ∈ ms.flatMap (reads t), (passes tmatch given cs.flist (some r)).isSome = true) :
    Select.selectRows t tmatch given uv cs =
      some ((ms.flatMap (reads t)).filter (admits tmatch given cs.flist)) := by
  obtain ⟨-, -, hop⟩ := op_met t uv cs
  unfold Select.selectRows sqlSelect
  split
  · exact absurd ‹_› (hne _)
  · rw [hop, hm, Option.bind_some, foldlM_pushed fun m hm s => callback_pushed (hl m hm)
      (fun r hr => hp r (List.mem_flatMap.mpr ⟨m, hm, hr⟩)) s]
    simp [pushed]

end Reads

/-! ## What is stepped over -/

section Nodes

variable {L : Type} {t : Tab} {tmatch : Nat} {given : Row → Flist.Given L}
  {flist : Option (List (Flist.Filter L))} {q : Qr} {w : Wob} {n : Nat}

/-- The entries that an OFFSET of `o` steps over in node trees: those of whole nodes where it is a
range, and with `x` those at the beginning of the next one. -/
def inNodes (lo x : Bool) : Int → List Meet → Nat
  | o, .node l :: ms =>
      if lo ∧ (l.ents.length : Int) ≤ o then l.ents.length + inNodes lo x (o - l.ents.length) ms
      else if x then min o.toNat l.ents.length else 0
  | _, _ => 0

theorem inNodes_le (lo x : Bool) : ∀ (ms : List Meet) (o : Int), inNodes lo x o ms ≤ o.toNat
  | [], o => Nat.zero_le _
  | .row r :: ms, o => Nat.zero_le _
  | .uniq v :: ms, o => Nat.zero_le _
  | .node l :: ms, o => by
      have ih := inNodes_le lo x ms (o - l.ents.length)
      rw [inNodes]
      split
      · omega
      · split
        · exact Nat.min_le_left _ _
        · exact Nat.zero_le _

theorem inNodes_none {lo x : Bool} {ms : List Meet} {o : Int} (h : o ≤ 0) : inNodes lo x o ms = 0 := by
  have hle := inNodes_le lo x ms o
  omega

theorem loop_map {ε δ : Type} {f : ε → Run → Option Run} (h : δ → ε) : ∀ {l : List δ} {s : Run},
    loop f (l.map h) s = loop (fun e => f (h e)) l s
  | [], _ => rfl
  | e :: l, s => by
      rw [List.map_cons, loop, loop]
      cases f (h e) s with
      | none => rfl
      | some s' =>
          simp only
          split
          · rfl
          · exact loop_map h

/-- A loop that has ended says so. -/
theorem fulfilled {s : Run} (hw : w.lim = n) (hb : s.brkr = decide (s.card = n)) :
    (if q.fkLim ∧ w.lim = s.card then { s with brkr := true } else s) = s := by
  split
  · rename_i h
    rw [hw, Nat.cast_inj] at h
    rw [decide_eq_true h.2.symm] at hb
    rw [← hb]
  · rfl

/-- A node that is gone into. -/
theorem nBTOp_took {rq : Bool} {l : Leaf} {s : Run} (hlim : q.fkLim = true) (hw : w.lim = n)
    (hl : Leads t (.node l))
    (hp : ∀ r ∈ reads t (.node l), (passes tmatch given flist (some r)).isSome = true)
    (hin : ¬ (q.fkLo = true ∧ rq = true ∧ (l.ents.length : Int) ≤ s.ofst))
    (ho : q.fkLo = false → s.ofst = -1) (hc : s.card < n) (hs : -1 ≤ s.loops) :
    ∃ s', nBTOp t tmatch given flist q w rq l s = some s' ∧
      s'.ofst = (if q.fkLo then 0 else -1) ∧
      Took n s s' (taken (admits tmatch given flist) (n - s.card)
        (if q.xth then min s.ofst.toNat l.ents.length else 0) (reads t (.node l))) := by
  have hents : (if q.xth = true ∧ s.ofst > 0 then leafXth l s.ofst.toNat else leafRange l) =
      l.ents.drop (if q.xth then min s.ofst.toNat l.ents.length else 0) := by
    rw [hl.1.xth, hl.1.range]
    cases q.xth with
    | false => simp
    | true =>
        simp only [true_and, if_true]
        split
        · rcases Nat.le_total s.ofst.toNat l.ents.length with h | h
          · rw [Nat.min_eq_left h]
          · rw [Nat.min_eq_right h, List.drop_length, List.drop_eq_nil_of_le h]
        · rw [show s.ofst.toNat = 0 by omega, Nat.zero_min, List.drop_zero]
  have hoff : (if q.fkLo then -1 else s.ofst) = -1 := by
    cases hlo : q.fkLo with
    | true => rfl
    | false => exact ho hlo
  generalize hj : (if q.xth then min s.ofst.toNat l.ents.length else 0) = j at hents ⊢
  obtain ⟨s', hs', ha, h1, h2, h3, h4⟩ := loop_counts (n := n) (o := -1) (a := s.ofst)
    (p := admits tmatch given flist) (g := fun e => rowAt t (nodePk l e))
    (f := fun e => nBTROp t tmatch given flist q w (nodePk l e)) (l := l.ents.drop j)
    (s := { s with brkr := false })
    (fun e he s hc hb hl' ha => by
      have he := List.mem_of_mem_drop he
      have h := nBTROp_counted (t := t) (q := q) hlim hw (rrow_rowAt (hl.2 e he))
        (passes_admits (hp _ (List.mem_map.mpr ⟨e, he, rfl⟩))) hc hb hl'
      rw [ha, hoff] at h
      exact h)
    hc rfl hs rfl
  have hdrop : (-1 - s.loops - 1).toNat = 0 := by omega
  simp only [hdrop, taken, List.drop_zero] at h1 h2
  have hend := fulfilled (q := q) hw h3
  unfold nBTOp
  rw [if_neg hin, hents]
  dsimp only
  rw [loop_map, hs', Option.map_some]
  have htaken : taken (admits tmatch given flist) (n - s.card) j (reads t (.node l)) =
      (((l.ents.drop j).map fun e => rowAt t (nodePk l e)).filter (admits tmatch given flist)).take
        (n - s.card) := by
    rw [taken, reads, List.map_drop]
  rw [htaken]
  cases hlo : q.fkLo with
  | false =>
      simp only [Bool.false_eq_true, if_false]
      rw [hend]
      exact ⟨s', rfl, ha.trans (ho hlo), h1, h2, h3, h4⟩
  | true =>
      simp only [if_true]
      rw [fulfilled hw (s := { s' with ofst := 0 }) h3]
      exact ⟨_, rfl, rfl, h1, h2, h3, h4⟩

/-- What is taken of a list in two parts. -/
theorem taken_append {p : Row → Bool} {k j : Nat} {a b : List Row} (h : j ≤ a.length) :
    taken p k j (a ++ b) = taken p k j a ++ taken p (k - (taken p k j a).length) 0 b := by
  unfold taken
  rw [List.drop_append_of_le_length h, List.filter_append, List.take_append, List.length_take,
    List.drop_zero]
  congr 2
  omega

/-- Through node trees: whole ones are stepped over, and the first one gone into takes up what is left
of the OFFSET. -/
theorem loop_nodes (rq : Bool) (hlim : q.fkLim = true) (hw : w.lim = n) :
    ∀ {ms : List Meet} {s : Run}, (∀ m ∈ ms, ∃ l, m = .node l) → (∀ m ∈ ms, Leads t m) →
      (∀ r ∈ ms.flatMap (reads t), (passes tmatch given flist (some r)).isSome = true) →
      s.card < n → s.brkr = false → -1 ≤ s.loops → (q.fkLo = false → s.ofst = -1) →
      ∃ s', loop (callback t tmatch given flist q w rq) ms s = some s' ∧
        s'.rows = s.rows ++ taken (admits tmatch given flist) (n - s.card)
          (inNodes (q.fkLo && rq) q.xth s.ofst ms) (ms.flatMap (reads t))
  | [], s, _, _, _, _, _, _, _ => ⟨s, rfl, by simp [taken]⟩
  | m :: ms, s, hn, hl, hp, hc, hb, hs, ho => by
      obtain ⟨l, rfl⟩ := hn m List.mem_cons_self
      have hn' := fun m hm => hn m (List.mem_cons_of_mem _ hm)
      have hl' := fun m hm => hl m (List.mem_cons_of_mem _ hm)
      have hlen : (reads t (.node l)).length = l.ents.length := List.length_map _
      rw [List.flatMap_cons] at hp ⊢
      have hp₁ := fun r hr => hp r (List.mem_append_left _ hr)
      have hp₂ := fun r hr => hp r (List.mem_append_right _ hr)
      rw [loop, inNodes]
      by_cases hin : q.fkLo = true ∧ rq = true ∧ (l.ents.length : Int) ≤ s.ofst
      · have hstep : callback t tmatch given flist q w rq (.node l) s =
            some { s with ofst := s.ofst - l.ents.length } := by
          show nBTOp t tmatch given flist q w rq l s = _
          unfold nBTOp
          rw [if_pos hin]
        obtain ⟨s', hs', h⟩ := loop_nodes rq hlim hw
          (s := { s with ofst := s.ofst - l.ents.length, brkr := false }) hn' hl' hp₂ hc rfl hs
          (fun h => absurd (hin.1.symm.trans h) (by simp))
        rw [hstep, if_pos ⟨by rw [hin.1, hin.2.1]; rfl, hin.2.2⟩]
        simp only [hb, Bool.false_eq_true, if_false]
        refine ⟨s', hs', ?_⟩
        rw [h, taken, taken, ← hlen, List.drop_length_add_append]
      · obtain ⟨s₁, hs₁, hofst, h1, h2, h3, h4⟩ :=
          nBTOp_took hlim hw (hl _ List.mem_cons_self) hp₁ hin ho hc hs
        have hstep : callback t tmatch given flist q w rq (.node l) s = some s₁ := hs₁
        rw [hstep, if_neg (fun h => hin ⟨(Bool.and_eq_true_iff.mp h.1).1,
          (Bool.and_eq_true_iff.mp h.1).2, h.2⟩)]
        have hj : (if q.xth then min s.ofst.toNat l.ents.length else 0) ≤
            (reads t (.node l)).length := by
          rw [hlen]
          split
          · exact Nat.min_le_right _ _
          · exact Nat.zero_le _
        rw [taken_append hj]
        simp only
        cases hbr : s₁.brkr with
        | true =>
            have hcard : s₁.card = n := of_decide_eq_true (h3.symm.trans hbr)
            refine ⟨s₁, by simp, ?_⟩
            rw [h1, show n - s.card - _ = 0 by omega]
            simp [taken]
        | false =>
            have hcard : s₁.card ≠ n := of_decide_eq_false (h3.symm.trans hbr)
            have hle : (taken (admits tmatch given flist) (n - s.card)
                (if q.xth then min s.ofst.toNat l.ents.length else 0) (reads t (.node l))).length ≤
                n - s.card := by
              unfold taken
              rw [List.length_take]
              exact Nat.min_le_left _ _
            simp only [Bool.false_eq_true, if_false]
            obtain ⟨s', hs', h⟩ := loop_nodes rq hlim hw (s := s₁) hn' hl' hp₂ (by omega) hbr (by omega)
              (fun h => by rw [hofst, h]; rfl)
            have hzero : inNodes (q.fkLo && rq) q.xth s₁.ofst ms = 0 := inNodes_none (by
              rw [hofst]
              split <;> simp)
            refine ⟨s', hs', ?_⟩
            rw [h, hzero, h1, List.append_assoc, h2, Nat.sub_add_eq]

end Nodes

end AlchemyDB.Query.Slice
