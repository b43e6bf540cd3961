/-
# When a path is chained

The passes of `buildJoinChain` move the first pair along the path, to where it points.  If it comes to
an end of the path that it points away from, the list gets sorted.  If it comes to one that it points at,
or to a pair that points back at it, no pass finds more than its surroundings, and in the list that is
left pairs follow each other that have no alias in common; unless the counter of the passes, which is
one byte, ends the loop just when the list is sorted.
-/
import AlchemyDB.Query.JoinPass

namespace AlchemyDB.Query.Join

open Gather

variable {β γ : Type} {v : List Jan} {h : Ijp β γ} {t : List (Ijp β γ)} {p q : ℕ}

/-! ## The list after a pass -/

/-- In the list of a pass that has collected pairs behind the first, two neighbours of it at most are
in line. -/
theorem turned_inLine {σ x : ℤ} (hσ : σ = 1 ∨ σ = -1) {a r : List ℤ} {j : ℕ}
    (hl : InLine (a ++ (x :: ((steps (-σ) (x - σ) (j + 1)).reverse ++ r)))) : j = 0 := by
  have hx := (List.isChain_append.mp hl).2.1
  rw [reverse_steps, List.cons_append] at hx
  have hnext := (List.isChain_cons_cons.mp hx).1
  rcases hσ with rfl | rfl <;> omega

theorem kept_inLine {σ x : ℤ} (hσ : σ = 1 ∨ σ = -1) {r : List ℤ} {j : ℕ}
    (hl : InLine (steps σ (x + σ) (j + 1) ++ (x :: r))) : j = 0 := by
  have hx := (List.isChain_append.mp hl).2.2
  have hlast : (steps σ (x + σ) (j + 1)).getLast? = some (x + σ + j * σ) := by
    rw [List.getLast?_eq_head?_reverse, reverse_steps]
    rfl
  have hnext := hx _ hlast x rfl
  rcases hσ with rfl | rfl <;> omega

/-- A pass is the last one if it collects all pairs on both sides. -/
theorem Placed.rest_nil (P : Placed v h t (p + 1) (q + 1)) :
    (pass (h :: t)).2.isEmpty = true ↔ behind v h t (p + 1) = 0 ∧ ahead v h t (q + 1) = 0 := by
  obtain ⟨j, hj, hl, -, -⟩ := P.lefts_line
  obtain ⟨k, hk, hr, -, -⟩ := P.rights_line
  have hlen := gathered_length (v := v) h t
  rw [P.length, hl, hr, length_steps, length_steps] at hlen
  rw [List.isEmpty_iff, ← List.map_eq_nil_iff (f := mark v), (pass_marks P.path P.nodup).2,
    P.behind_zero, P.ahead_zero, hl, hr, ← List.length_eq_zero_iff]
  constructor
  · intro h0
    rw [show j = p by omega, show k = q by omega]
    exact ⟨rfl, rfl⟩
  · rintro ⟨h1, h2⟩
    have h1 := congrArg List.length h1
    have h2 := congrArg List.length h2
    rw [length_steps, length_steps] at h1 h2
    omega

theorem Placed.rest_nil_behind (P : Placed v h t (p + 1) 0) :
    (pass (h :: t)).2.isEmpty = true ↔ behind v h t (p + 1) = 0 := by
  obtain ⟨j, hj, hl, -, -⟩ := P.lefts_line
  have hlen := gathered_length (v := v) h t
  rw [P.length, hl, P.rights_none, length_steps, List.length_nil] at hlen
  rw [List.isEmpty_iff, ← List.map_eq_nil_iff (f := mark v), (pass_marks P.path P.nodup).2,
    P.behind_zero, hl, ← List.length_eq_zero_iff, P.rights_none]
  constructor
  · intro h0
    rw [show j = p by omega]
  · intro h1
    have h1 := congrArg List.length h1
    rw [length_steps, length_steps] at h1
    omega

theorem Placed.rest_nil_ahead (P : Placed v h t 0 (q + 1)) :
    (pass (h :: t)).2.isEmpty = true ↔ ahead v h t (q + 1) = 0 := by
  obtain ⟨k, hk, hr, -, -⟩ := P.rights_line
  have hlen := gathered_length (v := v) h t
  rw [P.length, hr, P.lefts_none, length_steps, List.length_nil] at hlen
  rw [List.isEmpty_iff, ← List.map_eq_nil_iff (f := mark v), (pass_marks P.path P.nodup).2,
    P.ahead_zero, hr, ← List.length_eq_zero_iff]
  constructor
  · intro h0
    rw [show k = q by omega]
  · intro h2
    have h2 := congrArg List.length h2
    rw [length_steps, length_steps] at h2
    omega

/-! ## At an end of the path -/

/-- The numbers of the list. -/
abbrev numbers (v : List Jan) (l : List (Ijp β γ)) : List ℤ := l.map (mark v)

/-- With nothing behind the first pair and no back ahead the list is in line. -/
theorem Placed.sorted (P : Placed v h t 0 (q + 1)) (ha : ahead v h t (q + 1) = 0) :
    numbers v (h :: t) = steps (dir v h) (mark v h) (q + 2) ∧
      numbers v (pass (h :: t)).1 = steps (dir v h) (mark v h) (q + 2) := by
  have hr := P.ahead_zero.mp ha
  have hrest : (rights v h t).2 = [] := by
    have he := P.rest_nil_ahead.mpr ha
    rw [List.isEmpty_iff, ← List.map_eq_nil_iff (f := mark v), (pass_marks P.path P.nodup).2] at he
    exact he
  constructor
  · have hall : (rights v h t).1 = t.map (mark v) := by
      rw [rights] at hrest ⊢
      rw [gather_all hrest, P.lefts_none]
    rw [numbers, List.map_cons, ← hall, hr]
    rfl
  · rw [numbers, (pass_marks P.path P.nodup).1, P.lefts_none, if_pos rfl, hr, hrest, List.append_nil]
    rfl

/-- With nothing behind the first pair the list is sorted, in as many passes as there are backs. -/
theorem Placed.sorts : ∀ {k : ℕ} {t : List (Ijp β γ)}, Placed v h t 0 (q + 1) →
    ahead v h t (q + 1) ≤ k → InLine (numbers v (chainLoop k (h :: t)))
  | 0, t, P, ha => by
      rw [chainLoop, (P.sorted (by omega)).1]
      exact steps_inLine (dir_cases h)
  | k + 1, t, P, ha => by
      rw [chainLoop]
      split
      · rename_i he
        rw [(P.sorted (P.rest_nil_ahead.mp he)).2]
        exact steps_inLine (dir_cases h)
      · obtain ⟨t', hpass, -, P', ha'⟩ := P.sort
        rw [hpass]
        exact P'.sorts (by omega)

/-- A pair alone is a chain. -/
theorem Placed.alone (P : Placed v h t 0 0) (k : ℕ) : InLine (numbers v (chainLoop k (h :: t))) := by
  have ht : t = [] := by
    have hlen := P.length
    rwa [List.length_map, Nat.add_zero, List.length_eq_zero_iff] at hlen
  subst ht
  cases k with
  | zero => exact .singleton _
  | succ k => exact .singleton _

/-- With nothing ahead of the first pair the list is in line only without backs behind. -/
theorem Placed.inLine_behind (P : Placed v h t (p + 1) 0) :
    InLine (numbers v (h :: t)) ↔ behind v h t (p + 1) = 0 := by
  have hlen := P.length
  rw [P.behind_zero]
  constructor
  · intro hl
    cases hs : t.map (mark v) with
    | nil =>
        rw [hs, List.length_nil] at hlen
        omega
    | cons y s =>
        rw [numbers, List.map_cons, hs] at hl
        have hn := P.nodup
        rw [List.map_cons, hs] at hn
        have hy : y = mark v h + -dir v h := by
          have hmem : y ∈ t.map (mark v) := hs ▸ List.mem_cons_self
          rw [P.marks, steps, or_iff_right List.not_mem_nil, mem_steps] at hmem
          obtain ⟨i, -, hi⟩ := hmem
          have hnext := (List.isChain_cons_cons.mp hl).1
          rcases dir_cases (v := v) h with hd | hd <;> rw [hd] at hi ⊢ <;> omega
        subst hy
        have hline := inLine_steps (by rcases dir_cases (v := v) h with hd | hd <;> omega) hl hn
        rw [hs, List.length_cons] at hlen
        rw [lefts, hs, hline, hlen, Nat.add_zero, ← sub_eq_add_neg, gather_of_steps]
  · intro hl
    have hall : (lefts v h t).1 = t.map (mark v) := by
      have hleft := (gather_perm (σ := -dir v h) (x := mark v h - dir v h)
        (l := t.map (mark v))).length_eq
      refine gather_all ?_
      rw [← List.length_eq_zero_iff]
      rw [List.length_append, show (gather _ _ _).1 = _ from hl, length_steps, hlen] at hleft
      omega
    rw [numbers, List.map_cons, ← hall, hl, sub_eq_add_neg]
    exact steps_inLine (k := p + 2) (by rcases dir_cases (v := v) h with hd | hd <;> omega)

/-- At an end of the path that the first pair points at, each pass counts the number behind down by
one: the list is in line if that takes just the passes there are. -/
theorem Placed.stuck : ∀ {k : ℕ} {t : List (Ijp β γ)}, Placed v h t (p + 2) 0 →
    (InLine (numbers v (chainLoop k (h :: t))) ↔ behind v h t (p + 2) = k)
  | 0, t, P => P.inLine_behind
  | k + 1, t, P => by
      rw [chainLoop]
      by_cases hb : behind v h t (p + 2) = 0
      · rw [if_pos (P.rest_nil_behind.mpr hb)]
        refine iff_of_false (fun hl => ?_) (by omega)
        rw [numbers, P.pass_behind, P.behind_zero.mp hb] at hl
        exact absurd (turned_inLine (dir_cases h) hl) (Nat.succ_ne_zero p)
      · obtain ⟨t', hpass, -, P', hb'⟩ := P.stay
        rw [if_neg (mt P.rest_nil_behind.mp hb), hpass, P'.stuck, hb' hb, Nat.add_right_cancel_iff]

/-! ## Pairs that point at each other -/

/-- With two pairs ahead the list of a pass that has pairs behind is not in line. -/
theorem Placed.pass_bent (P : Placed v h t (p + 1) (q + 2)) :
    ¬ InLine (numbers v (pass (h :: t)).1) := by
  intro hl
  obtain ⟨j, -, hleft, -, -⟩ := P.lefts_line
  obtain ⟨k, -, hright, -, -⟩ := P.rights_line
  have hperm : (numbers v (pass (h :: t)).1).Perm (numbers v (h :: t)) := pass_perm.map _
  have hn := hperm.nodup_iff.mpr P.nodup
  have hfar : mark v h + dir v h + dir v h ∈ numbers v (pass (h :: t)).1 := by
    rw [hperm.mem_iff]
    have h1 := P.right_mem (i := 1)
    rw [Nat.cast_one, one_mul] at h1
    exact List.mem_cons_of_mem _ (h1.mpr (by omega))
  rw [numbers, P.pass_behind] at hl hn hfar
  rw [hleft] at hl
  obtain rfl := turned_inLine (dir_cases h) hl
  rw [hright] at hl
  obtain rfl := kept_inLine (dir_cases h) hl
  rw [hleft, hright] at hn hfar
  have hline := inLine_steps (σ := -dir v h) (x := mark v h + dir v h)
    (l := (mark v h - dir v h) :: (rights v h t).2)
    (by rcases dir_cases (v := v) h with hd | hd <;> omega)
  rw [add_neg_cancel_right] at hline
  have hd := dir_ne_zero (v := v) h
  have hfar' : mark v h + dir v h + dir v h ∈ (mark v h + dir v h) ::
      (mark v h :: (mark v h - dir v h) :: (rights v h t).2) := hfar
  rcases List.mem_cons.mp hfar' with he | hmem
  · omega
  · rw [hline hl hn, mem_steps] at hmem
    obtain ⟨i, -, hi⟩ := hmem
    rcases dir_cases (v := v) h with hd | hd <;> rw [hd] at hi <;> omega

/-- Pairs with the same number are one. -/
theorem Placed.same (P : Placed v h t p q) {e e' : Ijp β γ} (he : e ∈ h :: t) (he' : e' ∈ h :: t)
    (hm : mark v e = mark v e') : e = e' :=
  List.inj_on_of_nodup_map P.nodup he he' hm

/-- If the pair ahead points back and has another one behind it, the two change places in each pass. -/
theorem Placed.swing : ∀ {k : ℕ} {h : Ijp β γ} {t : List (Ijp β γ)} {p q : ℕ},
    Placed v h t (p + 1) (q + 2) →
    (∃ e ∈ t, mark v e = mark v h + dir v h ∧ dir v e = -dir v h) →
    ¬ InLine (numbers v (chainLoop (k + 1) (h :: t)))
  | k, h, t, p, q, P, he => by
      rw [chainLoop]
      split
      · exact P.pass_bent
      · cases k with
        | zero => exact P.pass_bent
        | succ k =>
            obtain ⟨j, -, hr, -, -⟩ := P.rights_line
            obtain ⟨h', t', hpass, hm, hin, -⟩ := P.move_marks hr
            obtain ⟨e, he, hem, hed⟩ := he
            obtain rfl : e = h' :=
              P.same (List.mem_cons_of_mem _ he) (List.mem_cons_of_mem _ hin) (hem.trans hm.symm)
            rw [hpass]
            refine Placed.swing (P.move_back hpass hm hed) ⟨h, ?_, by rw [hm, hed]; ring, by
              rw [hed, neg_neg]⟩
            have hmem : h ∈ e :: t' := (hpass ▸ pass_perm (l := h :: t)).symm.subset List.mem_cons_self
            refine (List.mem_cons.mp hmem).resolve_left fun he' => ?_
            exact absurd (he' ▸ List.mem_map_of_mem he) P.head_notMem

/-! ## On the way -/

/-- The first `k` pairs ahead point where the first pair does. -/
def PointOn (v : List Jan) (h : Ijp β γ) (t : List (Ijp β γ)) (k : ℕ) : Prop :=
  ∀ e ∈ t, ∀ i < k, mark v e = mark v h + (i + 1 : ℕ) * dir v h → dir v e = dir v h

/-- The pair behind `k` pairs ahead points back. -/
def PointBack (v : List Jan) (h : Ijp β γ) (t : List (Ijp β γ)) (k : ℕ) : Prop :=
  ∀ e ∈ t, mark v e = mark v h + (k + 1 : ℕ) * dir v h → dir v e = -dir v h

/-- The number behind when the first pair has gone past `q` pairs. -/
def rounds : ℕ → ℕ → ℕ → ℕ
  | 0, _, c => c
  | q + 1, p, c => rounds q (p + 1) (2 * countDown p c)

/-- The first pair goes on to the end of the path: there the last pair points back, or the number behind
takes just the passes that are left of `k`. -/
def Settles (v : List Jan) (h : Ijp β γ) (t : List (Ijp β γ)) (p q k : ℕ) : Prop :=
  (∃ n, q = n + 1 ∧ PointOn v h t n ∧ PointBack v h t n) ∨
    (PointOn v h t q ∧ q + rounds q p (behind v h t p) = k)

/-- If the pair ahead points on, the others are the same for it. -/
theorem pointOn_next {h' : Ijp β γ} {t' : List (Ijp β γ)} (P : Placed v h t p q)
    (hperm : (h' :: t').Perm (h :: t)) (hin : h' ∈ t) (hm : mark v h' = mark v h + dir v h)
    (hd : dir v h' = dir v h) (n : ℕ) :
    (PointOn v h t (n + 1) ↔ PointOn v h' t' n) ∧
      (PointBack v h t (n + 1) ↔ PointBack v h' t' n) := by
  have hplace : ∀ i : ℕ, mark v h' + (i + 1 : ℕ) * dir v h' =
      mark v h + (i + 1 + 1 : ℕ) * dir v h := by
    intro i
    rw [hm, hd]
    push_cast
    ring
  have hto : ∀ {e : Ijp β γ} {i : ℕ}, e ∈ t → mark v e = mark v h + (i + 1 + 1 : ℕ) * dir v h →
      e ∈ t' := by
    intro e i he hem
    refine (List.mem_cons.mp (hperm.symm.subset (List.mem_cons_of_mem _ he))).resolve_left ?_
    rintro rfl
    have := point_inj (x := mark v h) (i := 1) (j := i + 1 + 1) (dir_ne_zero h)
      (by rw [Nat.cast_one, one_mul, ← hm, hem])
    omega
  have hfrom : ∀ {e : Ijp β γ} {i : ℕ}, e ∈ t' → mark v e = mark v h + (i + 1 + 1 : ℕ) * dir v h →
      e ∈ t := by
    intro e i he hem
    refine (List.mem_cons.mp (hperm.subset (List.mem_cons_of_mem _ he))).resolve_left ?_
    rintro rfl
    exact absurd (point_self (dir_ne_zero e) hem) (Nat.succ_ne_zero _)
  constructor
  · constructor
    · intro hon e he i hi hem
      rw [hplace] at hem
      rw [hd]
      exact hon e (hfrom he hem) (i + 1) (by omega) hem
    · intro hon e he i hi hem
      cases i with
      | zero =>
          have hsame : e = h' := P.same (List.mem_cons_of_mem _ he) (List.mem_cons_of_mem _ hin)
            (by rw [hem, hm, Nat.cast_one, one_mul])
          rw [hsame, hd]
      | succ i => rw [← hd, hon e (hto he hem) i (by omega) (by rw [hplace, hem])]
  · constructor
    · intro hon e he hem
      rw [hplace] at hem
      rw [hd]
      exact hon e (hfrom he hem) hem
    · intro hon e he hem
      rw [← hd, hon e (hto he hem) (by rw [hplace, hem])]

theorem settles_zero (k : ℕ) : Settles v h t p 0 k ↔ behind v h t p = k := by
  rw [Settles, rounds, Nat.zero_add]
  constructor
  · rintro (⟨n, hn, -⟩ | ⟨-, hb⟩)
    · omega
    · exact hb
  · exact fun hb => .inr ⟨fun e _ i hi => absurd hi (Nat.not_lt_zero i), hb⟩

/-- One pass on the way. -/
theorem Placed.step (P : Placed v h t (p + 1) (q + 1))
    (hb : ¬ (behind v h t (p + 1) = 0 ∧ ahead v h t (q + 1) = 0)) {k : ℕ} (hk : p + 2 ≤ k) :
    ∃ h' t', chainLoop (k + 1) (h :: t) = chainLoop k (h' :: t') ∧
      ((dir v h' = dir v h ∧ Placed v h' t' (p + 2) q ∧
          behind v h' t' (p + 2) = 2 * countDown (p + 1) (behind v h t (p + 1)) ∧
          ahead v h' t' q = ahead v h t (q + 1) - 1 ∧
          (Settles v h t (p + 1) (q + 1) (k + 1) ↔ Settles v h' t' (p + 2) q k)) ∨
        ((InLine (numbers v (chainLoop k (h' :: t'))) ↔ q = 0) ∧
          (Settles v h t (p + 1) (q + 1) (k + 1) ↔ q = 0))) := by
  obtain ⟨j, -, hr, -, -⟩ := P.rights_line
  obtain ⟨h', t', hpass, hm, hin, ht⟩ := P.move_marks hr
  have hperm : (h' :: t').Perm (h :: t) := hpass ▸ pass_perm
  refine ⟨h', t', by rw [chainLoop, if_neg (mt P.rest_nil.mp hb), hpass], ?_⟩
  have hdir : dir v h' = dir v h ∨ dir v h' = -dir v h := by
    rcases dir_cases (v := v) h with hd | hd <;> rcases dir_cases (v := v) h' with hd' | hd' <;>
      omega
  have hne := dir_ne_zero (v := v) h
  have hfirst : ∀ e ∈ t, mark v e = mark v h + (0 + 1 : ℕ) * dir v h → e = h' := by
    intro e he hem
    refine P.same (List.mem_cons_of_mem _ he) (List.mem_cons_of_mem _ hin) ?_
    rw [hem, hm]
    push_cast
    ring
  have hfirst' : mark v h' = mark v h + (0 + 1 : ℕ) * dir v h := by
    rw [hm]
    push_cast
    ring
  rcases hdir with hd | hd
  · refine .inl ⟨hd, P.move_on hpass hm hd, P.move_behind hm hd ht, P.move_ahead hm hd hr ht, ?_⟩
    have hnext := pointOn_next P hperm hin hm hd
    rw [Settles, Settles, (hnext q).1, rounds, P.move_behind hm hd ht, Nat.add_right_comm,
      Nat.add_right_cancel_iff]
    refine or_congr_left ⟨?_, ?_⟩
    · rintro ⟨n, hn, hon, hback⟩
      cases n with
      | zero =>
          have := hback h' hin hfirst'
          omega
      | succ n => exact ⟨n, by omega, (hnext n).1.mp hon, (hnext n).2.mp hback⟩
    · rintro ⟨n, hn, hon, hback⟩
      exact ⟨n + 1, by omega, (hnext n).1.mpr hon, (hnext n).2.mpr hback⟩
  · refine .inr ⟨?_, ?_⟩
    · have P' := P.move_back hpass hm hd
      cases q with
      | zero =>
          refine iff_of_true (P'.sorts (le_trans ?_ hk)) rfl
          exact le_trans ones_le (by omega)
      | succ q =>
          refine iff_of_false ?_ (Nat.succ_ne_zero q)
          obtain ⟨k, rfl⟩ : ∃ n, k = n + 1 := ⟨k - 1, by omega⟩
          refine P'.swing ⟨h, ?_, by rw [hm, hd]; ring, by rw [hd, neg_neg]⟩
          refine (List.mem_cons.mp (hperm.symm.subset List.mem_cons_self)).resolve_left fun he => ?_
          exact absurd (he ▸ List.mem_map_of_mem hin) P.head_notMem
    · have hturn : ∀ n, ¬ PointOn v h t (n + 1) := by
        intro n hon
        have := hon h' hin 0 (by omega) hfirst'
        omega
      constructor
      · rintro (⟨n, hn, hon, -⟩ | ⟨hon, -⟩)
        · cases n with
          | zero => omega
          | succ n => exact absurd hon (hturn n)
        · exact absurd hon (hturn q)
      · rintro rfl
        refine .inl ⟨0, rfl, fun e _ i hi => absurd hi (Nat.not_lt_zero i), fun e he hem => ?_⟩
        rw [hfirst e he hem, hd]

/-- Once the number behind is even and not 0, no pass before the end of the path is the last. -/
theorem Placed.walk : ∀ {q : ℕ} {h : Ijp β γ} {t : List (Ijp β γ)} {p k : ℕ},
    Placed v h t (p + 2) q → behind v h t (p + 2) ≠ 0 → 2 ∣ behind v h t (p + 2) →
    2 * q + p + 2 ≤ k →
    (InLine (numbers v (chainLoop k (h :: t))) ↔ Settles v h t (p + 2) q k)
  | 0, h, t, p, k, P, _, _, _ => by
      rw [P.stuck, settles_zero]
  | q + 1, h, t, p, k, P, hb, heven, hk => by
      obtain ⟨k, rfl⟩ : ∃ n, k = n + 1 := ⟨k - 1, by omega⟩
      obtain ⟨h', t', hloop, hnext | ⟨hline, hset⟩⟩ := P.step (fun h => hb h.1) (k := k) (by omega)
      · obtain ⟨-, P', hb', -, hset⟩ := hnext
        rw [hloop, hset]
        have hcount : countDown (p + 2) (behind v h t (p + 2)) ≠ 0 := by
          rw [countDown, if_neg hb]
          omega
        refine P'.walk ?_ ⟨_, hb'⟩ (by omega)
        rw [hb']
        exact Nat.mul_ne_zero (by decide) hcount
      · rw [hloop, hline, hset]

/-- The first two passes do not find all pairs. -/
def Unfinished (v : List Jan) (h : Ijp β γ) (t : List (Ijp β γ)) (p q : ℕ) : Prop :=
  q = 0 ∨ (¬ (behind v h t p = 0 ∧ ahead v h t q = 0) ∧
    (2 ≤ q → ¬ (countDown p (behind v h t p) = 0 ∧ ahead v h t q ≤ 1)))

/-- A pass that is the last one leaves a list in line only if it has one pair on each side. -/
theorem Placed.last (P : Placed v h t (p + 1) (q + 1)) (hb : behind v h t (p + 1) = 0)
    (ha : ahead v h t (q + 1) = 0) (k : ℕ) :
    InLine (numbers v (chainLoop (k + 1) (h :: t))) ↔ p = 0 ∧ q = 0 := by
  have hrest : (rights v h t).2 = [] := by
    have he := P.rest_nil.mpr ⟨hb, ha⟩
    rw [List.isEmpty_iff, ← List.map_eq_nil_iff (f := mark v), (pass_marks P.path P.nodup).2] at he
    exact he
  rw [chainLoop, if_pos (P.rest_nil.mpr ⟨hb, ha⟩), numbers, P.pass_behind, P.behind_zero.mp hb,
    P.ahead_zero.mp ha, hrest]
  constructor
  · intro hl
    obtain rfl := turned_inLine (dir_cases h) hl
    exact ⟨rfl, kept_inLine (dir_cases h) hl⟩
  · rintro ⟨rfl, rfl⟩
    have hline := steps_inLine (σ := -dir v h) (k := 3) (x := mark v h + dir v h)
      (by rcases dir_cases (v := v) h with hd | hd <;> omega)
    rwa [steps_cons, steps_cons, steps_cons, add_neg_cancel_right, ← sub_eq_add_neg] at hline

/-- Two pairs are a chain after one pass. -/
theorem Placed.pair (P : Placed v h t 1 0) (k : ℕ) :
    InLine (numbers v (chainLoop (k + 1) (h :: t))) := by
  have hrest := P.rest_nil_behind.mpr rfl
  have hr : (rights v h t).2 = [] := by
    rw [List.isEmpty_iff, ← List.map_eq_nil_iff (f := mark v), (pass_marks P.path P.nodup).2] at hrest
    exact hrest
  have hline := steps_inLine (σ := -dir v h) (k := 2) (x := mark v h)
    (by rcases dir_cases (v := v) h with hd | hd <;> omega)
  rwa [chainLoop, if_pos (P.rest_nil_behind.mpr rfl), numbers, P.pass_behind, P.behind_zero.mp rfl, hr,
    P.rights_none]

theorem Placed.chained_further (P : Placed v h t (p + 1) (q + 1)) (hpq : p + 1 + (q + 1) ≤ 126)
    (hdone : ¬ (behind v h t (p + 1) = 0 ∧ ahead v h t (q + 1) = 0)) :
    InLine (numbers v (chainLoop 255 (h :: t))) ↔ (p + 1 = 1 ∧ q + 1 ≤ 1) ∨
      (Unfinished v h t (p + 1) (q + 1) ∧ Settles v h t (p + 1) (q + 1) 255) := by
  have hmore : ¬ (p + 1 = 1 ∧ q + 1 ≤ 1) := by
    rintro ⟨hp, hq⟩
    obtain rfl : p = 0 := by omega
    obtain rfl : q = 0 := by omega
    exact hdone ⟨rfl, rfl⟩
  rw [or_iff_right hmore]
  obtain ⟨h', t', hloop, hnext | ⟨hline, hset⟩⟩ := P.step hdone (k := 254) (by omega)
  · obtain ⟨-, P', hb', ha', hset⟩ := hnext
    rw [hloop, hset]
    cases q with
    | zero =>
        rw [P'.stuck, settles_zero, and_iff_right]
        exact .inr ⟨hdone, fun h2 => absurd h2 (by decide)⟩
    | succ q =>
        by_cases hb : countDown (p + 1) (behind v h t (p + 1)) = 0
        · rw [hb, Nat.mul_zero] at hb'
          by_cases ha : ahead v h t (q + 1 + 1) ≤ 1
          · -- the second pass is the last one
            rw [P'.last hb' (by omega)]
            refine iff_of_false (by omega) ?_
            rintro ⟨hu, -⟩
            rcases hu with h0 | ⟨-, hu⟩
            · omega
            · exact hu (by omega) ⟨hb, ha⟩
          · have hu : Unfinished v h t (p + 1) (q + 1 + 1) := .inr ⟨hdone, fun _ hd => ha hd.2⟩
            rw [and_iff_right hu]
            obtain ⟨h'', t'', hloop', hnext | ⟨hline, hset⟩⟩ :=
              P'.step (fun hd => ha (by omega)) (k := 253) (by omega)
            · obtain ⟨-, P'', hb'', -, hset⟩ := hnext
              rw [hloop', hset]
              refine P''.walk ?_ ⟨_, hb''⟩ (by omega)
              have hpow : 2 ≤ 2 ^ (p + 1) := Nat.le_self_pow (Nat.succ_ne_zero p) 2
              rw [hb'', hb', countDown, if_pos rfl]
              show 2 * (2 ^ (p + 1) - 1) ≠ 0
              omega
            · rw [hloop', hline, hset]
        · have hu : Unfinished v h t (p + 1) (q + 1 + 1) := .inr ⟨hdone, fun _ hd => hb hd.1⟩
          rw [and_iff_right hu]
          refine P'.walk ?_ ⟨_, hb'⟩ (by omega)
          rw [hb']
          exact Nat.mul_ne_zero (by decide) hb
  · rw [hloop, hline, hset]
    constructor
    · rintro rfl
      exact ⟨.inr ⟨hdone, fun h2 => absurd h2 (by decide)⟩, rfl⟩
    · exact fun hq => hq.2

/-- The list becomes a chain exactly if nothing is behind the first pair, or one pair at most on each
side, or the first pair comes to a last pair that points back, or the counter stops in time. -/
theorem Placed.chained (P : Placed v h t p q) (hpq : p + q ≤ 126) :
    InLine (numbers v (chainLoop 255 (h :: t))) ↔
      p = 0 ∨ (p = 1 ∧ q ≤ 1) ∨ (Unfinished v h t p q ∧ Settles v h t p q 255) := by
  cases p with
  | zero =>
      refine iff_of_true ?_ (.inl rfl)
      cases q with
      | zero => exact P.alone 255
      | succ q => exact P.sorts (le_trans ones_le (by omega))
  | succ p =>
      rw [or_iff_right (Nat.succ_ne_zero p)]
      cases q with
      | zero =>
          cases p with
          | zero => exact iff_of_true (P.pair 254) (.inl ⟨rfl, Nat.zero_le 1⟩)
          | succ p =>
              rw [P.stuck, settles_zero]
              constructor
              · exact fun hb => .inr ⟨.inl rfl, hb⟩
              · rintro (⟨hp, -⟩ | ⟨-, hb⟩)
                · omega
                · exact hb
      | succ q =>
          by_cases hdone : behind v h t (p + 1) = 0 ∧ ahead v h t (q + 1) = 0
          · rw [P.last hdone.1 hdone.2]
            constructor
            · rintro ⟨rfl, rfl⟩
              exact .inl ⟨rfl, le_rfl⟩
            · rintro (⟨hp, hq⟩ | ⟨hu, -⟩)
              · omega
              · rcases hu with h0 | ⟨hu, -⟩
                · omega
                · exact absurd hdone hu
          · exact P.chained_further hpq hdone

end AlchemyDB.Query.Join
