/-
# A pass over a path

The pairs of a path are numbered along it.  A pass collects the pairs behind and ahead of the first one
as far as the list has them in this order, and the next pass begins with the pair ahead: so the first
pair moves on to where it points.  What is collected behind is turned, and with it the lowest digits of
a binary number, the backs among the pairs behind; what is collected ahead is sorted.
-/
import AlchemyDB.Query.Join

namespace AlchemyDB.Query.Join

open Gather
open scoped List

variable {β γ : Type} {v : List Jan}

/-! ## Numbers along the path -/

/-- The number of an alias. -/
def place (v : List Jan) (j : Jan) : ℤ := v.idxOf j

/-- The number of a pair: that of the alias it begins with on the path. -/
def mark (v : List Jan) (e : Ijp β γ) : ℤ := min (place v e.lhs.jan) (place v e.rhs.jan)

/-- Where the pair points: 1 if its right-hand side is ahead. -/
def dir (v : List Jan) (e : Ijp β γ) : ℤ :=
  if place v e.lhs.jan < place v e.rhs.jan then 1 else -1

/-- The pair joins two aliases that follow each other. -/
structure OnPath (v : List Jan) (e : Ijp β γ) : Prop where
  lhs : e.lhs.jan ∈ v
  rhs : e.rhs.jan ∈ v
  next : place v e.rhs.jan = place v e.lhs.jan + 1 ∨ place v e.lhs.jan = place v e.rhs.jan + 1

theorem dir_cases (e : Ijp β γ) : dir v e = 1 ∨ dir v e = -1 := by
  rw [dir]
  split
  · exact .inl rfl
  · exact .inr rfl

theorem OnPath.lhs_place {e : Ijp β γ} (h : OnPath v e) :
    2 * place v e.lhs.jan = 2 * mark v e + 1 - dir v e := by
  rw [mark, dir]
  split
  · rw [min_eq_left (by omega)]
    omega
  · rcases h.next with hn | hn
    · omega
    · rw [min_eq_right (by omega)]
      omega

theorem OnPath.rhs_place {e : Ijp β γ} (h : OnPath v e) :
    2 * place v e.rhs.jan = 2 * mark v e + 1 + dir v e := by
  rw [mark, dir]
  split
  · rw [min_eq_left (by omega)]
    rcases h.next with hn | hn <;> omega
  · rw [min_eq_right (by omega)]
    omega

theorem place_inj {j j' : Jan} (hj : j ∈ v) : place v j = place v j' ↔ j = j' := by
  rw [place, place, Nat.cast_inj, List.idxOf_inj hj]

/-! ## The scans -/

/-- A scan from an alias on gathers the pairs from the number behind it on. -/
theorem collect_marks {σ : ℤ} (hσ : σ = 1 ∨ σ = -1) : ∀ {l : List (Ijp β γ)} {j : Jan} {x : ℤ},
    (∀ e ∈ l, OnPath v e) → (l.map (mark v)).Nodup → j ∈ v → 2 * place v j = 2 * x + 1 - σ →
    x - σ ∉ l.map (mark v) →
    (collect j l).1.map (mark v) = (gather σ x (l.map (mark v))).1 ∧
      (collect j l).2.map (mark v) = (gather σ x (l.map (mark v))).2
  | [], _, _, _, _, _, _, _ => ⟨rfl, rfl⟩
  | e :: l, j, x, hpath, hn, hj, hx, hback => by
      obtain ⟨he, hpath⟩ := List.forall_mem_cons.mp hpath
      obtain ⟨hel, hn⟩ := List.nodup_cons.mp hn
      obtain ⟨hne, hback⟩ := List.ne_and_not_mem_of_not_mem_cons hback
      have hl := he.lhs_place
      have hr := he.rhs_place
      have hd := dir_cases (v := v) e
      have hnext : ∀ {j' : Jan}, j' ∈ v → mark v e = x → 2 * place v j' = 2 * x + 1 + σ →
          (collect j' l).1.map (mark v) = (gather σ (x + σ) (l.map (mark v))).1 ∧
            (collect j' l).2.map (mark v) = (gather σ (x + σ) (l.map (mark v))).2 := by
        intro j' hj' hm hp
        exact collect_marks hσ hpath hn hj' (by omega) (by rwa [add_sub_cancel_right, ← hm])
      rw [collect, List.map_cons, gather]
      by_cases h1 : e.lhs.jan = j
      · have hm : mark v e = x := by
          rw [h1] at hl
          omega
        obtain ⟨e1, e2⟩ := hnext he.rhs hm (by rw [h1] at hl; omega)
        rw [if_pos h1, if_pos hm, List.map_cons, e1, e2]
        exact ⟨rfl, rfl⟩
      · by_cases h2 : e.rhs.jan = j
        · have hm : mark v e = x := by
            rw [h2] at hr
            omega
          obtain ⟨e1, e2⟩ := hnext he.lhs hm (by rw [h2] at hr; omega)
          rw [if_neg h1, if_pos h2, if_pos hm, List.map_cons, e1, e2]
          exact ⟨rfl, rfl⟩
        · have hm : mark v e ≠ x := by
            intro hm
            have h1' := mt (place_inj he.lhs).mp h1
            have h2' := mt (place_inj he.rhs).mp h2
            omega
          obtain ⟨e1, e2⟩ := collect_marks hσ hpath hn hj hx hback
          rw [if_neg h1, if_neg h2, if_neg hm, List.map_cons, e1, e2]
          exact ⟨rfl, rfl⟩

/-! ## A pass -/

/-- The pairs are on the path, with different numbers: `p` of them behind the first, `q` ahead. -/
structure Placed (v : List Jan) (h : Ijp β γ) (t : List (Ijp β γ)) (p q : ℕ) : Prop where
  path : ∀ e ∈ h :: t, OnPath v e
  nodup : ((h :: t).map (mark v)).Nodup
  marks : ∀ y, y ∈ t.map (mark v) ↔
    y ∈ steps (dir v h) (mark v h + dir v h) q ∨
      y ∈ steps (-dir v h) (mark v h - dir v h) p

/-- What the scan behind the first pair gathers, and what it leaves. -/
def lefts (v : List Jan) (h : Ijp β γ) (t : List (Ijp β γ)) : List ℤ × List ℤ :=
  gather (-dir v h) (mark v h - dir v h) (t.map (mark v))

/-- What the scan ahead of it gathers out of that, and what it leaves. -/
def rights (v : List Jan) (h : Ijp β γ) (t : List (Ijp β γ)) : List ℤ × List ℤ :=
  gather (dir v h) (mark v h + dir v h) (lefts v h t).2

theorem collect_subset {j : Jan} : ∀ {l : List (Ijp β γ)},
    ((collect j l).1 ++ (collect j l).2).Perm l
  | [] => .refl _
  | e :: l => by
      rw [collect]
      split
      · exact collect_subset.cons e
      · split
        · exact collect_subset.cons e
        · exact List.perm_middle.trans (collect_subset.cons e)

theorem pass_perm : ∀ {l : List (Ijp β γ)}, (pass l).1.Perm l
  | [] => .refl _
  | h :: t => by
      have hl := collect_subset (j := h.lhs.jan) (l := t)
      have hr := collect_subset (j := h.rhs.jan) (l := (collect h.lhs.jan t).2)
      simp only [pass]
      split
      · rename_i he
        rw [List.isEmpty_iff] at he
        rw [he, List.nil_append] at hl
        exact ((hr.trans hl).cons h)
      · rw [List.reverse_append, List.reverse_singleton, List.singleton_append, List.cons_append]
        refine List.perm_middle.trans (List.Perm.cons h ?_)
        calc (collect h.rhs.jan (collect h.lhs.jan t).2).1 ++
              ((collect h.lhs.jan t).1.reverse ++ (collect h.rhs.jan (collect h.lhs.jan t).2).2)
            ~ (collect h.lhs.jan t).1.reverse ++ ((collect h.rhs.jan (collect h.lhs.jan t).2).1 ++
              (collect h.rhs.jan (collect h.lhs.jan t).2).2) := List.perm_append_comm_assoc _ _ _
          _ ~ (collect h.lhs.jan t).1 ++ (collect h.lhs.jan t).2 :=
              (List.reverse_perm _).append hr
          _ ~ t := hl

theorem pass_marks {h : Ijp β γ} {t : List (Ijp β γ)} (hpath : ∀ e ∈ h :: t, OnPath v e)
    (hn : ((h :: t).map (mark v)).Nodup) :
    (pass (h :: t)).1.map (mark v) =
        (if (lefts v h t).1 = [] then mark v h :: ((rights v h t).1 ++ (rights v h t).2)
        else (rights v h t).1 ++ (mark v h :: ((lefts v h t).1.reverse ++ (rights v h t).2))) ∧
      (pass (h :: t)).2.map (mark v) = (rights v h t).2 := by
  obtain ⟨hh, hpath⟩ := List.forall_mem_cons.mp hpath
  obtain ⟨hm, hn⟩ := List.nodup_cons.mp hn
  have hl := hh.lhs_place
  have hr := hh.rhs_place
  have hd := dir_cases (v := v) h
  obtain ⟨l1, l2⟩ := collect_marks (σ := -dir v h) (j := h.lhs.jan) (x := mark v h - dir v h)
    (by omega) hpath hn hh.lhs (by omega) (by simpa using hm)
  have hsub := collect_subset (j := h.lhs.jan) (l := t)
  have hpath2 : ∀ e ∈ (collect h.lhs.jan t).2, OnPath v e := fun e he =>
    hpath e (hsub.subset (List.mem_append_right _ he))
  have hn2 : ((collect h.lhs.jan t).2.map (mark v)).Nodup :=
    (((hsub.map (mark v)).nodup_iff.mpr hn).sublist
      ((List.sublist_append_right _ _).map (mark v)))
  have hm2 : mark v h ∉ (collect h.lhs.jan t).2.map (mark v) := fun hin =>
    hm ((hsub.map (mark v)).subset (by
      rw [List.map_append]
      exact List.mem_append_right _ hin))
  obtain ⟨r1, r2⟩ := collect_marks (σ := dir v h) (j := h.rhs.jan) (x := mark v h + dir v h)
    hd hpath2 hn2 hh.rhs (by omega) (by simpa using hm2)
  rw [l2] at r1 r2
  have hempty : (collect h.lhs.jan t).1.isEmpty = true ↔ (lefts v h t).1 = [] := by
    rw [lefts, ← l1, List.isEmpty_iff, List.map_eq_nil_iff]
  simp only [pass]
  refine ⟨?_, r2⟩
  by_cases he : (lefts v h t).1 = []
  · rw [if_pos (hempty.mpr he), if_pos (hempty.mpr he), if_pos he, List.reverse_nil,
      List.nil_append, List.cons_append, List.map_cons, List.map_append, r1, r2]
    rfl
  · rw [if_neg (mt hempty.mp he), if_neg (mt hempty.mp he), if_neg he, List.reverse_append,
      List.reverse_singleton, List.singleton_append, List.map_append, List.cons_append, List.map_cons,
      List.map_append, List.map_reverse, l1, r1, r2]
    rfl

/-! ## The two sides of the first pair -/

section Sides

variable {h : Ijp β γ} {t : List (Ijp β γ)} {p q : ℕ}

theorem dir_ne_zero (h : Ijp β γ) : dir v h ≠ 0 := by
  rcases dir_cases (v := v) h with hd | hd <;> omega

theorem Placed.head_notMem (P : Placed v h t p q) : mark v h ∉ t.map (mark v) :=
  (List.nodup_cons.mp P.nodup).1

theorem Placed.tail_nodup (P : Placed v h t p q) : (t.map (mark v)).Nodup :=
  (List.nodup_cons.mp P.nodup).2

theorem Placed.left_mem (P : Placed v h t p q) {i : ℕ} :
    mark v h - dir v h + i * -dir v h ∈ t.map (mark v) ↔ i < p := by
  rw [P.marks, mem_steps, mem_steps]
  constructor
  · rintro (⟨j, -, hj⟩ | ⟨j, hlt, hj⟩)
    · rcases dir_cases (v := v) h with hd | hd <;> rw [hd] at hj <;> omega
    · exact point_inj (neg_ne_zero.mpr (dir_ne_zero h)) hj ▸ hlt
  · exact fun hi => .inr ⟨i, hi, rfl⟩

theorem Placed.right_mem (P : Placed v h t p q) {i : ℕ} :
    mark v h + dir v h + i * dir v h ∈ t.map (mark v) ↔ i < q := by
  rw [P.marks, mem_steps, mem_steps]
  constructor
  · rintro (⟨j, hlt, hj⟩ | ⟨j, -, hj⟩)
    · exact point_inj (dir_ne_zero h) hj ▸ hlt
    · rcases dir_cases (v := v) h with hd | hd <;> rw [hd] at hj <;> omega
  · exact fun hi => .inl ⟨i, hi, rfl⟩

/-- No pair ahead is behind. -/
theorem right_notMem_left {i k : ℕ} :
    mark v h + dir v h + i * dir v h ∉ steps (-dir v h) (mark v h - dir v h) k := by
  rw [mem_steps]
  rintro ⟨j, -, hj⟩
  rcases dir_cases (v := v) h with hd | hd <;> rw [hd] at hj <;> omega

theorem left_notMem_right {i k : ℕ} :
    mark v h - dir v h + i * -dir v h ∉ steps (dir v h) (mark v h + dir v h) k := by
  rw [mem_steps]
  rintro ⟨j, -, hj⟩
  rcases dir_cases (v := v) h with hd | hd <;> rw [hd] at hj <;> omega

/-- The pairs behind are gathered up to one that comes too early, and the others keep their order. -/
theorem Placed.lefts_line (P : Placed v h t (p + 1) q) :
    ∃ j ≤ p, (lefts v h t).1 = steps (-dir v h) (mark v h - dir v h) (j + 1) ∧
      (∀ i < j, back (-dir v h) (mark v h - dir v h) (t.map (mark v)) i = false) ∧
      (j < p → back (-dir v h) (mark v h - dir v h) (t.map (mark v)) j = true) := by
  have hin : mark v h - dir v h ∈ t.map (mark v) := by
    have h0 := P.left_mem (i := 0)
    simpa using h0
  obtain ⟨j, hj, ht, hlow, hnext⟩ := taken_line (m := p) (neg_ne_zero.mpr (dir_ne_zero h))
    P.tail_nodup hin (fun i hi => P.left_mem.mpr (by omega))
    (mt P.left_mem.mp (by omega))
  exact ⟨j, hj, by rw [lefts, gather_steps, ht], hlow, hnext⟩

theorem Placed.lefts_none (P : Placed v h t 0 q) : lefts v h t = ([], t.map (mark v)) := by
  refine gather_none ?_
  have h0 := P.left_mem (i := 0)
  simpa using h0

/-- Behind the first pair one scan takes a part of the line. -/
theorem lefts_steps : ∃ k, (lefts v h t).1 = steps (-dir v h) (mark v h - dir v h) k :=
  ⟨_, gather_steps⟩

theorem lefts_back (i : ℕ) : back (dir v h) (mark v h + dir v h) (lefts v h t).2 i =
    back (dir v h) (mark v h + dir v h) (t.map (mark v)) i := by
  obtain ⟨k, hk⟩ := lefts_steps (v := v) (h := h) (t := t)
  refine precedes_gather ?_ ?_
  · rw [show (gather _ _ _).1 = _ from hk]
    exact right_notMem_left
  · rw [show (gather _ _ _).1 = _ from hk]
    exact right_notMem_left

theorem Placed.lefts_mem (P : Placed v h t p q) {i : ℕ} :
    mark v h + dir v h + i * dir v h ∈ (lefts v h t).2 ↔ i < q := by
  have hperm : ((lefts v h t).1 ++ (lefts v h t).2).Perm (t.map (mark v)) := gather_perm
  rw [← P.right_mem, ← hperm.mem_iff, List.mem_append]
  refine ⟨fun hi => .inr hi, fun hi => hi.resolve_left ?_⟩
  obtain ⟨k, hk⟩ := lefts_steps (v := v) (h := h) (t := t)
  rw [hk]
  exact right_notMem_left

theorem Placed.lefts_nodup (P : Placed v h t p q) : (lefts v h t).2.Nodup :=
  ((gather_perm (σ := -dir v h) (x := mark v h - dir v h)).nodup_iff.mpr P.tail_nodup).sublist
    (List.sublist_append_right _ _)

/-- The pairs ahead are gathered likewise. -/
theorem Placed.rights_line (P : Placed v h t p (q + 1)) :
    ∃ j ≤ q, (rights v h t).1 = steps (dir v h) (mark v h + dir v h) (j + 1) ∧
      (∀ i < j, back (dir v h) (mark v h + dir v h) (t.map (mark v)) i = false) ∧
      (j < q → back (dir v h) (mark v h + dir v h) (t.map (mark v)) j = true) := by
  have hin : mark v h + dir v h ∈ (lefts v h t).2 := by
    have h0 := P.lefts_mem (i := 0)
    simpa using h0
  obtain ⟨j, hj, ht, hlow, hnext⟩ := taken_line (m := q) (dir_ne_zero h)
    P.lefts_nodup hin (fun i hi => P.lefts_mem.mpr (by omega))
    (mt P.lefts_mem.mp (by omega))
  refine ⟨j, hj, by rw [rights, gather_steps, ht], fun i hi => ?_, fun hj => ?_⟩
  · rw [← lefts_back, hlow i hi]
  · rw [← lefts_back, hnext hj]

theorem Placed.rights_none (P : Placed v h t p 0) : rights v h t = ([], (lefts v h t).2) := by
  refine gather_none ?_
  have h0 := P.lefts_mem (i := 0)
  simpa using h0

/-- What neither scan has gathered keeps its order. -/
theorem rest_right {i k : ℕ} (hk : (rights v h t).1 = steps (dir v h) (mark v h + dir v h) k)
    (hi : k ≤ i) :
    precedes (mark v h + dir v h + (i + 1 : ℕ) * dir v h) (mark v h + dir v h + i * dir v h)
      (rights v h t).2 = back (dir v h) (mark v h + dir v h) (t.map (mark v)) i := by
  have hout : ∀ {i : ℕ}, k ≤ i →
      mark v h + dir v h + i * dir v h ∉ steps (dir v h) (mark v h + dir v h) k := by
    intro i hi hmem
    obtain ⟨j, hj, he⟩ := mem_steps.mp hmem
    exact absurd (point_inj (dir_ne_zero h) he) (by omega)
  rw [← lefts_back]
  refine precedes_gather ?_ ?_
  · rw [show (gather _ _ _).1 = _ from hk]
    exact hout (by omega)
  · rw [show (gather _ _ _).1 = _ from hk]
    exact hout hi

theorem rest_left {i k : ℕ} (hk : (lefts v h t).1 = steps (-dir v h) (mark v h - dir v h) k)
    (hi : k ≤ i) :
    precedes (mark v h - dir v h + (i + 1 : ℕ) * -dir v h) (mark v h - dir v h + i * -dir v h)
      (rights v h t).2 = back (-dir v h) (mark v h - dir v h) (t.map (mark v)) i := by
  have hout : ∀ {i : ℕ}, k ≤ i →
      mark v h - dir v h + i * -dir v h ∉ steps (-dir v h) (mark v h - dir v h) k := by
    intro i hi hmem
    obtain ⟨j, hj, he⟩ := mem_steps.mp hmem
    exact absurd (point_inj (neg_ne_zero.mpr (dir_ne_zero h)) he) (by omega)
  obtain ⟨k', hk'⟩ : ∃ k', (rights v h t).1 = steps (dir v h) (mark v h + dir v h) k' :=
    ⟨_, gather_steps⟩
  have hfar : ∀ {i : ℕ}, mark v h - dir v h + i * -dir v h ∉ (rights v h t).1 := by
    intro i
    rw [hk']
    exact left_notMem_right
  calc precedes _ _ (rights v h t).2
      = precedes (mark v h - dir v h + (i + 1 : ℕ) * -dir v h)
          (mark v h - dir v h + i * -dir v h) (lefts v h t).2 := precedes_gather hfar hfar
    _ = back (-dir v h) (mark v h - dir v h) (t.map (mark v)) i := by
        refine precedes_gather ?_ ?_
        · rw [show (gather _ _ _).1 = _ from hk]
          exact hout (by omega)
        · rw [show (gather _ _ _).1 = _ from hk]
          exact hout hi

/-! ## The counters -/

/-- The backs among the pairs behind the first, as a binary number. -/
def behind (v : List Jan) (h : Ijp β γ) (t : List (Ijp β γ)) (p : ℕ) : ℕ :=
  number (back (-dir v h) (mark v h - dir v h) (t.map (mark v))) (p - 1)

/-- How many backs there are among the pairs ahead of it. -/
def ahead (v : List Jan) (h : Ijp β γ) (t : List (Ijp β γ)) (q : ℕ) : ℕ :=
  ones (back (dir v h) (mark v h + dir v h) (t.map (mark v))) (q - 1)

/-- What a pass makes of the number behind; from 0 it goes to the largest. -/
def countDown (p c : ℕ) : ℕ := if c = 0 then 2 ^ (p - 1) - 1 else c - 1

theorem Placed.behind_zero (P : Placed v h t (p + 1) q) : behind v h t (p + 1) = 0 ↔
    (lefts v h t).1 = steps (-dir v h) (mark v h - dir v h) (p + 1) := by
  obtain ⟨j, hj, hl, hlow, hnext⟩ := P.lefts_line
  rw [behind, number_eq_zero, hl]
  constructor
  · intro h0
    rcases Nat.lt_or_eq_of_le hj with hlt | rfl
    · exact absurd (h0 j hlt) (by rw [hnext hlt]; decide)
    · rfl
  · intro he
    have hlen := congrArg List.length he
    rw [length_steps, length_steps] at hlen
    exact fun i hi => hlow i (by omega)

theorem Placed.ahead_zero (P : Placed v h t p (q + 1)) : ahead v h t (q + 1) = 0 ↔
    (rights v h t).1 = steps (dir v h) (mark v h + dir v h) (q + 1) := by
  obtain ⟨j, hj, hr, hlow, hnext⟩ := P.rights_line
  rw [ahead, ones_eq_zero, hr]
  constructor
  · intro h0
    rcases Nat.lt_or_eq_of_le hj with hlt | rfl
    · exact absurd (h0 j hlt) (by rw [hnext hlt]; decide)
    · rfl
  · intro he
    have hlen := congrArg List.length he
    rw [length_steps, length_steps] at hlen
    exact fun i hi => hlow i (by omega)

theorem Placed.length (P : Placed v h t p q) : (t.map (mark v)).length = p + q := by
  have hnd : (steps (dir v h) (mark v h + dir v h) q ++
      steps (-dir v h) (mark v h - dir v h) p).Nodup := by
    rw [List.nodup_append']
    refine ⟨steps_nodup (dir_ne_zero h), steps_nodup (neg_ne_zero.mpr (dir_ne_zero h)), ?_⟩
    intro y hy
    obtain ⟨i, -, rfl⟩ := mem_steps.mp hy
    exact right_notMem_left
  have hperm := (List.perm_ext_iff_of_nodup P.tail_nodup hnd).mpr fun y => by
    rw [P.marks, List.mem_append]
  rw [hperm.length_eq, List.length_append, length_steps, length_steps, Nat.add_comm]

/-- The marks are divided between the two scans and what is left. -/
theorem gathered_length (h : Ijp β γ) (t : List (Ijp β γ)) :
    (lefts v h t).1.length + ((rights v h t).1.length + (rights v h t).2.length) =
      (t.map (mark v)).length := by
  have hl : ((lefts v h t).1 ++ (lefts v h t).2).Perm (t.map (mark v)) := gather_perm
  have hr : ((rights v h t).1 ++ (rights v h t).2).Perm (lefts v h t).2 := gather_perm
  rw [← hl.length_eq, List.length_append, ← hr.length_eq, List.length_append]

/-! ## The first pair after a pass -/

/-- The next list has the same pairs. -/
theorem Placed.after (P : Placed v h t p q) {h' : Ijp β γ} {t' : List (Ijp β γ)}
    (hpass : (pass (h :: t)).1 = h' :: t') :
    (∀ e ∈ h' :: t', OnPath v e) ∧ ((h' :: t').map (mark v)).Nodup ∧
      ∀ y, y ∈ t'.map (mark v) ↔ (y = mark v h ∨ y ∈ t.map (mark v)) ∧ y ≠ mark v h' := by
  have hperm : (h' :: t').Perm (h :: t) := hpass ▸ pass_perm
  have hn := (hperm.map (mark v)).nodup_iff.mpr P.nodup
  refine ⟨fun e he => P.path e (hperm.subset he), hn, fun y => ?_⟩
  have hy : y ∈ (h' :: t').map (mark v) ↔ y ∈ (h :: t).map (mark v) :=
    (hperm.map (mark v)).mem_iff
  rw [List.map_cons, List.map_cons, List.mem_cons, List.mem_cons] at hy
  rw [← hy]
  constructor
  · intro hin
    exact ⟨.inr hin, fun he => (List.nodup_cons.mp hn).1 (he ▸ hin)⟩
  · exact fun hin => hin.1.resolve_left hin.2

/-- The marks of the next list, if there are pairs behind the first. -/
theorem Placed.pass_behind (P : Placed v h t (p + 1) q) :
    (pass (h :: t)).1.map (mark v) =
      (rights v h t).1 ++ (mark v h :: ((lefts v h t).1.reverse ++ (rights v h t).2)) := by
  obtain ⟨j, -, hl, -, -⟩ := P.lefts_line
  have hne : (lefts v h t).1 ≠ [] := by
    rw [hl]
    exact List.cons_ne_nil _ _
  rw [(pass_marks P.path P.nodup).1, if_neg hne]

/-- With pairs behind but none ahead the first pair stays, and the number behind is counted down. -/
theorem Placed.stay (P : Placed v h t (p + 1) 0) : ∃ t', (pass (h :: t)).1 = h :: t' ∧
    t'.map (mark v) = (lefts v h t).1.reverse ++ (rights v h t).2 ∧ Placed v h t' (p + 1) 0 ∧
    (behind v h t (p + 1) ≠ 0 → behind v h t (p + 1) = behind v h t' (p + 1) + 1) := by
  have hmarks := P.pass_behind
  rw [P.rights_none, List.nil_append] at hmarks
  obtain ⟨h', t', hpass, hm, ht⟩ := List.map_eq_cons_iff.mp hmarks
  obtain ⟨hpath, hn, hmem⟩ := P.after hpass
  have hsame : h' = h := by
    have hin : h' ∈ h :: t := pass_perm.subset (hpass ▸ List.mem_cons_self)
    exact List.inj_on_of_nodup_map P.nodup hin List.mem_cons_self hm
  subst hsame
  refine ⟨t', hpass, by rw [ht, P.rights_none], ⟨hpath, hn, fun y => ?_⟩, fun hb => ?_⟩
  · rw [hmem, ← P.marks]
    constructor
    · exact fun hin => hin.1.resolve_left hin.2
    · exact fun hin => ⟨.inr hin, fun he => P.head_notMem (he ▸ hin)⟩
  · obtain ⟨j, hj, hl, hlow, hnext⟩ := P.lefts_line
    have hjp : j < p := by
      rcases Nat.lt_or_eq_of_le hj with hlt | rfl
      · exact hlt
      · exact absurd (P.behind_zero.mpr hl) hb
    obtain ⟨h1, h2, h3⟩ := back_turned (a := []) (r := (rights v h' t).2) (j := j) (m := p)
      (neg_ne_zero.mpr (dir_ne_zero h')) (fun i _ => List.not_mem_nil)
      fun i hi => rest_left hl (by omega)
    rw [P.rights_none, ← hl, List.nil_append, ← ht] at h1 h2 h3
    exact number_turn hjp hlow (hnext hjp) (fun i hi => h1 i hi hj) (h2 hjp) h3

/-- With nothing behind the first pair it stays, and there is a back less ahead. -/
theorem Placed.sort (P : Placed v h t 0 (q + 1)) : ∃ t', (pass (h :: t)).1 = h :: t' ∧
    t'.map (mark v) = (rights v h t).1 ++ (rights v h t).2 ∧ Placed v h t' 0 (q + 1) ∧
    ahead v h t' (q + 1) = ahead v h t (q + 1) - 1 := by
  have hmarks := (pass_marks P.path P.nodup).1
  rw [P.lefts_none, if_pos rfl] at hmarks
  obtain ⟨h', t', hpass, hm, ht⟩ := List.map_eq_cons_iff.mp hmarks
  obtain ⟨hpath, hn, hmem⟩ := P.after hpass
  have hsame : h' = h := by
    have hin : h' ∈ h :: t := pass_perm.subset (hpass ▸ List.mem_cons_self)
    exact List.inj_on_of_nodup_map P.nodup hin List.mem_cons_self hm
  subst hsame
  refine ⟨t', hpass, ht, ⟨hpath, hn, fun y => ?_⟩, ?_⟩
  · rw [hmem, ← P.marks]
    constructor
    · exact fun hin => hin.1.resolve_left hin.2
    · exact fun hin => ⟨.inr hin, fun he => P.head_notMem (he ▸ hin)⟩
  · obtain ⟨j, hj, hr, hlow, hnext⟩ := P.rights_line
    obtain ⟨h1, h2⟩ := back_kept (c := []) (r := (rights v h' t).2) (j := j) (m := q)
      (dir_ne_zero h') (fun i _ => List.not_mem_nil) fun i hi => rest_right hr (by omega)
    rw [← hr, List.nil_append, ← ht] at h1 h2
    rcases Nat.lt_or_eq_of_le hj with hjq | rfl
    · have hone := ones_clear hjq (hnext hjq) hlow h1 h2
      rw [ahead, ahead, Nat.add_sub_cancel, hone, Nat.add_sub_cancel]
    · rw [P.ahead_zero.mpr hr]
      exact ones_eq_zero.mpr fun i hi => h1 i hi.le

/-- With pairs on both sides the next list begins with the pair ahead. -/
theorem Placed.move_marks (P : Placed v h t (p + 1) (q + 1)) {j : ℕ}
    (hr : (rights v h t).1 = steps (dir v h) (mark v h + dir v h) (j + 1)) :
    ∃ h' t', (pass (h :: t)).1 = h' :: t' ∧ mark v h' = mark v h + dir v h ∧ h' ∈ t ∧
      t'.map (mark v) = steps (dir v h) (mark v h + dir v h + dir v h) j ++
        (mark v h :: ((lefts v h t).1.reverse ++ (rights v h t).2)) := by
  have hmarks := P.pass_behind
  rw [hr, steps, List.cons_append] at hmarks
  obtain ⟨h', t', hpass, hm, ht⟩ := List.map_eq_cons_iff.mp hmarks
  refine ⟨h', t', hpass, hm, ?_, ht⟩
  have hin : h' ∈ h :: t := pass_perm.subset (hpass ▸ List.mem_cons_self)
  refine (List.mem_cons.mp hin).resolve_left fun he => ?_
  have hd := dir_ne_zero (v := v) h
  rw [he] at hm
  omega

/-- If the pair ahead points on, the pairs behind it are one more and those ahead one less. -/
theorem Placed.move_on (P : Placed v h t (p + 1) (q + 1)) {h' : Ijp β γ} {t' : List (Ijp β γ)}
    (hpass : (pass (h :: t)).1 = h' :: t') (hm : mark v h' = mark v h + dir v h)
    (hd : dir v h' = dir v h) : Placed v h' t' (p + 2) q := by
  obtain ⟨hpath, hn, hmem⟩ := P.after hpass
  refine ⟨hpath, hn, fun y => ?_⟩
  have hout1 := right_notMem_left (v := v) (h := h) (i := 0) (k := p + 1)
  rw [hmem, P.marks, hm, hd, add_sub_cancel_right, steps_cons (x := mark v h + dir v h),
    steps_cons (x := mark v h), List.mem_cons, List.mem_cons, ← sub_eq_add_neg]
  simp only [Nat.cast_zero, zero_mul, add_zero] at hout1
  have hout2 : mark v h + dir v h ∉
      steps (dir v h) (mark v h + dir v h + dir v h) q := by
    have hnd := steps_nodup (dir_ne_zero (v := v) h) (k := q + 1) (x := mark v h + dir v h)
    rw [steps, List.nodup_cons] at hnd
    exact hnd.1
  have hne : mark v h ≠ mark v h + dir v h := by
    have := dir_ne_zero (v := v) h
    omega
  constructor
  · rintro ⟨rfl | (rfl | hy) | hy, hy'⟩
    · exact .inr (.inl rfl)
    · exact absurd rfl hy'
    · exact .inl hy
    · exact .inr (.inr hy)
  · rintro (hy | rfl | hy)
    · exact ⟨.inr (.inl (.inr hy)), fun he => hout2 (he ▸ hy)⟩
    · exact ⟨.inl rfl, hne⟩
    · exact ⟨.inr (.inr hy), fun he => hout1 (he ▸ hy)⟩

/-- If it points back, the sides are exchanged. -/
theorem Placed.move_back (P : Placed v h t (p + 1) (q + 1)) {h' : Ijp β γ} {t' : List (Ijp β γ)}
    (hpass : (pass (h :: t)).1 = h' :: t') (hm : mark v h' = mark v h + dir v h)
    (hd : dir v h' = -dir v h) : Placed v h' t' q (p + 2) := by
  obtain ⟨hpath, hn, hmem⟩ := P.after hpass
  refine ⟨hpath, hn, fun y => ?_⟩
  have hout1 := right_notMem_left (v := v) (h := h) (i := 0) (k := p + 1)
  rw [hmem, P.marks, hm, hd, neg_neg, sub_neg_eq_add, ← sub_eq_add_neg, add_sub_cancel_right,
    steps_cons (x := mark v h + dir v h), steps_cons (x := mark v h), List.mem_cons,
    List.mem_cons, ← sub_eq_add_neg]
  simp only [Nat.cast_zero, zero_mul, add_zero] at hout1
  have hout2 : mark v h + dir v h ∉
      steps (dir v h) (mark v h + dir v h + dir v h) q := by
    have hnd := steps_nodup (dir_ne_zero (v := v) h) (k := q + 1) (x := mark v h + dir v h)
    rw [steps, List.nodup_cons] at hnd
    exact hnd.1
  have hne : mark v h ≠ mark v h + dir v h := by
    have := dir_ne_zero (v := v) h
    omega
  constructor
  · rintro ⟨rfl | (rfl | hy) | hy, hy'⟩
    · exact .inl (.inl rfl)
    · exact absurd rfl hy'
    · exact .inr hy
    · exact .inl (.inr hy)
  · rintro ((rfl | hy) | hy)
    · exact ⟨.inl rfl, hne⟩
    · exact ⟨.inr (.inr hy), fun he => hout1 (he ▸ hy)⟩
    · exact ⟨.inr (.inl (.inr hy)), fun he => hout2 (he ▸ hy)⟩

/-- The number behind is counted down and doubled. -/
theorem Placed.move_behind (P : Placed v h t (p + 1) (q + 1)) {h' : Ijp β γ}
    {t' : List (Ijp β γ)} {j : ℕ} (hm : mark v h' = mark v h + dir v h)
    (hd : dir v h' = dir v h)
    (ht : t'.map (mark v) = steps (dir v h) (mark v h + dir v h + dir v h) j ++
      (mark v h :: ((lefts v h t).1.reverse ++ (rights v h t).2))) :
    behind v h' t' (p + 2) = 2 * countDown (p + 1) (behind v h t (p + 1)) := by
  have hfar : ∀ {i : ℤ}, i ≤ 0 → mark v h + i * dir v h ∉
      steps (dir v h) (mark v h + dir v h + dir v h) j := by
    intro i hi hmem
    obtain ⟨k, -, hk⟩ := mem_steps.mp hmem
    rcases dir_cases (v := v) h with hd | hd <;> rw [hd] at hk <;> omega
  have hzero : back (-dir v h) (mark v h) (t'.map (mark v)) 0 = false := by
    rw [back, ht, precedes_append]
    · rw [precedes, if_neg, if_pos (by simp)]
      have := dir_ne_zero (v := v) h
      push_cast
      intro he
      exact this (by linarith)
    · have hone := hfar (i := -1) (by decide)
      rwa [show mark v h + (-1 : ℤ) * dir v h = mark v h + ((0 + 1 : ℕ) : ℤ) * -dir v h by
        push_cast
        ring] at hone
    · simpa using hfar (i := 0) le_rfl
  have hnum : number (back (-dir v h) (mark v h - dir v h) (t'.map (mark v))) p =
      countDown (p + 1) (behind v h t (p + 1)) := by
    obtain ⟨k, hk, hl, hlow, hnext⟩ := P.lefts_line
    have ha : ∀ i ≤ p, mark v h - dir v h + i * -dir v h ∉
        steps (dir v h) (mark v h + dir v h + dir v h) j ++ [mark v h] := by
      intro i _ hmem
      rcases List.mem_append.mp hmem with hmem | hmem
      · refine hfar (i := -(1 + i)) (by omega) ?_
        convert hmem using 1
        ring
      · have he := List.mem_singleton.mp hmem
        have hz : (1 + (i : ℤ)) * dir v h = 0 := by linarith
        rcases mul_eq_zero.mp hz with hz | hz
        · omega
        · exact dir_ne_zero h hz
    obtain ⟨h1, h2, h3⟩ := back_turned (r := (rights v h t).2) (j := k) (m := p)
      (neg_ne_zero.mpr (dir_ne_zero h)) ha fun i hi => rest_left hl (by omega)
    rw [← hl, List.append_assoc, List.singleton_append, ← ht] at h1 h2 h3
    rcases Nat.lt_or_eq_of_le hk with hkp | rfl
    · have hturn := number_turn hkp hlow (hnext hkp) (fun i hi => h1 i hi hk) (h2 hkp) h3
      rw [countDown, behind, Nat.add_sub_cancel, hturn, if_neg (Nat.succ_ne_zero _),
        Nat.add_sub_cancel]
    · rw [countDown, if_pos (P.behind_zero.mpr hl), Nat.add_sub_cancel,
        ← number_full fun i hi => h1 i hi hk, Nat.add_sub_cancel]
  rw [behind, hm, hd, add_sub_cancel_right, show p + 2 - 1 = p + 1 from rfl, number, hzero,
    back_succ, ← sub_eq_add_neg, hnum, Bool.toNat_false, Nat.zero_add]

/-- There is a back less ahead. -/
theorem Placed.move_ahead (P : Placed v h t (p + 1) (q + 1)) {h' : Ijp β γ}
    {t' : List (Ijp β γ)} {j : ℕ} (hm : mark v h' = mark v h + dir v h)
    (hd : dir v h' = dir v h)
    (hr : (rights v h t).1 = steps (dir v h) (mark v h + dir v h) (j + 1))
    (ht : t'.map (mark v) = steps (dir v h) (mark v h + dir v h + dir v h) j ++
      (mark v h :: ((lefts v h t).1.reverse ++ (rights v h t).2))) :
    ahead v h' t' q = ahead v h t (q + 1) - 1 := by
  obtain ⟨k, hk, hr', hlow, hnext⟩ := P.rights_line
  obtain rfl : k = j := by
    have hlen := congrArg List.length (hr.symm.trans hr')
    rw [length_steps, length_steps] at hlen
    omega
  obtain ⟨k', hl⟩ := lefts_steps (v := v) (h := h) (t := t)
  have hc : ∀ i ≤ q, mark v h + dir v h + i * dir v h ∉
      mark v h :: (lefts v h t).1.reverse := by
    intro i _ hmem
    rcases List.mem_cons.mp hmem with he | hmem
    · rcases dir_cases (v := v) h with hd | hd <;> rw [hd] at he <;> omega
    · rw [List.mem_reverse, hl] at hmem
      exact right_notMem_left hmem
  obtain ⟨h1, h2⟩ := back_kept (r := (rights v h t).2) (j := k) (m := q) (dir_ne_zero h) hc
    fun i hi => rest_right hr (by omega)
  rw [steps_cons, List.cons_append, List.cons_append, ← ht] at h1 h2
  have hshift : ∀ i, back (dir v h) (mark v h + dir v h + dir v h) (t'.map (mark v)) i =
      back (dir v h) (mark v h + dir v h) ((mark v h + dir v h) :: t'.map (mark v)) (i + 1) := by
    intro i
    rw [back_cons (fun he => absurd (point_self (dir_ne_zero h) he) (Nat.succ_ne_zero _))
      fun he => absurd (point_self (dir_ne_zero h) he) (Nat.succ_ne_zero _), ← back_succ]
  have hnew : ahead v h' t' q = ones (back (dir v h) (mark v h + dir v h)
      ((mark v h + dir v h) :: t'.map (mark v))) q := by
    rw [ahead, hm, hd]
    cases q with
    | zero => rfl
    | succ q =>
        rw [ones, h1 0 (by omega), Bool.toNat_false, Nat.zero_add, Nat.add_sub_cancel]
        exact ones_congr fun i _ => hshift i
  rw [hnew]
  rcases Nat.lt_or_eq_of_le hk with hkq | rfl
  · have hone := ones_clear hkq (hnext hkq) hlow h1 h2
    rw [ahead, Nat.add_sub_cancel, hone, Nat.add_sub_cancel]
  · rw [P.ahead_zero.mpr hr]
    exact ones_eq_zero.mpr fun i hi => h1 i hi.le

end Sides

end AlchemyDB.Query.Join
