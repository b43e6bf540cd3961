/-
# Gathering a line

A list holds points of a line.  A gathering goes through it once and takes the next point of the line
whenever it comes to it.  What it takes, and what moving that to the front does to the order of the
rest, is said with the backs of the list: the places where a point comes before the one it follows on
the line.  They are the digits of a binary number: points that are put to the front in reverse count
it down by one, points that are put there as they were taken clear its lowest digit.
-/
import Mathlib.Data.List.Basic
import Mathlib.Tactic.Ring
import Mathlib.Tactic.Linarith

namespace AlchemyDB.Gather

/-! ## Digits -/

/-- The binary number with the digits `b`. -/
def number (b : ℕ → Bool) : ℕ → ℕ
  | 0 => 0
  | m + 1 => (b 0).toNat + 2 * number (fun i => b (i + 1)) m

/-- How many of the digits are 1. -/
def ones (b : ℕ → Bool) : ℕ → ℕ
  | 0 => 0
  | m + 1 => (b 0).toNat + ones (fun i => b (i + 1)) m

theorem number_eq_zero : ∀ {m : ℕ} {b : ℕ → Bool}, number b m = 0 ↔ ∀ i < m, b i = false
  | 0, b => by simp [number]
  | m + 1, b => by
      rw [number, Nat.add_eq_zero_iff, Nat.mul_eq_zero, or_iff_right (by decide), number_eq_zero]
      constructor
      · rintro ⟨h0, h⟩ i hi
        cases i with
        | zero => simpa using h0
        | succ i => exact h i (by omega)
      · exact fun h => ⟨by simp [h 0 (by omega)], fun i hi => h (i + 1) (by omega)⟩

theorem ones_eq_zero : ∀ {m : ℕ} {b : ℕ → Bool}, ones b m = 0 ↔ ∀ i < m, b i = false
  | 0, b => by simp [ones]
  | m + 1, b => by
      rw [ones, Nat.add_eq_zero_iff, ones_eq_zero]
      constructor
      · rintro ⟨h0, h⟩ i hi
        cases i with
        | zero => simpa using h0
        | succ i => exact h i (by omega)
      · exact fun h => ⟨by simp [h 0 (by omega)], fun i hi => h (i + 1) (by omega)⟩

theorem ones_le : ∀ {m : ℕ} {b : ℕ → Bool}, ones b m ≤ m
  | 0, _ => le_rfl
  | m + 1, b => by
      have hrest := ones_le (m := m) (b := fun i => b (i + 1))
      have hbit := (b 0).toNat_le
      rw [ones]
      omega

theorem number_congr : ∀ {m : ℕ} {b b' : ℕ → Bool}, (∀ i < m, b' i = b i) → number b' m = number b m
  | 0, _, _, _ => rfl
  | m + 1, b, b', h => by
      rw [number, number, h 0 (by omega), number_congr fun i hi => h (i + 1) (by omega)]

theorem ones_congr : ∀ {m : ℕ} {b b' : ℕ → Bool}, (∀ i < m, b' i = b i) → ones b' m = ones b m
  | 0, _, _, _ => rfl
  | m + 1, b, b', h => by
      rw [ones, ones, h 0 (by omega), ones_congr fun i hi => h (i + 1) (by omega)]

theorem number_full : ∀ {m : ℕ} {b : ℕ → Bool}, (∀ i < m, b i = true) → number b m + 1 = 2 ^ m
  | 0, _, _ => rfl
  | m + 1, b, h => by
      have hrest := number_full (m := m) (b := fun i => b (i + 1)) fun i hi => h (i + 1) (by omega)
      rw [number, h 0 (by omega), pow_succ, ← hrest, Bool.toNat_true]
      ring

/-- Turning the lowest 1 and all digits below it counts down by one. -/
theorem number_turn : ∀ {m k : ℕ} {b c : ℕ → Bool}, k < m → (∀ i < k, b i = false) → b k = true →
    (∀ i < k, c i = true) → c k = false → (∀ i, k < i → i < m → c i = b i) →
    number b m = number c m + 1
  | 0, k, _, _, hk, _, _, _, _, _ => absurd hk (Nat.not_lt_zero k)
  | m + 1, 0, b, c, _, _, h1, _, h0, hrest => by
      rw [number, number, h1, h0, number_congr fun i hi => hrest (i + 1) (by omega) (by omega),
        Bool.toNat_true, Bool.toNat_false]
      ring
  | m + 1, k + 1, b, c, hk, hlow, h1, hlow', h0, hrest => by
      have ih := number_turn (m := m) (k := k) (b := fun i => b (i + 1)) (c := fun i => c (i + 1))
        (by omega) (fun i hi => hlow (i + 1) (by omega)) h1 (fun i hi => hlow' (i + 1) (by omega)) h0
        fun i hi hm => hrest (i + 1) (by omega) (by omega)
      rw [number, number, hlow 0 (by omega), hlow' 0 (by omega), ih, Bool.toNat_true,
        Bool.toNat_false]
      ring

/-- Clearing the lowest 1. -/
theorem ones_clear : ∀ {m k : ℕ} {b c : ℕ → Bool}, k < m → b k = true → (∀ i < k, b i = false) →
    (∀ i ≤ k, c i = false) → (∀ i, k < i → i < m → c i = b i) → ones b m = ones c m + 1
  | 0, k, _, _, hk, _, _, _, _ => absurd hk (Nat.not_lt_zero k)
  | m + 1, 0, b, c, _, h1, _, h0, hrest => by
      rw [ones, ones, h1, h0 0 (by omega), ones_congr fun i hi => hrest (i + 1) (by omega) (by omega),
        Bool.toNat_true, Bool.toNat_false]
      ring
  | m + 1, k + 1, b, c, hk, h1, hlow, h0, hrest => by
      have ih := ones_clear (m := m) (k := k) (b := fun i => b (i + 1)) (c := fun i => c (i + 1))
        (by omega) h1 (fun i hi => hlow (i + 1) (by omega)) (fun i hi => h0 (i + 1) (by omega))
        fun i hi hm => hrest (i + 1) (by omega) (by omega)
      rw [ones, ones, hlow 0 (by omega), h0 0 (by omega), ih, Bool.toNat_false]
      ring

/-! ## Order in a list -/

/-- Whether `y` is met before `x`. -/
def precedes (y x : ℤ) : List ℤ → Bool
  | [] => false
  | z :: l => if z = y then true else if z = x then false else precedes y x l

theorem precedes_append {x y : ℤ} {r : List ℤ} : ∀ {l : List ℤ}, y ∉ l → x ∉ l →
    precedes y x (l ++ r) = precedes y x r
  | [], _, _ => rfl
  | z :: l, hy, hx => by
      obtain ⟨hzy, hy⟩ := List.ne_and_not_mem_of_not_mem_cons hy
      obtain ⟨hzx, hx⟩ := List.ne_and_not_mem_of_not_mem_cons hx
      rw [List.cons_append, precedes, if_neg hzy.symm, if_neg hzx.symm, precedes_append hy hx]

/-- A point in the front part comes before one that is not there. -/
theorem precedes_left {x y : ℤ} {r : List ℤ} : ∀ {l : List ℤ}, y ∈ l → x ∉ l →
    precedes y x (l ++ r) = true
  | z :: l, hy, hx => by
      obtain ⟨hzx, hx⟩ := List.ne_and_not_mem_of_not_mem_cons hx
      rw [List.cons_append, precedes]
      split
      · rfl
      · rename_i hzy
        rw [if_neg (Ne.symm hzx)]
        exact precedes_left ((List.mem_cons.mp hy).resolve_left fun h => hzy h.symm) hx

theorem precedes_right {x y : ℤ} {r : List ℤ} : ∀ {l : List ℤ}, y ∉ l → x ∈ l →
    precedes y x (l ++ r) = false
  | z :: l, hy, hx => by
      obtain ⟨hzy, hy⟩ := List.ne_and_not_mem_of_not_mem_cons hy
      rw [List.cons_append, precedes, if_neg (Ne.symm hzy)]
      split
      · rfl
      · rename_i hzx
        exact precedes_right hy ((List.mem_cons.mp hx).resolve_left fun h => hzx h.symm)

/-! ## Gathering -/

/-- The points taken on the line from `x` on in steps of `σ`, and the rest of the list. -/
def gather (σ : ℤ) : ℤ → List ℤ → List ℤ × List ℤ
  | _, [] => ([], [])
  | x, y :: l =>
      if y = x then (y :: (gather σ (x + σ) l).1, (gather σ (x + σ) l).2)
      else ((gather σ x l).1, y :: (gather σ x l).2)

/-- `k` points of the line. -/
def steps (σ : ℤ) : ℤ → ℕ → List ℤ
  | _, 0 => []
  | x, k + 1 => x :: steps σ (x + σ) k

theorem steps_cons (σ : ℤ) {x : ℤ} {k : ℕ} : steps σ x (k + 1) = x :: steps σ (x + σ) k := rfl

theorem mem_steps {σ y : ℤ} : ∀ {k : ℕ} {x : ℤ}, y ∈ steps σ x k ↔ ∃ i : ℕ, i < k ∧ y = x + i * σ
  | 0, x => by simp [steps]
  | k + 1, x => by
      rw [steps, List.mem_cons, mem_steps]
      constructor
      · rintro (rfl | ⟨i, hi, rfl⟩)
        · exact ⟨0, by omega, by simp⟩
        · exact ⟨i + 1, by omega, by push_cast; ring⟩
      · rintro ⟨i, hi, rfl⟩
        cases i with
        | zero => exact .inl (by simp)
        | succ i => exact .inr ⟨i, by omega, by push_cast; ring⟩

theorem length_steps {σ : ℤ} : ∀ {k : ℕ} {x : ℤ}, (steps σ x k).length = k
  | 0, _ => rfl
  | k + 1, x => by rw [steps, List.length_cons, length_steps]

theorem steps_append {σ : ℤ} {m : ℕ} : ∀ {k : ℕ} {x : ℤ},
    steps σ x (k + m) = steps σ x k ++ steps σ (x + k * σ) m
  | 0, x => by simp [steps]
  | k + 1, x => by
      rw [Nat.add_right_comm, steps, steps, steps_append, List.cons_append]
      congr 3
      push_cast
      ring

variable {σ : ℤ}

/-- How many points are taken. -/
def taken (σ x : ℤ) (l : List ℤ) : ℕ := (gather σ x l).1.length

theorem gather_steps : ∀ {l : List ℤ} {x : ℤ}, (gather σ x l).1 = steps σ x (taken σ x l)
  | [], _ => rfl
  | y :: l, x => by
      rw [taken, gather]
      split
      · rename_i h
        show y :: (gather σ (x + σ) l).1 = steps σ x (taken σ (x + σ) l + 1)
        rw [steps, h, gather_steps]
      · exact gather_steps

theorem gather_perm : ∀ {l : List ℤ} {x : ℤ}, ((gather σ x l).1 ++ (gather σ x l).2).Perm l
  | [], _ => .refl _
  | y :: l, x => by
      rw [gather]
      split
      · exact gather_perm.cons y
      · exact List.perm_middle.trans (gather_perm.cons y)

/-- If nothing is left, the points came in their order. -/
theorem gather_all : ∀ {l : List ℤ} {x : ℤ}, (gather σ x l).2 = [] → (gather σ x l).1 = l
  | [], _, _ => rfl
  | y :: l, x, h => by
      rw [gather] at h ⊢
      split
      · rename_i hy
        rw [if_pos hy] at h
        show y :: _ = y :: l
        rw [gather_all h]
      · rename_i hy
        rw [if_neg hy] at h
        cases h

theorem gather_none : ∀ {l : List ℤ} {x : ℤ}, x ∉ l → gather σ x l = ([], l)
  | [], _, _ => rfl
  | y :: l, x, h => by
      obtain ⟨hy, h⟩ := List.ne_and_not_mem_of_not_mem_cons h
      rw [gather, if_neg hy.symm, gather_none h]

/-- What is left keeps its order. -/
theorem precedes_gather {y z : ℤ} : ∀ {l : List ℤ} {x : ℤ}, y ∉ (gather σ x l).1 →
    z ∉ (gather σ x l).1 → precedes y z (gather σ x l).2 = precedes y z l
  | [], _, _, _ => rfl
  | w :: l, x, hy, hz => by
      rw [gather] at hy hz ⊢
      split at hy
      · rename_i hw
        rw [if_pos hw] at hz ⊢
        obtain ⟨hwy, hy⟩ := List.ne_and_not_mem_of_not_mem_cons hy
        obtain ⟨hwz, hz⟩ := List.ne_and_not_mem_of_not_mem_cons hz
        rw [precedes, if_neg (Ne.symm hwy), if_neg (Ne.symm hwz)]
        exact precedes_gather hy hz
      · rename_i hw
        rw [if_neg hw] at hz ⊢
        rw [precedes, precedes, precedes_gather hy hz]

/-! ## Backs -/

/-- Whether the next point but `i` comes before the one it follows. -/
def back (σ x : ℤ) (l : List ℤ) (i : ℕ) : Bool := precedes (x + (i + 1 : ℕ) * σ) (x + i * σ) l

theorem back_succ {x : ℤ} {l : List ℤ} : (fun i => back σ x l (i + 1)) = back σ (x + σ) l := by
  funext i
  rw [back, back]
  congr 1 <;> push_cast <;> ring

theorem point_inj (hσ : σ ≠ 0) {x : ℤ} {i j : ℕ} (h : x + i * σ = x + j * σ) : i = j := by
  have h0 : ((i : ℤ) - j) * σ = 0 := by linarith
  rcases mul_eq_zero.mp h0 with h | h
  · omega
  · exact absurd h hσ

theorem point_self (hσ : σ ≠ 0) {x : ℤ} {i : ℕ} (h : x = x + i * σ) : i = 0 :=
  (point_inj (i := 0) (x := x) hσ (by simpa using h)).symm

theorem steps_nodup (hσ : σ ≠ 0) : ∀ {k : ℕ} {x : ℤ}, (steps σ x k).Nodup
  | 0, _ => List.nodup_nil
  | k + 1, x => by
      refine List.nodup_cons.mpr ⟨fun h => ?_, steps_nodup hσ⟩
      obtain ⟨i, -, hi⟩ := mem_steps.mp h
      exact absurd (point_inj (x := x) (i := 0) (j := i + 1) hσ (by
        push_cast
        linarith)) (Nat.succ_ne_zero i).symm

/-- Whether two points are turned does not depend on others in front. -/
theorem back_cons {x y : ℤ} {l : List ℤ} {i : ℕ} (h : y ≠ x + i * σ)
    (h' : y ≠ x + (i + 1 : ℕ) * σ) : back σ x (y :: l) i = back σ x l i := by
  rw [back, precedes, if_neg h', if_neg h]
  rfl

theorem mem_of_taken {x : ℤ} {l : List ℤ} {i : ℕ} (h : i < taken σ x l) : x + i * σ ∈ l := by
  have hmem : x + i * σ ∈ (gather σ x l).1 := by
    rw [gather_steps]
    exact mem_steps.mpr ⟨i, h, rfl⟩
  exact gather_perm.subset (List.mem_append_left _ hmem)

/-- The points are taken in their order, and the next one, if there is one, came too early. -/
theorem gather_backs (hσ : σ ≠ 0) : ∀ {l : List ℤ} {x : ℤ}, l.Nodup →
    (∀ i, i + 1 < taken σ x l → back σ x l i = false) ∧
      (x + taken σ x l * σ ∈ l → ∃ k, taken σ x l = k + 1 ∧ back σ x l k = true)
  | [], x, _ => ⟨fun i hi => absurd hi (Nat.not_lt_zero _), fun h => absurd h List.not_mem_nil⟩
  | y :: l, x, hn => by
      obtain ⟨hy, hn⟩ := List.nodup_cons.mp hn
      by_cases hyx : y = x
      · subst hyx
        have ht : taken σ y (y :: l) = taken σ (y + σ) l + 1 := by
          rw [taken, gather, if_pos rfl, List.length_cons, taken]
        obtain ⟨hlow, hnext⟩ := gather_backs hσ (x := y + σ) hn
        have hback : ∀ i, back σ y (y :: l) (i + 1) = back σ (y + σ) l i := by
          intro i
          rw [← back_succ, back_cons]
          · exact fun h => absurd (point_self hσ h) (Nat.succ_ne_zero _)
          · exact fun h => absurd (point_self hσ h) (Nat.succ_ne_zero _)
        rw [ht]
        refine ⟨fun i hi => ?_, fun hmem => ?_⟩
        · cases i with
          | zero =>
              rw [back, precedes, if_neg fun h => absurd (point_self hσ h) (Nat.succ_ne_zero _),
                if_pos (by simp)]
          | succ i => rw [hback, hlow i (by omega)]
        · have hin : y + σ + taken σ (y + σ) l * σ ∈ l := by
            rcases List.mem_cons.mp hmem with h | h
            · exact absurd (point_self hσ h.symm) (Nat.succ_ne_zero _)
            · convert h using 1
              push_cast
              ring
          obtain ⟨k, hk, hb⟩ := hnext hin
          exact ⟨k + 1, by rw [hk], by rw [hback, hb]⟩
      · have ht : taken σ x (y :: l) = taken σ x l := by
          rw [taken, gather, if_neg hyx, taken]
        obtain ⟨hlow, hnext⟩ := gather_backs hσ (x := x) hn
        have hne : ∀ {i : ℕ}, i < taken σ x l → y ≠ x + i * σ := by
          rintro i hi rfl
          exact hy (mem_of_taken hi)
        rw [ht]
        refine ⟨fun i hi => ?_, fun hmem => ?_⟩
        · rw [back_cons (hne (by omega)) (hne hi), hlow i hi]
        · rcases List.mem_cons.mp hmem with h | h
          · cases hk : taken σ x l with
            | zero =>
                rw [hk] at h
                exact absurd (by simpa using h.symm) hyx
            | succ k =>
                rw [hk] at h
                refine ⟨k, rfl, ?_⟩
                rw [back, precedes, if_pos h.symm]
          · obtain ⟨k, hk, hb⟩ := hnext h
            refine ⟨k, hk, ?_⟩
            rw [back_cons (hne (by omega)) fun h' => ?_, hb]
            rw [hk] at h
            exact hy (h' ▸ h)

/-- Of `m + 1` points on the line `j + 1` are taken, up to the first that comes too early. -/
theorem taken_line (hσ : σ ≠ 0) {l : List ℤ} {x : ℤ} {m : ℕ} (hn : l.Nodup) (hin : x ∈ l)
    (hline : ∀ i ≤ m, x + i * σ ∈ l) (hout : x + (m + 1 : ℕ) * σ ∉ l) :
    ∃ j ≤ m, taken σ x l = j + 1 ∧ (∀ i < j, back σ x l i = false) ∧
      (j < m → back σ x l j = true) := by
  obtain ⟨hlow, hnext⟩ := gather_backs hσ (x := x) hn
  cases ht : taken σ x l with
  | zero =>
      rw [ht] at hnext
      obtain ⟨k, hk, -⟩ := hnext (by simpa using hin)
      exact absurd hk (Nat.succ_ne_zero k).symm
  | succ j =>
      rw [ht] at hlow hnext
      refine ⟨j, ?_, rfl, fun i hi => hlow i (by omega), fun hj => ?_⟩
      · by_contra hj
        exact hout (mem_of_taken (by omega))
      · obtain ⟨k, hk, hb⟩ := hnext (hline (j + 1) hj)
        obtain rfl : j = k := by omega
        exact hb

/-! ## Moving to the front -/

/-- All taken points are moved to the front in reverse, and so turned. -/
theorem back_turned (hσ : σ ≠ 0) {x : ℤ} {a r l : List ℤ} {j m : ℕ}
    (ha : ∀ i ≤ m, x + i * σ ∉ a)
    (hr : ∀ i, j < i → precedes (x + (i + 1 : ℕ) * σ) (x + i * σ) r = back σ x l i) :
    (∀ i < j, j ≤ m → back σ x (a ++ ((steps σ x (j + 1)).reverse ++ r)) i = true) ∧
      (j < m → back σ x (a ++ ((steps σ x (j + 1)).reverse ++ r)) j = false) ∧
      ∀ i, j < i → i < m → back σ x (a ++ ((steps σ x (j + 1)).reverse ++ r)) i = back σ x l i := by
  have hmem : ∀ {i k : ℕ}, x + i * σ ∈ (steps σ x k).reverse ↔ i < k := by
    intro i k
    rw [List.mem_reverse, mem_steps]
    refine ⟨?_, fun hi => ⟨i, hi, rfl⟩⟩
    rintro ⟨i', hi, h⟩
    exact point_inj hσ h ▸ hi
  refine ⟨fun i hi hj => ?_, fun hj => ?_, fun i hi hm => ?_⟩
  · rw [back, precedes_append (ha _ (by omega)) (ha _ (by omega)),
      show j + 1 = (i + 1) + (j - i) by omega, steps_append, List.reverse_append, List.append_assoc]
    refine precedes_left ?_ ?_
    · rw [List.mem_reverse, mem_steps]
      exact ⟨0, by omega, by simp⟩
    · rw [List.mem_reverse, mem_steps]
      rintro ⟨k, -, hk⟩
      have := point_inj (i := i) (j := i + 1 + k) hσ (hk.trans (by push_cast; ring))
      omega
  · rw [back, precedes_append (ha _ (by omega)) (ha _ (by omega))]
    exact precedes_right (by rw [hmem]; omega) (by rw [hmem]; omega)
  · rw [back, precedes_append (ha _ (by omega)) (ha _ (by omega)),
      precedes_append (by rw [hmem]; omega) (by rw [hmem]; omega), hr i hi]

/-- The taken points are moved to the front as they were taken. -/
theorem back_kept (hσ : σ ≠ 0) {x : ℤ} {c r l : List ℤ} {j m : ℕ} (hc : ∀ i ≤ m, x + i * σ ∉ c)
    (hr : ∀ i, j < i → precedes (x + (i + 1 : ℕ) * σ) (x + i * σ) r = back σ x l i) :
    (∀ i ≤ j, back σ x (steps σ x (j + 1) ++ (c ++ r)) i = false) ∧
      ∀ i, j < i → i < m → back σ x (steps σ x (j + 1) ++ (c ++ r)) i = back σ x l i := by
  have hmem : ∀ {i k : ℕ}, x + i * σ ∈ steps σ x k ↔ i < k := by
    intro i k
    rw [mem_steps]
    refine ⟨?_, fun hi => ⟨i, hi, rfl⟩⟩
    rintro ⟨i', hi, h⟩
    exact point_inj hσ h ▸ hi
  refine ⟨fun i hi => ?_, fun i hi hm => ?_⟩
  · rw [back, show j + 1 = (i + 1) + (j - i) by omega, steps_append, List.append_assoc]
    exact precedes_right (by rw [hmem]; omega) (by rw [hmem]; omega)
  · rw [back, precedes_append (by rw [hmem]; omega) (by rw [hmem]; omega),
      precedes_append (hc _ (by omega)) (hc _ (by omega)), hr i hi]

/-! ## Lists in line -/

/-- Each point is next to the one before. -/
def InLine (l : List ℤ) : Prop := l.IsChain fun x y => y = x + 1 ∨ y = x - 1

theorem steps_inLine (hσ : σ = 1 ∨ σ = -1) : ∀ {k : ℕ} {x : ℤ}, InLine (steps σ x k)
  | 0, _ => .nil
  | 1, _ => .singleton _
  | k + 2, x => by
      refine List.isChain_cons_cons.mpr ⟨?_, steps_inLine hσ (k := k + 1)⟩
      rcases hσ with rfl | rfl
      · exact .inl rfl
      · exact .inr rfl

/-- A list in line goes on as it begins. -/
theorem inLine_steps (hσ : σ = 1 ∨ σ = -1) : ∀ {l : List ℤ} {x : ℤ}, InLine (x :: (x + σ) :: l) →
    (x :: (x + σ) :: l).Nodup → (x + σ) :: l = steps σ (x + σ) (l.length + 1)
  | [], _, _, _ => rfl
  | z :: l, x, h, hn => by
      obtain ⟨-, h⟩ := List.isChain_cons_cons.mp h
      obtain ⟨hz, -⟩ := List.isChain_cons_cons.mp h
      obtain ⟨hx, hn⟩ := List.nodup_cons.mp hn
      have hzx : z ≠ x := by
        rintro rfl
        exact hx (List.mem_cons_of_mem _ List.mem_cons_self)
      obtain rfl : z = x + σ + σ := by
        rcases hσ with rfl | rfl <;> omega
      rw [List.length_cons, steps_cons, inLine_steps hσ h hn]

theorem gather_of_steps : ∀ {k : ℕ} {x : ℤ}, gather σ x (steps σ x k) = (steps σ x k, [])
  | 0, _ => rfl
  | k + 1, x => by rw [steps_cons, gather, if_pos rfl, gather_of_steps]

theorem reverse_steps {k : ℕ} {x : ℤ} :
    (steps σ x (k + 1)).reverse = (x + k * σ) :: (steps σ x k).reverse := by
  rw [steps_append, List.reverse_append]
  rfl

end AlchemyDB.Gather
