/-
# Weaving — the in-order reading of a multiway node

A multiway node has `n` separators `e 0, ..., e (n-1)` and `n + 1` blocks
`F 0, ..., F n`; read in order it is

    F 0, e 0, F 1, e 1, ..., e (n-1), F n

which is `weave n e F`.  Separators and blocks are indexed by functions on `Nat`
because that is how an array in memory is read; only the indices in range
matter (`weave_congr`).  Everything a balancing step does to a node is a change
inside a window of adjacent blocks: `weave_window` cuts the reading around such
a window, and the lemmas after it say when a node with a changed window reads
the same.
-/
import Mathlib.Tactic.Ring

namespace Weave

variable {β : Type}

/-! ## The reading and its two halves -/

/-- What follows block `i`, as far as separator `i + m - 1` and block `i + m`. -/
def right (e : Nat → β) (F : Nat → List β) : Nat → Nat → List β
  | _, 0 => []
  | i, m + 1 => e i :: (F (i + 1) ++ right e F (i + 1) m)

/-- What comes before block `i`. -/
def left (e : Nat → β) (F : Nat → List β) : Nat → List β
  | 0 => []
  | i + 1 => left e F i ++ (F i ++ [e i])

/-- The in-order reading of `n` separators and `n + 1` blocks. -/
def weave (n : Nat) (e : Nat → β) (F : Nat → List β) : List β := F 0 ++ right e F 0 n

variable {e e' : Nat → β} {F F' : Nat → List β}

theorem right_congr : ∀ {m i i' : Nat}, (∀ j < m, e (i + j) = e' (i' + j)) →
    (∀ j < m, F (i + 1 + j) = F' (i' + 1 + j)) → right e F i m = right e' F' i' m
  | 0, _, _, _, _ => rfl
  | m + 1, i, i', he, hF => by
      have h0 : e i = e' i' := he 0 (by omega)
      have h1 : F (i + 1) = F' (i' + 1) := hF 0 (by omega)
      have ih : right e F (i + 1) m = right e' F' (i' + 1) m := by
        refine right_congr (fun j hj => ?_) (fun j hj => ?_)
        · have := he (j + 1) (by omega)
          rwa [show i + (j + 1) = i + 1 + j by omega,
            show i' + (j + 1) = i' + 1 + j by omega] at this
        · have := hF (j + 1) (by omega)
          rwa [show i + 1 + (j + 1) = i + 1 + 1 + j by omega,
            show i' + 1 + (j + 1) = i' + 1 + 1 + j by omega] at this
      simp [right, h0, h1, ih]

theorem left_congr : ∀ {i : Nat}, (∀ j < i, e j = e' j) → (∀ j < i, F j = F' j) →
    left e F i = left e' F' i
  | 0, _, _ => rfl
  | i + 1, he, hF => by
      have ih : left e F i = left e' F' i :=
        left_congr (fun j hj => he j (by omega)) (fun j hj => hF j (by omega))
      simp [left, ih, he i (by omega), hF i (by omega)]

/-- Only the separators and blocks in range matter. -/
theorem weave_congr {n : Nat} (he : ∀ j < n, e j = e' j) (hF : ∀ j ≤ n, F j = F' j) :
    weave n e F = weave n e' F' := by
  unfold weave
  rw [hF 0 (by omega)]
  congr 1
  refine right_congr (fun j hj => ?_) (fun j hj => ?_)
  · simpa using he j hj
  · simpa [Nat.add_comm 1 j] using hF (j + 1) (by omega)

theorem right_add (i : Nat) : ∀ (a b : Nat),
    right e F i (a + b) = right e F i a ++ right e F (i + a) b := by
  intro a b
  induction a generalizing i with
  | zero => simp [right]
  | succ a ih =>
      rw [show a + 1 + b = (a + b) + 1 by omega]
      simp [right, ih, show i + 1 + a = i + (a + 1) by omega]

theorem right_shift (c i m : Nat) :
    right (fun j => e (c + j)) (fun j => F (c + j)) i m = right e F (c + i) m :=
  right_congr (fun j _ => by simp only [Nat.add_assoc]) (fun j _ => by simp only [Nat.add_assoc])

/-! ## Windows -/

/-- A reading is what comes before block `i`, block `i`, and what follows it. -/
theorem weave_focus {n i : Nat} (hi : i ≤ n) :
    weave n e F = left e F i ++ (F i ++ right e F i (n - i)) := by
  induction i with
  | zero => simp [weave, left]
  | succ i ih =>
      rw [ih (by omega), show n - i = (n - (i + 1)) + 1 by omega]
      simp [left, right]

/-- The reading around the window of the `w + 1` blocks from `l` on. -/
theorem weave_window {n l w : Nat} (h : l + w ≤ n) :
    weave n e F = left e F l ++
      (weave w (fun j => e (l + j)) (fun j => F (l + j)) ++ right e F (l + w) (n - (l + w))) := by
  rw [weave_focus (show l ≤ n by omega), show n - l = w + (n - (l + w)) by omega, right_add]
  simp [weave, right_shift]

/-- One reading cut at separator `a`. -/
theorem weave_split (a b : Nat) :
    weave (a + 1 + b) e F = weave a e F ++
      e a :: weave b (fun j => e (a + 1 + j)) (fun j => F (a + 1 + j)) := by
  unfold weave
  rw [Nat.add_assoc, right_add, show 1 + b = b + 1 by omega]
  simp [right, right_shift]

theorem weave_one : weave 1 e F = F 0 ++ e 0 :: F 1 := by
  simp [weave, right]

@[simp] theorem weave_zero : weave 0 e F = F 0 := by
  simp [weave, right]

theorem le_length_right (e : Nat → β) (F : Nat → List β) : ∀ m i : Nat, m ≤ (right e F i m).length
  | 0, _ => Nat.zero_le _
  | m + 1, i => by
      have ih := le_length_right e F m (i + 1)
      simp only [right, List.length_cons, List.length_append]
      omega

/-- A reading is at least as long as it has separators. -/
theorem le_length_weave (n : Nat) : n ≤ (weave n e F).length := by
  have h := le_length_right e F n 0
  rw [weave, List.length_append]
  omega

/-- A reading of blocks that are all almost `p` long. -/
theorem mul_le_length_weave {p : Nat} : ∀ {n : Nat}, (∀ j ≤ n, p ≤ (F j).length + 1) →
    (n + 1) * p ≤ (weave n e F).length + 1
  | 0, h => by
      rw [weave_zero, Nat.zero_add, Nat.one_mul]
      exact h 0 (Nat.le_refl 0)
  | n + 1, h => by
      have hs : weave (n + 1) e F = weave n e F ++ e n :: F (n + 1) := by
        simpa using weave_split (e := e) (F := F) n 0
      have h1 := mul_le_length_weave fun j hj => h j (Nat.le_succ_of_le hj)
      have h2 := h (n + 1) (Nat.le_refl _)
      rw [hs, List.length_append, List.length_cons, Nat.add_mul (n + 1), Nat.one_mul]
      omega

/-- A node whose window of `w + 1` blocks has become one of `w' + 1` blocks, with
everything around it in place. -/
theorem weave_replace {n n' l w w' : Nat} (h : l + w ≤ n) (hn : n' + w = n + w')
    (hel : ∀ j < l, e' j = e j) (hFl : ∀ j < l, F' j = F j)
    (her : ∀ j, l + w ≤ j → j < n → e' (j + w' - w) = e j)
    (hFr : ∀ j, l + w < j → j ≤ n → F' (j + w' - w) = F j) :
    weave n' e' F' = left e F l ++
      (weave w' (fun j => e' (l + j)) (fun j => F' (l + j)) ++
        right e F (l + w) (n - (l + w))) := by
  rw [weave_window (show l + w' ≤ n' by omega), left_congr hel hFl]
  congr 2
  rw [show n' - (l + w') = n - (l + w) by omega]
  refine right_congr (fun j hj => ?_) (fun j hj => ?_)
  · have := her (l + w + j) (by omega) (by omega)
    rwa [show l + w + j + w' - w = l + w' + j by omega] at this
  · have := hFr (l + w + 1 + j) (by omega) (by omega)
    rwa [show l + w + 1 + j + w' - w = l + w' + 1 + j by omega] at this

/-! ## Two nodes in a row -/

/-- The separators of two adjacent nodes, with the one between them. -/
def joinE {β : Type} (n : Nat) (e : Nat → β) (b : β) (e' : Nat → β) (j : Nat) : β :=
  if j < n then e j else if j = n then b else e' (j - n - 1)

/-- The blocks of two adjacent nodes. -/
def joinF {γ : Type} (n : Nat) (F F' : Nat → γ) (j : Nat) : γ :=
  if j ≤ n then F j else F' (j - n - 1)

section Join

variable {γ : Type} {n j : Nat} {b : β} {G G' : Nat → γ}

theorem joinE_lt (h : j < n) : joinE n e b e' j = e j := if_pos h

@[simp] theorem joinE_at : joinE n e b e' n = b := by
  simp [joinE]

theorem joinE_gt : joinE n e b e' (n + 1 + j) = e' j := by
  have h1 : ¬ n + 1 + j < n := by omega
  have h2 : n + 1 + j ≠ n := by omega
  rw [joinE, if_neg h1, if_neg h2]
  congr 1
  omega

theorem joinF_le (h : j ≤ n) : joinF n G G' j = G j := if_pos h

theorem joinF_gt : joinF n G G' (n + 1 + j) = G' j := by
  rw [joinF, if_neg (by omega)]
  congr 1
  omega

end Join

/-- The reading of two adjacent nodes is one reading. -/
theorem weave_join (n m : Nat) (b : β) :
    weave (n + 1 + m) (joinE n e b e') (joinF n F F') = weave n e F ++ b :: weave m e' F' := by
  rw [weave_split, joinE_at, weave_congr (fun j hj => joinE_lt hj) (fun j hj => joinF_le hj)]
  simp only [joinE_gt, joinF_gt]

/-! ## Membership -/

theorem mem_right {b : β} {e : Nat → β} {F : Nat → List β} : ∀ {m i : Nat},
    b ∈ right e F i m ↔ (∃ j, i ≤ j ∧ j < i + m ∧ b = e j) ∨ ∃ j, i < j ∧ j ≤ i + m ∧ b ∈ F j
  | 0, i => by
      simp only [right, List.not_mem_nil, Nat.add_zero, false_iff, not_or, not_exists]
      exact ⟨fun j => by omega, fun j => by omega⟩
  | m + 1, i => by
      simp only [right, List.mem_cons, List.mem_append, mem_right (m := m) (i := i + 1)]
      constructor
      · rintro (h | h | ⟨j, h1, h2, h3⟩ | ⟨j, h1, h2, h3⟩)
        · exact Or.inl ⟨i, Nat.le_refl i, by omega, h⟩
        · exact Or.inr ⟨i + 1, by omega, by omega, h⟩
        · exact Or.inl ⟨j, by omega, by omega, h3⟩
        · exact Or.inr ⟨j, by omega, by omega, h3⟩
      · rintro (⟨j, h1, h2, h3⟩ | ⟨j, h1, h2, h3⟩)
        · rcases Nat.eq_or_lt_of_le h1 with rfl | h
          · exact Or.inl h3
          · exact Or.inr (Or.inr (Or.inl ⟨j, by omega, by omega, h3⟩))
        · rcases Nat.eq_or_lt_of_le (show i + 1 ≤ j by omega) with rfl | h
          · exact Or.inr (Or.inl h3)
          · exact Or.inr (Or.inr (Or.inr ⟨j, by omega, by omega, h3⟩))

theorem mem_weave {n : Nat} {b : β} {e : Nat → β} {F : Nat → List β} :
    b ∈ weave n e F ↔ (∃ j < n, b = e j) ∨ ∃ j ≤ n, b ∈ F j := by
  simp only [weave, List.mem_append, mem_right, Nat.zero_add]
  constructor
  · rintro (h | ⟨j, _, h2, h3⟩ | ⟨j, _, h2, h3⟩)
    · exact Or.inr ⟨0, by omega, h⟩
    · exact Or.inl ⟨j, h2, h3⟩
    · exact Or.inr ⟨j, h2, h3⟩
  · rintro (⟨j, h2, h3⟩ | ⟨j, h2, h3⟩)
    · exact Or.inr (Or.inl ⟨j, by omega, h2, h3⟩)
    · rcases Nat.eq_zero_or_pos j with rfl | hj
      · exact Or.inl h3
      · exact Or.inr (Or.inr ⟨j, hj, h2, h3⟩)

/-- The sum over a reading: the separators and the blocks on their own. -/
theorem sum_weave (f : β → Int) (n : Nat) (e : Nat → β) (F : Nat → List β) :
    ((weave n e F).map f).sum = ((List.range n).map (fun j => f (e j))).sum +
      ((List.range (n + 1)).map (fun j => ((F j).map f).sum)).sum := by
  induction n with
  | zero => simp
  | succ n ih =>
      have h : weave (n + 1) e F = weave n e F ++ e n :: F (n + 1) := by
        simpa using weave_split (e := e) (F := F) n 0
      rw [h, List.range_succ (n := n + 1), List.range_succ (n := n)]
      simp only [List.map_append, List.map_cons, List.map_nil, List.sum_append, List.sum_cons,
        List.sum_nil, ih, Int.add_zero]
      rw [List.range_succ]
      simp only [List.map_append, List.map_cons, List.map_nil, List.sum_append, List.sum_cons,
        List.sum_nil, Int.add_zero]
      omega

/-- Reading commutes with a map on the elements. -/
theorem map_weave {γ : Type} (f : β → γ) (n : Nat) (e : Nat → β) (F : Nat → List β) :
    (weave n e F).map f = weave n (fun j => f (e j)) (fun j => (F j).map f) := by
  have hr : ∀ m i, (right e F i m).map f
      = right (fun j => f (e j)) (fun j => (F j).map f) i m := by
    intro m
    induction m with
    | zero => intro i; rfl
    | succ m ih => intro i; simp [right, ih]
  simp [weave, hr]

/-- With empty blocks only the separators are read. -/
theorem weave_blank {n : Nat} {e : Nat → β} {F : Nat → List β} (h : ∀ j, F j = []) :
    weave n e F = (List.range n).map e := by
  induction n with
  | zero => simp [h]
  | succ n ih =>
      have hs := weave_split (e := e) (F := F) n 0
      rw [Nat.add_zero, ih] at hs
      rw [hs, List.range_succ]
      simp [h]

end Weave
