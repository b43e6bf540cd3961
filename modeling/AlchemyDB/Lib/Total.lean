/-
# Sums that may fail

The sum over a list of what is added for each entry, where nothing can be added for some of
them.  Of two such sums, one of them below the other entry by entry, the greater fails no sooner; and
where it does not fail they agree only if they add the same everywhere.
-/
import Mathlib.Algebra.BigOperators.Group.List.Basic
import Mathlib.Algebra.GroupWithZero.Nat

namespace Total

variable {ε : Type}

/-- The sum over a list, unless something cannot be added. -/
def total (c : ε → Option Nat) (l : List ε) : Option Nat := (l.mapM c).map List.sum

variable {c d : ε → Option Nat}

theorem total_nil : total c [] = some 0 := rfl

theorem total_cons (e : ε) (l : List ε) :
    total c (e :: l) = (c e).bind fun n => (total c l).map (n + ·) := by
  unfold total
  rw [List.mapM_cons]
  cases c e with
  | none => rfl
  | some n => cases hl : l.mapM c <;> simp

/-- The smaller sum. -/
theorem total_le (h : ∀ e a, d e = some a → ∃ b, c e = some b ∧ a ≤ b) : ∀ {l : List ε} {a : Nat},
    total d l = some a → ∃ b, total c l = some b ∧ a ≤ b
  | [], a, hl => ⟨a, hl, Nat.le_refl a⟩
  | e :: l, a, hl => by
      rw [total_cons] at hl
      obtain ⟨x, hx, hl⟩ := Option.bind_eq_some_iff.mp hl
      obtain ⟨y, hy, rfl⟩ := Option.map_eq_some_iff.mp hl
      obtain ⟨x', hx', hxx⟩ := h e x hx
      obtain ⟨y', hy', hyy⟩ := total_le h hy
      refine ⟨x' + y', ?_, Nat.add_le_add hxx hyy⟩
      rw [total_cons, hx', Option.bind_some, hy', Option.map_some]

theorem total_some : ∀ {l : List ε}, (∀ e ∈ l, c e ≠ none) → ∃ b, total c l = some b
  | [], _ => ⟨0, rfl⟩
  | e :: l, h => by
      obtain ⟨he, hl⟩ := List.forall_mem_cons.mp h
      obtain ⟨x, hx⟩ := Option.ne_none_iff_exists'.mp he
      obtain ⟨y, hy⟩ := total_some hl
      refine ⟨x + y, ?_⟩
      rw [total_cons, hx, Option.bind_some, hy, Option.map_some]

/-- Two sums, one of them below the other, agree if all that is added does. -/
theorem total_eq_iff (h : ∀ e a, d e = some a → ∃ b, c e = some b ∧ a ≤ b) : ∀ {l : List ε},
    (∀ e ∈ l, c e ≠ none) → (total c l = total d l ↔ ∀ e ∈ l, c e = d e)
  | [], _ => by simp [total_nil]
  | e :: l, hc => by
      obtain ⟨he, hl⟩ := List.forall_mem_cons.mp hc
      have ih := total_eq_iff h hl
      obtain ⟨x, hx⟩ := Option.ne_none_iff_exists'.mp he
      obtain ⟨y, hy⟩ := total_some hl
      rw [hy] at ih
      rw [total_cons, total_cons, List.forall_mem_cons, ← ih, hx, hy]
      cases hd : d e with
      | none => simp
      | some x' =>
          obtain ⟨b, hb, hxx⟩ := h e x' hd
          rw [hx] at hb
          cases hb
          cases ht : total d l with
          | none => simp
          | some y' =>
              obtain ⟨b, hb, hyy⟩ := total_le h ht
              rw [hy] at hb
              cases hb
              simp only [Option.bind_some, Option.map_some, Option.some_inj]
              omega

theorem total_ones : ∀ l : List ε, total (fun _ => some 1) l = some l.length
  | [] => rfl
  | e :: l => by
      rw [total_cons, total_ones l, Option.bind_some, Option.map_some, List.length_cons, Nat.add_comm]

theorem total_congr {l : List ε} (h : ∀ e ∈ l, c e = d e) : total c l = total d l := by
  induction l with
  | nil => rfl
  | cons e l ih =>
      obtain ⟨he, hl⟩ := List.forall_mem_cons.mp h
      rw [total_cons, total_cons, he, ih hl]

/-- What adds at most one for each entry. -/
theorem total_le_length (h : ∀ e a, d e = some a → a ≤ 1) {l : List ε} {a : Nat}
    (hl : total d l = some a) : a ≤ l.length := by
  obtain ⟨b, hb, hab⟩ := total_le (c := fun _ => some 1) (fun e a he => ⟨1, rfl, h e a he⟩) hl
  rw [total_ones, Option.some_inj] at hb
  omega

end Total
