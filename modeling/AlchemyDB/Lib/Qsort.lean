/-
# qsort — sorting by a comparison that returns a number

`qsort` promises a sorted vector only for a comparison that is consistent on the elements it is
given: of two elements one is not greater, and "not greater" is transitive.  A comparison whose
signs are those of an order is consistent, and then the vector is sorted by that order.  Orders are
combined by trying one after the other.
-/
import Mathlib.Data.List.Perm.Basic
import Mathlib.Data.List.Sort
import Mathlib.Order.Compare

namespace Qsort

open Std

variable {α : Type}

/-- What `qsort` asks of a comparison. -/
structure Consistent (cmp : α → α → Int) (l : List α) : Prop where
  total : ∀ a ∈ l, ∀ b ∈ l, cmp a b ≤ 0 ∨ cmp b a ≤ 0
  trans : ∀ a ∈ l, ∀ b ∈ l, ∀ c ∈ l, cmp a b ≤ 0 → cmp b c ≤ 0 → cmp a c ≤ 0

/-- What it promises. -/
def Correct (qsort : (α → α → Int) → List α → List α) : Prop :=
  ∀ cmp l, Consistent cmp l →
    (qsort cmp l).Perm l ∧ (qsort cmp l).Pairwise fun a b => cmp a b ≤ 0

/-- The comparison has the signs of the order. -/
def Agrees (cmp : α → α → Int) (order : α → α → Ordering) (l : List α) : Prop :=
  ∀ a ∈ l, ∀ b ∈ l, compare (cmp a b) 0 = order a b

variable {cmp : α → α → Int} {order : α → α → Ordering} {l : List α}

theorem sign_isLE {r : Int} : (compare r 0).isLE = true ↔ r ≤ 0 := by
  rw [Int.isLE_compare]

/-- A comparison with the signs of an order is consistent. -/
theorem Agrees.consistent [TransCmp order] (h : Agrees cmp order l) : Consistent cmp l := by
  have hle : ∀ a ∈ l, ∀ b ∈ l, (cmp a b ≤ 0 ↔ (order a b).isLE = true) := fun a ha b hb => by
    rw [← h a ha b hb, sign_isLE]
  constructor
  · intro a ha b hb
    rw [hle a ha b hb, hle b hb a ha, show order b a = (order a b).swap from OrientedCmp.eq_swap]
    cases order a b <;> simp
  · intro a ha b hb c hc hab hbc
    rw [hle a ha b hb] at hab
    rw [hle b hb c hc] at hbc
    rw [hle a ha c hc]
    exact TransCmp.isLE_trans hab hbc

/-- What is sorted by such a comparison is sorted by the order. -/
theorem Agrees.sorted [TransCmp order] {qsort : (α → α → Int) → List α → List α}
    (hq : Correct qsort) (h : Agrees cmp order l) :
    (qsort cmp l).Perm l ∧ (qsort cmp l).Pairwise fun a b => (order a b).isLE = true := by
  obtain ⟨hp, hs⟩ := hq cmp l h.consistent
  refine ⟨hp, hs.imp_of_mem fun {a b} ha hb hab => ?_⟩
  rw [← h a (hp.subset ha) b (hp.subset hb), sign_isLE]
  exact hab

/-- A `qsort`, by insertion. -/
def insertion (cmp : α → α → Int) (l : List α) : List α :=
  (l.attach.insertionSort fun a b => cmp a.1 b.1 ≤ 0).map Subtype.val

theorem insertion_perm (cmp : α → α → Int) (l : List α) : (insertion cmp l).Perm l := by
  have hp := (List.perm_insertionSort (fun a b : {a // a ∈ l} => cmp a.1 b.1 ≤ 0) l.attach).map
    Subtype.val
  rw [List.attach_map_subtype_val] at hp
  exact hp

theorem insertion_correct : Correct (insertion (α := α)) := by
  intro cmp l h
  have : IsTrans {a // a ∈ l} fun a b => cmp a.1 b.1 ≤ 0 :=
    ⟨fun a b c => h.trans a.1 a.2 b.1 b.2 c.1 c.2⟩
  have : Std.Total fun a b : {a // a ∈ l} => cmp a.1 b.1 ≤ 0 :=
    ⟨fun a b => h.total a.1 a.2 b.1 b.2⟩
  constructor
  · have hp := (List.perm_insertionSort (fun a b : {a // a ∈ l} => cmp a.1 b.1 ≤ 0) l.attach).map
      Subtype.val
    rw [List.attach_map_subtype_val] at hp
    exact hp
  · rw [insertion, List.pairwise_map]
    exact List.pairwise_insertionSort _ _

/-! ## Orders, one after the other -/

/-- The first order that tells two elements apart decides. -/
def lex (orders : List (α → α → Ordering)) : α → α → Ordering :=
  orders.foldr compareLex fun _ _ => .eq

theorem lex_cons (o : α → α → Ordering) (os : List (α → α → Ordering)) (a b : α) :
    lex (o :: os) a b = (o a b).then (lex os a b) := rfl

instance transCmp_eq : TransCmp fun _ _ : α => Ordering.eq where
  eq_swap := rfl
  isLE_trans := fun _ _ => rfl

theorem lex_trans : ∀ {orders : List (α → α → Ordering)}, (∀ o ∈ orders, TransCmp o) →
    TransCmp (lex orders)
  | [], _ => transCmp_eq
  | o :: os, h => by
      have ho := h o List.mem_cons_self
      have hos := lex_trans fun p hp => h p (List.mem_cons_of_mem _ hp)
      exact inferInstanceAs (TransCmp (compareLex o (lex os)))

end Qsort
