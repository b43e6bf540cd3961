/-
# Slots — numbers handed out and taken back

A table of slots is kept by three values: how many slots are counted, which of
the counted ones wait to be handed out again, and how many there is room for.
A slot is taken from the waiting list when that has one, and otherwise counted
anew; the last counted slot is given back by counting one less, any other by
queueing it.  `Kept` is the promise: the counted slots are the live ones and
the waiting ones, and no slot is both.
-/
import Mathlib.Data.List.Basic

namespace Slots

/-- The numbers of a slot table. -/
structure Pool where
  num : Nat
  drop : List Nat
  hw : Nat
  deriving DecidableEq, Repr

namespace Pool

/-- The slot handed out next. -/
def next (p : Pool) : Nat :=
  match p.drop with
  | i :: _ => i
  | [] => p.num

/-- Room for one more slot, when none waits and all the room is counted. -/
def grow (p : Pool) : Pool :=
  if p.drop = [] ∧ p.hw ≤ p.num then { p with hw := p.hw + 1 } else p

/-- The pool once `next` is handed out. -/
def take (p : Pool) : Pool :=
  match p.drop with
  | _ :: rest => { p.grow with drop := rest }
  | [] => { p.grow with num := p.num + 1 }

/-- The pool once slot `i` is given back. -/
def give (p : Pool) (i : Nat) : Pool :=
  if i + 1 = p.num then { p with num := p.num - 1 } else { p with drop := p.drop ++ [i] }

/-- The counted slots are the live ones and the waiting ones. -/
structure Kept (live : Nat → Prop) (p : Pool) : Prop where
  disjoint : ∀ i ∈ p.drop, ¬ live i
  nodup : p.drop.Nodup
  exact : ∀ i, i < p.num ↔ live i ∨ i ∈ p.drop
  room : p.num ≤ p.hw

variable {live live' : Nat → Prop} {p : Pool}

theorem kept_empty (hw : Nat) : Kept (fun _ => False) ⟨0, [], hw⟩ :=
  ⟨by simp, by simp, by simp, Nat.zero_le hw⟩

theorem Kept.congr (h : ∀ i, live i ↔ live' i) (k : Kept live p) : Kept live' p :=
  ⟨fun i hi hl => k.disjoint i hi ((h i).2 hl), k.nodup,
    fun i => by rw [← h i]; exact k.exact i, k.room⟩

theorem Kept.live_lt (k : Kept live p) {i : Nat} (h : live i) : i < p.num := (k.exact i).2 (.inl h)

/-- The slot handed out is not in use. -/
theorem Kept.next_free (k : Kept live p) : ¬ live p.next := by
  unfold next
  split
  · rename_i i rest h
    exact k.disjoint i (by simp [h])
  · intro h
    exact Nat.lt_irrefl _ (k.live_lt h)

/-- There is room for the slot handed out. -/
theorem Kept.next_lt (k : Kept live p) : p.next < p.take.hw := by
  have hroom := k.room
  unfold next take grow
  split
  · rename_i i rest h
    have hi : i < p.num := (k.exact i).2 (.inr (by simp [h]))
    simp only [h, List.cons_ne_nil, false_and, if_false]
    omega
  · rename_i h
    by_cases hp : p.hw ≤ p.num
    · rw [if_pos ⟨h, hp⟩]
      show p.num < p.hw + 1
      omega
    · rw [if_neg (fun hc => hp hc.2)]
      show p.num < p.hw
      omega

theorem Kept.take (k : Kept live p) : Kept (fun i => live i ∨ i = p.next) p.take := by
  obtain ⟨num, drop, hw⟩ := p
  cases drop with
  | nil =>
      have hroom : num ≤ hw := k.room
      have hgrow : num + 1 ≤ (grow ⟨num, [], hw⟩).hw := by
        unfold grow
        by_cases hp : hw ≤ num
        · rw [if_pos ⟨rfl, hp⟩]
          show num + 1 ≤ hw + 1
          omega
        · rw [if_neg (fun hc => hp hc.2)]
          show num + 1 ≤ hw
          omega
      have hdrop : (grow ⟨num, [], hw⟩).drop = [] := by
        unfold grow
        split <;> rfl
      refine ⟨?_, ?_, ?_, hgrow⟩
      · intro i hi
        exact absurd (hdrop ▸ hi) (by simp)
      · show (grow ⟨num, [], hw⟩).drop.Nodup
        rw [hdrop]
        exact List.nodup_nil
      · intro i
        show i < num + 1 ↔ (live i ∨ i = num) ∨ i ∈ (grow ⟨num, [], hw⟩).drop
        have h : i < num ↔ live i ∨ i ∈ ([] : List Nat) := k.exact i
        rw [hdrop, Nat.lt_succ_iff_lt_or_eq, h]
        simp
  | cons j rest =>
      have hnd := List.nodup_cons.1 k.nodup
      have hgrow : grow ⟨num, j :: rest, hw⟩ = ⟨num, j :: rest, hw⟩ := by
        unfold grow
        rw [if_neg (fun hc => by simp at hc)]
      show Kept (fun i => live i ∨ i = j) { grow ⟨num, j :: rest, hw⟩ with drop := rest }
      rw [hgrow]
      refine ⟨?_, hnd.2, ?_, k.room⟩
      · rintro i hi (hl | rfl)
        · exact k.disjoint i (List.mem_cons_of_mem _ hi) hl
        · exact hnd.1 hi
      · intro i
        have h : i < num ↔ live i ∨ i ∈ j :: rest := k.exact i
        rw [show (i < num) = _ from propext h, List.mem_cons, or_assoc]

theorem Kept.give (k : Kept live p) {i : Nat} (hi : live i) :
    Kept (fun j => live j ∧ j ≠ i) (p.give i) := by
  have hlt := k.live_lt hi
  have hout : i ∉ p.drop := fun h => k.disjoint i h hi
  unfold Pool.give
  by_cases hlast : i + 1 = p.num
  · rw [if_pos hlast]
    refine ⟨fun j hj hl => k.disjoint j hj hl.1, k.nodup, ?_, Nat.le_trans (Nat.pred_le _) k.room⟩
    intro j
    show j < p.num - 1 ↔ (live j ∧ j ≠ i) ∨ j ∈ p.drop
    have h := k.exact j
    constructor
    · intro hj
      rcases h.1 (by omega) with hl | hd
      · exact .inl ⟨hl, by omega⟩
      · exact .inr hd
    · rintro (⟨hl, hne⟩ | hd)
      · have := h.2 (.inl hl)
        omega
      · have hj := h.2 (.inr hd)
        have hne : j ≠ i := fun e => hout (e ▸ hd)
        omega
  · rw [if_neg hlast]
    refine ⟨?_, ?_, ?_, k.room⟩
    · intro j hj hl
      rcases List.mem_append.1 hj with hd | hd
      · exact k.disjoint j hd hl.1
      · exact hl.2 (List.mem_singleton.1 hd)
    · refine List.nodup_append.2 ⟨k.nodup, by simp, ?_⟩
      intro a ha b hb e
      rw [List.mem_singleton] at hb
      exact hout (hb ▸ e ▸ ha)
    · intro j
      show j < p.num ↔ (live j ∧ j ≠ i) ∨ j ∈ p.drop ++ [i]
      rw [k.exact j, List.mem_append, List.mem_singleton]
      by_cases e : j = i
      · subst e
        simp [hi]
      · simp [e]

end Pool

end Slots
