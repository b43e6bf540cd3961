/-
# Quoted texts

What `str_next_unescaped_chr` finds, told by one pass over the text that remembers
whether the next character is escaped, and the bodies of quoted texts it ends at.
-/
import AlchemyDB.Text.Scan
import Mathlib.Data.List.TakeWhile

namespace AlchemyDB.Text

open Catalog

/-! ## One pass -/

/-- The distance to the first `x` that is not escaped; `esc` says whether the next character is. -/
def unescaped (x : Char) : Bool → Sds → Option Nat
  | _, [] => none
  | esc, y :: s =>
      if y = x ∧ esc = false then some 0 else (unescaped x (y = '\\' && !esc) s).map (· + 1)

/-- The test of `str_next_unescaped_chr` at place `i`, behind a text that ends in an escape or not. -/
def meetsAt (x : Char) (esc : Bool) (s : Sds) (i : Nat) : Bool :=
  (s[i]? == some x) &&
    ((slashes s i + if esc && (s.take i).all (· == '\\') then 1 else 0) % 2 == 0)

theorem slashes_of_all {s : Sds} {i : Nat} (h : (s.take i).all (· == '\\') = true) :
    slashes s i = (s.take i).length := by
  have hr : ((s.take i).reverse.takeWhile (· == '\\')) = (s.take i).reverse := by
    apply List.takeWhile_eq_self_iff.mpr
    intro c hc
    exact List.all_eq_true.mp h c (List.mem_reverse.mp hc)
  rw [slashes, hr, List.length_reverse]

theorem slashes_cons_of_all {s : Sds} {i : Nat} (y : Char)
    (h : (s.take i).all (· == '\\') = true) :
    slashes (y :: s) (i + 1) = (s.take i).length + if y = '\\' then 1 else 0 := by
  have hr : ∀ c ∈ (s.take i).reverse, (c == '\\') = true := fun c hc =>
    List.all_eq_true.mp h c (List.mem_reverse.mp hc)
  rw [slashes, List.take_succ_cons, List.reverse_cons, List.takeWhile_append_of_pos hr]
  by_cases hy : y = '\\' <;> simp [hy]

theorem slashes_cons_of_not {s : Sds} {i : Nat} (y : Char)
    (h : (s.take i).all (· == '\\') = false) : slashes (y :: s) (i + 1) = slashes s i := by
  rw [slashes, slashes, List.take_succ_cons, List.reverse_cons, List.takeWhile_append]
  split
  · rename_i hl
    have hall : (s.take i).all (· == '\\') = true := by
      rw [List.all_eq_true]
      intro c hc
      have hs : (s.take i).reverse.takeWhile (· == '\\') = (s.take i).reverse :=
        (List.takeWhile_sublist _).eq_of_length hl
      exact List.takeWhile_eq_self_iff.mp hs c (List.mem_reverse.mpr hc)
    rw [hall] at h
    cases h
  · rfl

theorem meetsAt_succ (x : Char) (esc : Bool) (y : Char) (s : Sds) (i : Nat) :
    meetsAt x esc (y :: s) (i + 1) = meetsAt x (y = '\\' && !esc) s i := by
  unfold meetsAt
  rw [List.getElem?_cons_succ, List.take_succ_cons, List.all_cons]
  congr 1
  cases h : (s.take i).all (· == '\\') with
  | false => rw [slashes_cons_of_not y h]; simp
  | true =>
      rw [slashes_cons_of_all y h, slashes_of_all h]
      by_cases hy : y = '\\'
      · cases esc <;> simp [hy]; omega
      · simp [hy]

theorem find_meetsAt (x : Char) : ∀ (s : Sds) (esc : Bool),
    (List.range s.length).find? (meetsAt x esc s) = unescaped x esc s
  | [], _ => rfl
  | y :: s, esc => by
      have hz : meetsAt x esc (y :: s) 0 = decide (y = x ∧ esc = false) := by
        by_cases hy : y = x <;> cases esc <;> simp [meetsAt, slashes, hy]
      have hf : (meetsAt x esc (y :: s)) ∘ Nat.succ = meetsAt x (y = '\\' && !esc) s :=
        funext (meetsAt_succ x esc y s)
      rw [List.length_cons, List.range_succ_eq_map, List.find?_cons, hz, List.find?_map, hf,
        find_meetsAt x s]
      by_cases hc : y = x ∧ esc = false <;> simp [hc, unescaped]

/-- `str_next_unescaped_chr` passes over the first character and looks from the next one on. -/
theorem strNextUnescapedChr_cons (c x : Char) (s : Sds) :
    strNextUnescapedChr (c :: s) x = (unescaped x (c = '\\') s).map (· + 1) := by
  have hz : ∀ i, (decide (0 < i + 1) && ((c :: s)[i + 1]? == some x)
      && (slashes (c :: s) (i + 1) % 2 == 0)) = meetsAt x (c = '\\') s i := by
    intro i
    have h := meetsAt_succ x false c s i
    simp only [Bool.not_false, Bool.and_true] at h
    rw [← h]
    simp [meetsAt]
  have hf : (fun i => decide (0 < i) && ((c :: s)[i]? == some x)
      && (slashes (c :: s) i % 2 == 0)) ∘ Nat.succ = meetsAt x (c = '\\') s := funext hz
  rw [strNextUnescapedChr, List.length_cons, List.range_succ_eq_map, List.find?_cons,
    List.find?_map, hf, find_meetsAt]
  simp

/-! ## Bodies -/

/-- Nothing in the text is an unescaped `x`, and the text ends in no escape: what may stand before
a closing `x`. -/
def Closed (x : Char) (esc : Bool) (s : Sds) : Prop :=
  unescaped x esc (s ++ [x]) = some s.length

theorem unescaped_lt {x : Char} : ∀ {s : Sds} {esc : Bool} {k : Nat},
    unescaped x esc s = some k → k < s.length
  | [], _, _, h => by cases h
  | y :: s, esc, k, h => by
      rw [unescaped] at h
      split at h
      · cases h; simp
      · obtain ⟨j, hj, rfl⟩ := Option.map_eq_some_iff.mp h
        have := unescaped_lt hj
        simp only [List.length_cons]
        omega

/-- What is found depends on the text up to there alone. -/
theorem unescaped_append_some {x : Char} : ∀ {s : Sds} {esc : Bool} {k : Nat} (r : Sds),
    unescaped x esc s = some k → unescaped x esc (s ++ r) = some k
  | [], _, _, _, h => by cases h
  | y :: s, esc, k, r, h => by
      rw [unescaped] at h
      rw [List.cons_append, unescaped]
      split at h
      · rename_i hc
        rw [if_pos hc]
        exact h
      · rename_i hc
        rw [if_neg hc]
        obtain ⟨j, hj, rfl⟩ := Option.map_eq_some_iff.mp h
        rw [unescaped_append_some r hj]
        rfl

theorem unescaped_append_none {x : Char} : ∀ {s r : Sds} {esc : Bool} {k : Nat},
    unescaped x esc s = none → unescaped x esc (s ++ r) = some k → s.length ≤ k
  | [], _, _, _, _, _ => Nat.zero_le _
  | y :: s, r, esc, k, h, hk => by
      rw [unescaped] at h
      rw [List.cons_append, unescaped] at hk
      split at h
      · cases h
      · rename_i hc
        rw [if_neg hc] at hk
        obtain ⟨j, hj, rfl⟩ := Option.map_eq_some_iff.mp hk
        have := unescaped_append_none (Option.map_eq_none_iff.mp h) hj
        simp only [List.length_cons]
        omega

/-- The text up to what is found is closed by it. -/
theorem unescaped_split {x : Char} : ∀ {s : Sds} {esc : Bool} {k : Nat},
    unescaped x esc s = some k →
      ∃ b r, s = b ++ x :: r ∧ b.length = k ∧ Closed x esc b
  | [], _, _, h => by cases h
  | y :: s, esc, k, h => by
      rw [unescaped] at h
      split at h
      · rename_i hc
        cases h
        exact ⟨[], s, by simp [hc.1], rfl, by simp [Closed, unescaped, hc.2]⟩
      · rename_i hc
        obtain ⟨j, hj, rfl⟩ := Option.map_eq_some_iff.mp h
        obtain ⟨b, r, hs, hl, hb⟩ := unescaped_split hj
        refine ⟨y :: b, r, by rw [hs]; rfl, by simp [hl], ?_⟩
        have hb' : unescaped x (y = '\\' && !esc) (b ++ [x]) = some b.length := hb
        rw [Closed, List.cons_append, unescaped, if_neg hc, hb']
        rfl

theorem Closed.found {x : Char} {esc : Bool} {s : Sds} (h : Closed x esc s) (r : Sds) :
    unescaped x esc (s ++ x :: r) = some s.length := by
  have hr := unescaped_append_some r h
  rwa [List.append_assoc, List.singleton_append] at hr

/-- The body of a quoted text: quotes and backslashes are escaped. -/
inductive Escaped : Sds → Prop
  | nil : Escaped []
  | chr {c : Char} {s : Sds} : c ≠ '\'' → c ≠ '\\' → Escaped s → Escaped (c :: s)
  | esc {c : Char} {s : Sds} : Escaped s → Escaped ('\\' :: c :: s)

theorem Escaped.closed {s : Sds} (h : Escaped s) : Closed '\'' false s := by
  unfold Closed
  induction h with
  | nil => rfl
  | @chr c s hq hb _ ih =>
      rw [List.cons_append, unescaped, if_neg (fun hc => hq hc.1)]
      simp [hb, ih]
  | @esc c s _ ih =>
      rw [List.cons_append, unescaped, if_neg (fun hc => absurd hc.1 (by decide)), List.cons_append,
        unescaped, if_neg (fun hc => absurd hc.2 (by simp))]
      simp [ih]

end AlchemyDB.Text
