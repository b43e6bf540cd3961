/-
# Splitting the values of an INSERT

Where a value ends is decided character by character: quotes, parentheses and braces
are passed over up to the first character that closes them.  `Flat` says that a value
is passed over exactly, `Ends` that no comma is met in the last one.
-/
import AlchemyDB.Text.Quoted
import AlchemyDB.Text.Values

namespace AlchemyDB.Text

open Catalog

/-! ## What is passed over -/

/-- The text can be read as plain characters other than a comma, and stretches from an opening
character to the first one that closes it. -/
inductive Flat : Sds → Prop
  | nil : Flat []
  | chr {c : Char} {s : Sds} : closing c = none → c ≠ ',' → Flat s → Flat (c :: s)
  | stretch {c d : Char} {b s : Sds} : closing c = some d → Closed d false b → Flat s →
      Flat (c :: (b ++ d :: s))

/-- The same, but the last stretch may have nothing in the text that closes it. -/
inductive Ends : Sds → Prop
  | nil : Ends []
  | chr {c : Char} {s : Sds} : closing c = none → c ≠ ',' → Ends s → Ends (c :: s)
  | stretch {c d : Char} {b s : Sds} : closing c = some d → Closed d false b → Ends s →
      Ends (c :: (b ++ d :: s))
  | cut {c d : Char} {s : Sds} : closing c = some d → unescaped d false s = none → Ends (c :: s)

theorem Flat.ends {s : Sds} (h : Flat s) : Ends s := by
  induction h with
  | nil => exact .nil
  | chr hc hk _ ih => exact .chr hc hk ih
  | stretch hc hb _ ih => exact .stretch hc hb ih

theorem Flat.append {s t : Sds} (h : Flat s) (ht : Flat t) : Flat (s ++ t) := by
  induction h with
  | nil => exact ht
  | chr hc hk _ ih => exact .chr hc hk ih
  | @stretch c d b s hc hb _ ih =>
      have := Flat.stretch hc hb ih
      simpa using this

/-- No opening character and no comma. -/
def Quiet (s : Sds) : Prop := ∀ c ∈ s, closing c = none ∧ c ≠ ','

theorem Quiet.flat : ∀ {s : Sds}, Quiet s → Flat s
  | [], _ => .nil
  | c :: _, h =>
      .chr (h c List.mem_cons_self).1 (h c List.mem_cons_self).2
        (Quiet.flat fun d hd => h d (List.mem_cons_of_mem c hd))

theorem closing_blank {c : Char} (h : isBlank c = true) : closing c = none ∧ c ≠ ',' := by
  simp only [isBlank, Bool.or_eq_true, beq_iff_eq] at h
  rcases h with rfl | rfl <;> decide

theorem quiet_blanks {s : Sds} (h : s.all isBlank = true) : Quiet s := fun c hc =>
  closing_blank (List.all_eq_true.mp h c hc)

/-- A closing character is no blank, and an opening one no backslash. -/
theorem closing_some {c d : Char} (h : closing c = some d) :
    isBlank d = false ∧ c ≠ '\\' ∧ c ≠ ',' := by
  unfold closing at h
  split at h
  · cases h; subst c; decide
  · split at h
    · cases h; subst c; decide
    · split at h
      · cases h; subst c; decide
      · cases h

/-- Blanks at the end are no part of a stretch. -/
theorem Flat.of_append_blank {t : Sds} (h : Flat t) : ∀ {s b : Sds}, t = s ++ b →
    b.all isBlank = true → Flat s := by
  induction h with
  | nil =>
      intro s b ht _
      rw [List.nil_eq, List.append_eq_nil_iff] at ht
      rw [ht.1]
      exact .nil
  | @chr c t hc hk _ ih =>
      intro s b ht hb
      cases s with
      | nil => exact .nil
      | cons c' s =>
          rw [List.cons_append] at ht
          cases ht
          exact .chr hc hk (ih rfl hb)
  | @stretch c d w t hc hw ht' ih =>
      intro s b ht hb
      cases s with
      | nil => exact .nil
      | cons c' s =>
          rw [List.cons_append] at ht
          injection ht with h1 h2
          subst h1
          rcases List.append_eq_append_iff.mp h2 with ⟨m, hs, hm⟩ | ⟨m, hs, hm⟩
          · cases m with
            | nil =>
                rw [List.nil_append] at hm
                rw [← hm] at hb
                simp [(closing_some hc).1] at hb
            | cons d' m =>
                rw [List.cons_append] at hm
                injection hm with h3 h4
                subst h3
                rw [hs]
                exact .stretch hc hw (ih h4 hb)
          · have : isBlank d = true := by
              apply List.all_eq_true.mp hb
              rw [hm]
              simp
            rw [(closing_some hc).1] at this
            cases this

/-! ## The scan -/

/-- `get_next_insert_value_token` without the blanks in front. -/
def valueEnd (s : Sds) : Option Nat := nextValue (s.length + 1) s

theorem nextValue_fuel : ∀ {n m : Nat} {s : Sds}, s.length < n → s.length < m →
    nextValue n s = nextValue m s
  | 0, _, _, h, _ => absurd h (Nat.not_lt_zero _)
  | _ + 1, 0, _, _, h => absurd h (Nat.not_lt_zero _)
  | _ + 1, _ + 1, [], _, _ => rfl
  | n + 1, m + 1, c :: s, hn, hm => by
      simp only [List.length_cons] at hn hm
      have hs : nextValue n s = nextValue m s := nextValue_fuel (by omega) (by omega)
      have hd : ∀ k, nextValue n ((c :: s).drop (k + 1)) = nextValue m ((c :: s).drop (k + 1)) := by
        intro k
        have : (s.drop k).length ≤ s.length := by simp
        exact nextValue_fuel (by rw [List.drop_succ_cons]; omega) (by rw [List.drop_succ_cons]; omega)
      simp only [nextValue, hs, hd]

@[simp] theorem valueEnd_nil : valueEnd [] = none := rfl

theorem valueEnd_comma (s : Sds) : valueEnd (',' :: s) = some 0 := rfl

theorem valueEnd_chr {c : Char} (s : Sds) (hc : closing c = none) (hk : c ≠ ',') :
    valueEnd (c :: s) = (valueEnd s).map (· + 1) := by
  rw [valueEnd, nextValue, hc]
  simp only [hk, if_false]
  rfl

theorem valueEnd_open {c d : Char} (s : Sds) (hc : closing c = some d) :
    valueEnd (c :: s) =
      (unescaped d false s).bind fun k => (valueEnd (s.drop (k + 1))).map (k + 2 + ·) := by
  have hb : (decide (c = '\\')) = false := by simp [(closing_some hc).2.1]
  rw [valueEnd, nextValue, hc]
  simp only []
  rw [strNextUnescapedChr_cons, hb]
  cases unescaped d false s with
  | none => rfl
  | some k =>
      have hl : (s.drop (k + 1)).length ≤ s.length := by simp
      have hf : nextValue (c :: s).length (s.drop (k + 1)) = valueEnd (s.drop (k + 1)) :=
        nextValue_fuel (by rw [List.length_cons]; omega) (by omega)
      simp only [Option.map_some, Option.bind_some, List.drop_succ_cons, hf]

theorem valueEnd_stretch {c d : Char} {b : Sds} (s : Sds) (hc : closing c = some d)
    (hb : Closed d false b) :
    valueEnd (c :: (b ++ d :: s)) = (valueEnd s).map (b.length + 2 + ·) := by
  rw [valueEnd_open _ hc, hb.found s]
  simp

theorem Flat.valueEnd {t : Sds} (h : Flat t) (r : Sds) :
    valueEnd (t ++ r) = (valueEnd r).map (t.length + ·) := by
  induction h with
  | nil => simp
  | @chr c s hc hk _ ih =>
      rw [List.cons_append, valueEnd_chr _ hc hk, ih, Option.map_map]
      congr 1
      funext k
      simp only [Function.comp_apply, List.length_cons]
      omega
  | @stretch c d b s hc hb _ ih =>
      have ha : c :: (b ++ d :: s) ++ r = c :: (b ++ d :: (s ++ r)) := by simp
      rw [ha, valueEnd_stretch _ hc hb, ih, Option.map_map]
      congr 1
      funext k
      simp only [Function.comp_apply, List.length_cons, List.length_append]
      omega

/-- Only what is flat is passed over exactly. -/
theorem flat_of_valueEnd : ∀ (n : Nat) {t r : Sds}, t.length ≤ n →
    valueEnd (t ++ r) = some t.length → Flat t
  | _, [], _, _, _ => .nil
  | 0, _ :: _, _, hn, _ => absurd hn (by simp)
  | n + 1, c :: t, r, hn, h => by
      simp only [List.length_cons] at hn
      rw [List.cons_append] at h
      cases hc : closing c with
      | none =>
          by_cases hk : c = ','
          · subst hk
            rw [valueEnd_comma] at h
            simp at h
          · rw [valueEnd_chr _ hc hk] at h
            obtain ⟨k, hk', he⟩ := Option.map_eq_some_iff.mp h
            have hke : k = t.length := by simpa using he
            rw [hke] at hk'
            exact .chr hc hk (flat_of_valueEnd n (by omega) hk')
      | some d =>
          rw [valueEnd_open _ hc] at h
          obtain ⟨k, hk, h'⟩ := Option.bind_eq_some_iff.mp h
          obtain ⟨j, hj, he⟩ := Option.map_eq_some_iff.mp h'
          simp only [List.length_cons] at he
          -- the closing character stands inside the text
          cases hu : unescaped d false t with
          | none =>
              have := unescaped_append_none hu hk
              omega
          | some k' =>
              have hkk : k' = k := by
                have := unescaped_append_some r hu
                rw [hk] at this
                exact (Option.some_inj.mp this).symm
              subst hkk
              obtain ⟨b, s, rfl, rfl, hb⟩ := unescaped_split hu
              have hd : ((b ++ d :: s) ++ r).drop (b.length + 1) = s ++ r := by
                rw [List.append_assoc, List.drop_append]
                simp
              rw [hd] at hj
              simp only [List.length_append, List.length_cons] at hn he
              have hje : j = s.length := by omega
              rw [hje] at hj
              exact .stretch hc hb (flat_of_valueEnd n (by omega) hj)

/-- What is found is a comma. -/
theorem valueEnd_char : ∀ (n : Nat) {s : Sds} {k : Nat}, s.length ≤ n → valueEnd s = some k →
    s[k]? = some ','
  | _, [], _, _, h => by cases h
  | 0, _ :: _, _, hn, _ => absurd hn (by simp)
  | n + 1, c :: s, k, hn, h => by
      simp only [List.length_cons] at hn
      cases hc : closing c with
      | none =>
          by_cases hk : c = ','
          · subst hk
            rw [valueEnd_comma] at h
            cases h
            rfl
          · rw [valueEnd_chr _ hc hk] at h
            obtain ⟨j, hj, rfl⟩ := Option.map_eq_some_iff.mp h
            rw [List.getElem?_cons_succ]
            exact valueEnd_char n (by omega) hj
      | some d =>
          rw [valueEnd_open _ hc] at h
          obtain ⟨i, _, h'⟩ := Option.bind_eq_some_iff.mp h
          obtain ⟨j, hj, rfl⟩ := Option.map_eq_some_iff.mp h'
          have := valueEnd_char n (by simp; omega) hj
          rw [List.getElem?_drop] at this
          rw [show i + 2 + j = (i + 1 + j) + 1 by omega, List.getElem?_cons_succ]
          exact this

theorem Quiet.drop {s : Sds} (h : Quiet s) (k : Nat) : Quiet (s.drop k) := fun c hc =>
  h c (List.mem_of_mem_drop hc)

theorem Quiet.valueEnd {s : Sds} (h : Quiet s) : valueEnd s = none := by
  have := h.flat.valueEnd []
  simpa using this

/-- In the last value no comma is met if and only if it ends in this sense. -/
theorem ends_iff : ∀ (n : Nat) {t r : Sds}, t.length ≤ n → Quiet r →
    (valueEnd (t ++ r) = none ↔ Ends t)
  | _, [], r, _, hr => by
      simp only [List.nil_append, hr.valueEnd, true_iff]
      exact .nil
  | 0, _ :: _, _, hn, _ => absurd hn (by simp)
  | n + 1, c :: t, r, hn, hr => by
      simp only [List.length_cons] at hn
      rw [List.cons_append]
      cases hc : closing c with
      | none =>
          by_cases hk : c = ','
          · subst hk
            rw [valueEnd_comma]
            constructor
            · intro h; cases h
            · intro h
              cases h with
              | chr _ hk _ => exact absurd rfl hk
              | stretch h _ _ => cases h
              | cut h _ => cases h
          · rw [valueEnd_chr _ hc hk, Option.map_eq_none_iff, ends_iff n (by omega) hr]
            constructor
            · exact .chr hc hk
            · intro h
              cases h with
              | chr _ _ h => exact h
              | stretch h _ _ => rw [hc] at h; cases h
              | cut h _ => rw [hc] at h; cases h
      | some d =>
          rw [valueEnd_open _ hc]
          cases hu : unescaped d false t with
          | none =>
              -- what closes the stretch, if anything, stands behind the value
              constructor
              · intro _; exact .cut hc hu
              · intro _
                cases hk : unescaped d false (t ++ r) with
                | none => rfl
                | some k =>
                    have hl := unescaped_append_none hu hk
                    have hq : Quiet ((t ++ r).drop (k + 1)) := by
                      rw [List.drop_append, List.drop_eq_nil_of_le (by omega), List.nil_append]
                      exact hr.drop _
                    simp [hq.valueEnd]
          | some k =>
              obtain ⟨b, s, rfl, rfl, hb⟩ := unescaped_split hu
              have hd : ((b ++ d :: s) ++ r).drop (b.length + 1) = s ++ r := by
                rw [List.append_assoc, List.drop_append]
                simp
              simp only [List.length_append, List.length_cons] at hn
              rw [unescaped_append_some r hu, Option.bind_some, hd, Option.map_eq_none_iff,
                ends_iff n (by omega) hr]
              constructor
              · exact .stretch hc hb
              · intro h
                generalize ht : b ++ d :: s = t at h
                cases h with
                | chr h _ _ => rw [hc] at h; cases h
                | @stretch _ d' b' s' h hb' hs' =>
                    rw [hc] at h
                    cases h
                    have h1 := hb.found s
                    have h2 := hb'.found s'
                    rw [ht, h2] at h1
                    have hbl : b'.length = b.length := Option.some_inj.mp h1
                    obtain ⟨_, h3⟩ := List.append_inj ht hbl.symm
                    injection h3 with _ h4
                    rw [h4]
                    exact hs'
                | cut h hn' =>
                    rw [hc] at h
                    cases h
                    rw [← ht, hu] at hn'
                    cases hn'

end AlchemyDB.Text
