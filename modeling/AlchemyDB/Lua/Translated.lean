/-
# Which expressions are translated rightly

What the loop compiles is the right text if and only if the loop edits the right places:
an `=` that is doubled wrongly, or not doubled, is never made up for later in the text.
-/
import AlchemyDB.Lua.Rewrite

namespace AlchemyDB.Lua

open Catalog Text

/-! ## Texts that tell their edits -/

/-- Only an `=` is doubled, and only a `!` is replaced. -/
def Fits : List Edit → Sds → Prop
  | [], [] => True
  | x :: es, c :: s => (x = .double → c = '=') ∧ (x = .tilde → c = '!') ∧ Fits es s
  | _, _ => False

/-- Behind a doubled `=` another one is doubled too. -/
def Runs : List Edit → Sds → Prop
  | x :: es, _ :: s => (x = .double → s.head? = some '=' → es.head? = some Edit.double) ∧ Runs es s
  | _, _ => True

/-- Behind a doubled `=` there is no other. -/
def Lone : List Edit → Sds → Prop
  | x :: es, _ :: s => (x = .double → s.head? ≠ some '=') ∧ Lone es s
  | _, _ => True

theorem edited_cons (x : Edit) (es : List Edit) (c : Char) (s : Sds) :
    edited (x :: es) (c :: s) = x.out c ++ edited es s := rfl

/-- Only an edit of `=` begins with `=`. -/
theorem out_head {x : Edit} {c : Char} {r : Sds} (hd : x = .double → c = '=') (hc : c ≠ '=') :
    (x.out c ++ r).head? ≠ some '=' := by
  cases x with
  | keep => simpa [Edit.out] using hc
  | double => exact absurd (hd rfl) hc
  | tilde => simp [Edit.out]

theorem edited_head {es : List Edit} {s : Sds} (h : Fits es s) (hs : s.head? ≠ some '=') :
    (edited es s).head? ≠ some '=' := by
  cases s with
  | nil =>
      cases es with
      | nil => simp [edited]
      | cons x es => exact h.elim
  | cons c s =>
      cases es with
      | nil => exact h.elim
      | cons x es => exact out_head h.1 fun hc => hs (congrArg some hc)

theorem shift (n : Nat) (c : Char) (r : Sds) :
    List.replicate n c ++ c :: r = c :: (List.replicate n c ++ r) := by
  rw [List.append_cons, ← List.replicate_succ', List.replicate_succ, List.cons_append]

/-- An `=` too many is not caught up with, where every `=` that follows is doubled. -/
theorem surplus : ∀ {s : Sds} {A S : List Edit} (j : Nat), Fits A s → Runs A s → Fits S s →
    (s.head? = some '=' → A.head? = some Edit.double) →
      List.replicate (j + 1) '=' ++ edited A s ≠ edited S s
  | [], A, S, j, _, _, hS, _, h => by
      cases S with
      | nil => exact absurd h (by simp [List.replicate_succ, edited])
      | cons y S => exact hS
  | c :: s, [], _, _, hA, _, _, _, _ => hA
  | c :: s, _ :: _, [], _, _, _, hS, _, _ => hS
  | c :: s, x :: A, y :: S, j, hA, hr, hS, hh, h => by
      by_cases hc : c = '='
      · subst hc
        obtain rfl : x = .double := Option.some.inj (hh rfl)
        have ih := fun j => surplus j hA.2.2 hr.2 hS.2.2 (hr.1 rfl)
        have hshift : List.replicate (j + 1) '=' ++ edited (.double :: A) ('=' :: s) =
            '=' :: '=' :: (List.replicate (j + 1) '=' ++ edited A s) := by
          rw [edited_cons]
          show _ ++ '=' :: '=' :: edited A s = _
          rw [shift, shift]
        rw [hshift] at h
        cases y with
        | keep => exact ih (j + 1) (List.cons.inj h).2
        | double => exact ih j (List.cons.inj (List.cons.inj h).2).2
        | tilde => exact absurd (hS.2.1 rfl) (by decide)
      · exact out_head hS.1 hc (by rw [← edited_cons, ← h]; rfl)

/-- Two ways to edit a text differ in what they make of it. -/
theorem edited_inj : ∀ {s : Sds} {A S : List Edit}, Fits A s → Runs A s → Fits S s → Lone S s →
    edited A s = edited S s → A = S
  | [], A, S, hA, _, hS, _, _ => by
      cases A with
      | nil =>
          cases S with
          | nil => rfl
          | cons y S => exact hS.elim
      | cons x A => exact hA.elim
  | c :: s, [], _, hA, _, _, _, _ => hA.elim
  | c :: s, _ :: _, [], _, _, hS, _, _ => hS.elim
  | c :: s, x :: A, y :: S, hA, hr, hS, hl, h => by
      have ih := edited_inj hA.2.2 hr.2 hS.2.2 hl.2
      by_cases hxy : x = y
      · subst hxy
        rw [ih (List.append_cancel_left h)]
      · exfalso
        cases x with
        | double =>
            obtain rfl := hA.1 rfl
            cases y with
            | double => exact hxy rfl
            | keep => exact surplus 0 hA.2.2 hr.2 hS.2.2 (hr.1 rfl) (List.cons.inj h).2
            | tilde => exact absurd (hS.2.1 rfl) (by decide)
        | tilde =>
            obtain rfl := hA.2.1 rfl
            cases y with
            | double => exact absurd (hS.1 rfl) (by decide)
            | keep => exact absurd (List.cons.inj h).1 (by decide)
            | tilde => exact hxy rfl
        | keep =>
            cases y with
            | double =>
                obtain rfl := hS.1 rfl
                have hrest : edited A s = '=' :: edited S s := (List.cons.inj h).2
                exact edited_head hA.2.2 (hl.1 rfl) (by rw [hrest]; rfl)
            | keep => exact hxy rfl
            | tilde =>
                obtain rfl := hS.2.1 rfl
                exact absurd (List.cons.inj h).1 (by decide)

/-! ## The edits of an expression -/

section Rule

variable {rule : Option Char → Char → Option Char → Edit}

theorem outside_length (close : Sds → Option Nat) : ∀ (s : Sds) (k : Nat),
    (outside close k s).length = s.length
  | [], _ => by simp [outside]
  | _ :: s, 0 => congrArg (· + 1) (outside_length close s _)
  | _ :: s, k + 1 => congrArg (· + 1) (outside_length close s k)

theorem edits_fits (hd : ∀ p c n, rule p c n = .double → c = '=')
    (ht : ∀ p c n, rule p c n = .tilde → c = '!') : ∀ {s : Sds} {bs : List Bool} (p : Option Char),
      bs.length = s.length → Fits (edits rule p s bs) s
  | [], [], _, _ => trivial
  | c :: s, b :: bs, p, h => by
      refine ⟨fun hx => ?_, fun hx => ?_, edits_fits hd ht (some c) (Nat.succ.inj h)⟩
      · cases b with
        | true => exact hd _ _ _ hx
        | false => cases hx
      · cases b with
        | true => exact ht _ _ _ hx
        | false => cases hx

theorem Fits.map {f : Edit → Edit} (hd : ∀ x, f x = .double → x = .double)
    (ht : ∀ x, f x = .tilde → x = .tilde) : ∀ {es : List Edit} {s : Sds}, Fits es s → Fits (es.map f) s
  | [], [], _ => trivial
  | x :: _, _ :: _, h => ⟨fun hx => h.1 (hd x hx), fun hx => h.2.1 (ht x hx), h.2.2.map hd ht⟩
  | [], _ :: _, h => h.elim
  | _ :: _, [], h => h.elim

/-- The character before a place. -/
def before (p : Option Char) (s : Sds) (i : Nat) : Option Char := if i = 0 then p else s[i - 1]?

/-- What becomes of a place. -/
theorem edits_at : ∀ {s : Sds} {bs : List Bool} {p : Option Char} {i : Nat} {c : Char},
    bs.length = s.length → s[i]? = some c → (edits rule p s bs)[i]? =
      some (if bs[i]? = some true then rule (before p s i) c s[i + 1]? else .keep)
  | c' :: s, b :: bs, p, 0, c, h, hc => by
      obtain rfl : c' = c := Option.some.inj hc
      cases b <;> simp [edits, before, List.head?_eq_getElem?]
  | c' :: s, b :: bs, p, i + 1, c, h, hc => by
      have ih := edits_at (p := some c') (Nat.succ.inj h) hc
      have hb : before (some c') s i = before p (c' :: s) (i + 1) := by
        cases i <;> rfl
      rw [edits, List.getElem?_cons_succ, List.getElem?_cons_succ, List.getElem?_cons_succ, ih, hb]

end Rule

/-- The loop doubles every `=` that directly follows another one that it doubles. -/
theorem edits_runs (close : Sds → Option Nat) : ∀ (s : Sds) (p : Option Char) (k : Nat),
    Runs (edits loopEdit p s (outside close k s)) s
  | [], _, _ => trivial
  | c :: s, p, k + 1 => ⟨fun h => by simp at h, edits_runs close s (some c) k⟩
  | c :: s, p, 0 => by
      refine ⟨fun h hs => ?_, edits_runs close s (some c) _⟩
      have hc : c = '=' := by
        rw [if_pos rfl, loopEdit] at h
        split_ifs at h
        rename_i hc
        exact hc.1
      subst hc
      obtain ⟨s, rfl⟩ : ∃ s', s = '=' :: s' := by
        cases s with
        | nil => cases hs
        | cons d s => exact ⟨s, by rw [Option.some.inj hs]⟩
      simp [outside, edits, loopEdit]

theorem Runs.map {f : Edit → Edit} (hd : ∀ x, f x = .double → x = .double)
    (hk : f .double = .double ∨ ∀ x, f x ≠ .double) : ∀ {es : List Edit} {s : Sds}, Runs es s →
      Runs (es.map f) s
  | [], _, _ => trivial
  | _ :: _, [], _ => trivial
  | x :: es, c :: s, h => by
      refine ⟨fun hx hs => ?_, h.2.map hd hk⟩
      have hh := h.1 (hd x hx) hs
      rcases hk with hk | hk
      · rw [List.head?_map, hh, Option.map_some, hk]
      · exact absurd hx (hk x)

theorem edits_lone : ∀ (s : Sds) (bs : List Bool) (p : Option Char), Lone (edits rightEdit p s bs) s
  | [], _, _ => by cases edits rightEdit _ [] _ <;> trivial
  | _ :: _, [], _ => trivial
  | c :: s, b :: bs, p => by
      refine ⟨fun h hs => ?_, edits_lone s bs (some c)⟩
      cases b with
      | false => cases h
      | true =>
          rw [if_pos rfl, rightEdit] at h
          split_ifs at h
          rename_i ha
          simp [alone, hs] at ha

/-! ## The condition -/

/-- The text has an `=` that stands alone and is not quoted. -/
def HasAlone (e : Sds) : Prop :=
  ∃ i < e.length, e[i]? = some '=' ∧ (plain e)[i]? = some true ∧ alone (before none e i) '=' e[i + 1]? = true

instance (e : Sds) : Decidable (HasAlone e) := by unfold HasAlone; infer_instance

/-- Each `=` that the loop meets, but for those behind a `!`, stands alone and is not quoted, and
the other way round. -/
def EqualsMet (e : Sds) : Prop :=
  ∀ i < e.length, e[i]? = some '=' →
    ((met e)[i]? = some true ∧ before none e i ≠ some '!' ↔
      (plain e)[i]? = some true ∧ alone (before none e i) '=' e[i + 1]? = true)

instance (e : Sds) : Decidable (EqualsMet e) := by unfold EqualsMet; infer_instance

/-- Every `!=` is quoted. -/
def UnequalQuoted (e : Sds) : Prop :=
  ∀ i < e.length, e[i]? = some '!' → e[i + 1]? = some '=' → (plain e)[i]? ≠ some true

instance (e : Sds) : Decidable (UnequalQuoted e) := by unfold UnequalQuoted; infer_instance

/-- The loop meets the `!=` that are not quoted, and no other. -/
def UnequalMet (e : Sds) : Prop :=
  ∀ i < e.length, e[i]? = some '!' → e[i + 1]? = some '=' →
    ((met e)[i]? = some true ↔ (plain e)[i]? = some true)

instance (e : Sds) : Decidable (UnequalMet e) := by unfold UnequalMet; infer_instance

/-- Where an `=` stands alone there must be no `!=` beside it. -/
def Rewritable (e : Sds) : Prop := EqualsMet e ∧ if HasAlone e then UnequalQuoted e else UnequalMet e

instance (e : Sds) : Decidable (Rewritable e) := by unfold Rewritable; infer_instance

/-! ## The edits agree where the condition holds -/

/-- The copy that is taken. -/
def taken (A : List Edit) : Edit → Edit := if Edit.double ∈ A then Edit.inNexpr else Edit.inMexpr

section Agree

variable {e : Sds} {i : Nat} {c : Char}

theorem loop_at (hc : e[i]? = some c) : (edits loopEdit none e (met e))[i]? =
    some (if (met e)[i]? = some true then loopEdit (before none e i) c e[i + 1]? else .keep) :=
  edits_at (outside_length _ e 0) hc

theorem right_at (hc : e[i]? = some c) : (edits rightEdit none e (plain e))[i]? =
    some (if (plain e)[i]? = some true then rightEdit (before none e i) c e[i + 1]? else .keep) :=
  edits_at (outside_length _ e 0) hc

theorem edits_length {rule : Option Char → Char → Option Char → Edit} : ∀ {s : Sds} {bs : List Bool}
    {p : Option Char}, bs.length = s.length → (edits rule p s bs).length = s.length
  | [], [], _, _ => rfl
  | _ :: _, _ :: _, _, h => congrArg (· + 1) (edits_length (Nat.succ.inj h))

/-- An edit of a text stands at a character. -/
theorem place_of {rule : Option Char → Char → Option Char → Edit} {bs : List Bool}
    (hb : bs.length = e.length) {x : Edit} (h : (edits rule none e bs)[i]? = some x) :
    i < e.length ∧ ∃ c, e[i]? = some c := by
  obtain ⟨hi, -⟩ := List.getElem?_eq_some_iff.1 h
  rw [edits_length hb] at hi
  exact ⟨hi, _, List.getElem?_eq_getElem hi⟩

theorem loop_double : (edits loopEdit none e (met e))[i]? = some Edit.double ↔
    e[i]? = some '=' ∧ (met e)[i]? = some true ∧ before none e i ≠ some '!' := by
  constructor
  · intro h
    obtain ⟨-, c, hc⟩ := place_of (outside_length _ e 0) h
    rw [loop_at hc] at h
    have h := Option.some.inj h
    split_ifs at h with hm
    rw [loopEdit] at h
    split_ifs at h with h1 h2
    exact ⟨by rw [hc, h2.1], hm, h2.2⟩
  · rintro ⟨hc, hm, hp⟩
    rw [loop_at hc, if_pos hm, loopEdit, if_neg (fun h => absurd h.1 (by decide)), if_pos ⟨rfl, hp⟩]

theorem loop_tilde : (edits loopEdit none e (met e))[i]? = some Edit.tilde ↔
    e[i]? = some '!' ∧ e[i + 1]? = some '=' ∧ (met e)[i]? = some true := by
  constructor
  · intro h
    obtain ⟨-, c, hc⟩ := place_of (outside_length _ e 0) h
    rw [loop_at hc] at h
    have h := Option.some.inj h
    split_ifs at h with hm
    rw [loopEdit] at h
    split_ifs at h with h1 h2
    exact ⟨by rw [hc, h1.1], h1.2, hm⟩
  · rintro ⟨hc, hn, hm⟩
    rw [loop_at hc, if_pos hm, loopEdit, if_pos ⟨rfl, hn⟩]

theorem right_double : (edits rightEdit none e (plain e))[i]? = some Edit.double ↔
    e[i]? = some '=' ∧ (plain e)[i]? = some true ∧ alone (before none e i) '=' e[i + 1]? = true := by
  constructor
  · intro h
    obtain ⟨-, c, hc⟩ := place_of (outside_length _ e 0) h
    rw [right_at hc] at h
    have h := Option.some.inj h
    split_ifs at h with hm
    rw [rightEdit] at h
    split_ifs at h with h1 h2
    have hce : c = '=' := by
      simp only [alone, Bool.and_eq_true, beq_iff_eq] at h1
      exact h1.1.1
    subst hce
    exact ⟨hc, hm, h1⟩
  · rintro ⟨hc, hm, ha⟩
    rw [right_at hc, if_pos hm, rightEdit, if_pos ha]

theorem right_tilde : (edits rightEdit none e (plain e))[i]? = some Edit.tilde ↔
    e[i]? = some '!' ∧ e[i + 1]? = some '=' ∧ (plain e)[i]? = some true := by
  constructor
  · intro h
    obtain ⟨-, c, hc⟩ := place_of (outside_length _ e 0) h
    rw [right_at hc] at h
    have h := Option.some.inj h
    split_ifs at h with hm
    rw [rightEdit] at h
    split_ifs at h with h1 h2
    exact ⟨by rw [hc, h2.1], h2.2, hm⟩
  · rintro ⟨hc, hn, hm⟩
    rw [right_at hc, if_pos hm, rightEdit, if_neg (by simp [alone]), if_pos ⟨rfl, hn⟩]

theorem right_hasAlone : Edit.double ∈ edits rightEdit none e (plain e) ↔ HasAlone e := by
  rw [List.mem_iff_getElem?]
  constructor
  · rintro ⟨i, h⟩
    exact ⟨i, (place_of (outside_length _ e 0) h).1, right_double.1 h⟩
  · rintro ⟨i, -, h⟩
    exact ⟨i, right_double.2 h⟩

/-- Two lists of edits are equal where they double and replace the same places. -/
theorem edits_ext {A S : List Edit} (hl : A.length = S.length)
    (hd : ∀ i : Nat, A[i]? = some Edit.double ↔ S[i]? = some Edit.double)
    (ht : ∀ i : Nat, A[i]? = some Edit.tilde ↔ S[i]? = some Edit.tilde) : A = S := by
  refine List.ext_getElem? fun i => ?_
  have h1 := hd i
  have h2 := ht i
  have h3 : A[i]? = none ↔ S[i]? = none := by
    rw [List.getElem?_eq_none_iff, List.getElem?_eq_none_iff, hl]
  revert h1 h2 h3
  rcases A[i]? with _ | (_ | _ | _) <;> rcases S[i]? with _ | (_ | _ | _) <;> simp

/-- What stays of the edits of the loop. -/
theorem taken_double {A : List Edit} :
    (A.map (taken A))[i]? = some Edit.double ↔ A[i]? = some Edit.double := by
  rw [List.getElem?_map, taken]
  split_ifs with h
  · rcases A[i]? with _ | (_ | _ | _) <;> simp [Edit.inNexpr]
  · have hi : A[i]? ≠ some Edit.double := fun hi => h (List.mem_of_getElem? hi)
    revert hi
    rcases A[i]? with _ | (_ | _ | _) <;> simp [Edit.inMexpr]

theorem taken_tilde {A : List Edit} :
    (A.map (taken A))[i]? = some Edit.tilde ↔ Edit.double ∉ A ∧ A[i]? = some Edit.tilde := by
  rw [List.getElem?_map, taken]
  split_ifs with h
  · rcases A[i]? with _ | (_ | _ | _) <;> simp [Edit.inNexpr, h]
  · rcases A[i]? with _ | (_ | _ | _) <;> simp [Edit.inMexpr, h]

/-- The right places are edited. -/
theorem taken_eq_iff (e : Sds) : (edits loopEdit none e (met e)).map (taken (edits loopEdit none e (met e))) =
    edits rightEdit none e (plain e) ↔ Rewritable e := by
  have hequals : EqualsMet e ↔ ∀ i : Nat, (edits loopEdit none e (met e))[i]? = some Edit.double ↔
      (edits rightEdit none e (plain e))[i]? = some Edit.double := by
    constructor
    · intro h i
      rw [loop_double, right_double]
      refine and_congr_right fun hc => h i (List.getElem?_eq_some_iff.1 hc).1 hc
    · intro h i _ hc
      have := h i
      rw [loop_double, right_double] at this
      simpa only [hc, true_and] using this
  have halone : EqualsMet e → (Edit.double ∈ edits loopEdit none e (met e) ↔ HasAlone e) := by
    intro h
    rw [← right_hasAlone, List.mem_iff_getElem?, List.mem_iff_getElem?]
    exact exists_congr (hequals.1 h)
  constructor
  · intro h
    have he : EqualsMet e := hequals.2 fun i => by rw [← h, taken_double]
    refine ⟨he, ?_⟩
    have ht : ∀ i : Nat, (edits rightEdit none e (plain e))[i]? = some Edit.tilde ↔
        ¬ HasAlone e ∧ (edits loopEdit none e (met e))[i]? = some Edit.tilde := fun i => by
      rw [← h, taken_tilde, halone he]
    split_ifs with hA
    · intro i _ hc hn hp
      exact ((ht i).1 (right_tilde.2 ⟨hc, hn, hp⟩)).1 hA
    · intro i _ hc hn
      have := ht i
      rw [right_tilde, loop_tilde] at this
      simpa [hc, hn, hA, iff_comm] using this
  · rintro ⟨he, hu⟩
    refine edits_ext ?_ (fun i => ?_) fun i => ?_
    · rw [List.length_map]
      exact (edits_length (outside_length _ e 0)).trans (edits_length (outside_length _ e 0)).symm
    · rw [taken_double]
      exact hequals.1 he i
    · rw [taken_tilde, halone he, right_tilde, loop_tilde]
      split_ifs at hu with hA
      · simp only [hA, not_true, false_and, false_iff]
        rintro ⟨hc, hn, hp⟩
        exact hu i (List.getElem?_eq_some_iff.1 hc).1 hc hn hp
      · simp only [hA, not_false_iff, true_and]
        constructor
        · rintro ⟨hc, hn, hm⟩
          exact ⟨hc, hn, (hu i (List.getElem?_eq_some_iff.1 hc).1 hc hn).1 hm⟩
        · rintro ⟨hc, hn, hp⟩
          exact ⟨hc, hn, (hu i (List.getElem?_eq_some_iff.1 hc).1 hc hn).2 hp⟩

/-- The right text is compiled where the right places are edited. -/
theorem body_translate_iff (e : Sds) : body e = translate e ↔ Rewritable e := by
  rw [← taken_eq_iff, body_eq, translate]
  have hloop : Fits (edits loopEdit none e (met e)) e := by
    refine edits_fits (fun p c n h => ?_) (fun p c n h => ?_) none (outside_length _ e 0)
    · rw [loopEdit] at h
      split_ifs at h with h1 h2
      exact h2.1
    · rw [loopEdit] at h
      split_ifs at h with h1
      exact h1.1
  have hright : Fits (edits rightEdit none e (plain e)) e := by
    refine edits_fits (fun p c n h => ?_) (fun p c n h => ?_) none (outside_length _ e 0)
    · rw [rightEdit] at h
      split_ifs at h with h1
      simp only [alone, Bool.and_eq_true, beq_iff_eq] at h1
      exact h1.1.1
    · rw [rightEdit] at h
      split_ifs at h with h1 h2
      exact h2.1
  have hd : ∀ A : List Edit, ∀ x, taken A x = .double → x = .double := by
    intro A x h
    unfold taken at h
    split_ifs at h <;> cases x <;> first | rfl | cases h
  have ht : ∀ A : List Edit, ∀ x, taken A x = .tilde → x = .tilde := by
    intro A x h
    unfold taken at h
    split_ifs at h <;> cases x <;> first | rfl | cases h
  have hk : ∀ A : List Edit, taken A .double = .double ∨ ∀ x, taken A x ≠ .double := by
    intro A
    unfold taken
    split_ifs
    · exact .inl rfl
    · exact .inr fun x => by cases x <;> simp [Edit.inMexpr]
  constructor
  · intro h
    exact edited_inj (hloop.map (hd _) (ht _)) ((edits_runs skips e none 0).map (hd _) (hk _)) hright
      (edits_lone e _ none) h
  · intro h
    exact congrArg (fun es => edited es e) h

end Agree

/-! ## Without empty texts -/

/-- No quoted text is empty. -/
def NoEmpty (e : Sds) : Prop :=
  ∀ i, (plain e)[i]? = some true → e[i]? = some '\'' → e[i + 1]? ≠ some '\''

theorem skips_eq {s : Sds} (h : s.head? ≠ some '\'') : skips s = unescaped '\'' false s := by
  cases s with
  | nil => rfl
  | cons c s =>
      have hc : ¬ (c = '\'' ∧ false = false) := fun h' => h (congrArg some h'.1)
      rw [skips, strNextUnescapedChr_cons, unescaped, if_neg hc]
      simp

theorem outside_eq : ∀ (s : Sds) (k : Nat),
    (∀ i, (outside (unescaped '\'' false) k s)[i]? = some true → s[i]? = some '\'' →
      s[i + 1]? ≠ some '\'') → outside skips k s = outside (unescaped '\'' false) k s
  | [], _, _ => rfl
  | c :: s, k + 1, h => congrArg (false :: ·) (outside_eq s k fun i h1 h2 => h (i + 1) h1 h2)
  | c :: s, 0, h => by
      have hclose : (if c = '\'' then ((skips s).map (· + 1)).getD s.length else 0) =
          if c = '\'' then ((unescaped '\'' false s).map (· + 1)).getD s.length else 0 := by
        split_ifs with hc
        · rw [skips_eq]
          have h0 := h 0 rfl (congrArg some hc)
          rwa [List.getElem?_cons_succ, ← List.head?_eq_getElem?] at h0
        · rfl
      rw [outside, outside, hclose]
      exact congrArg (true :: ·) (outside_eq s _ fun i h1 h2 => h (i + 1) h1 h2)

/-- The loop then meets what is not quoted, and the condition is about the operators alone: none of
`==`, `<=`, `>=` and `~=`, and not both `=` and `!=`. -/
theorem rewritable_noEmpty {e : Sds} (h : NoEmpty e) : Rewritable e ↔
    (∀ i < e.length, e[i]? = some '=' → (plain e)[i]? = some true → before none e i ≠ some '!' →
      alone (before none e i) '=' e[i + 1]? = true) ∧ (HasAlone e → UnequalQuoted e) := by
  have hmet : met e = plain e := outside_eq e 0 h
  refine and_congr ⟨fun he i hi hc hp hb => ?_, fun he i hi hc => ?_⟩ ?_
  · exact ((he i hi hc).1 ⟨by rw [hmet]; exact hp, hb⟩).2
  · rw [hmet]
    refine and_congr_right fun hp => ⟨he i hi hc hp, fun ha hb => ?_⟩
    rw [hb] at ha
    simp [alone] at ha
  · split_ifs with hA
    · simp [hA]
    · simp only [hA, false_imp_iff, iff_true]
      intro i _ _ _
      rw [hmet]

end AlchemyDB.Lua
