/-
# Keywords in the text of a WHERE clause

`DXDB_strcasestr` as an automaton: how many characters of the needle have been met.  A
needle is a keyword with a blank on either side.  Outside quotes the automaton is back
at its start after every word that is not the keyword, and after a run of blanks it has
met one character if the run is odd.
-/
import AlchemyDB.Text.Quoted
import AlchemyDB.Text.Where

namespace AlchemyDB.Text

open Catalog

/-! ## The automaton -/

section Automaton

variable {needle : Sds} {j : Nat} {a b : Sds}

/-- The state behind a text in which no match ends. -/
def runState (needle : Sds) : Nat → Sds → Option Nat
  | j, [] => some j
  | j, c :: s =>
      if 0 < j ∧ caseStep needle j c = needle.length then none
      else runState needle (caseStep needle j c) s

theorem caseEnd_append : ∀ {a : Sds} {j j' : Nat}, runState needle j a = some j' → ∀ b,
    caseEnd needle j (a ++ b) = (caseEnd needle j' b).map (a.length + ·)
  | [], j, j', h, b => by
      cases h
      simp
  | c :: a, j, j', h, b => by
      rw [runState] at h
      split at h
      · cases h
      · rename_i hc
        rw [List.cons_append, caseEnd, if_neg hc, caseEnd_append h, Option.map_map]
        congr 1
        funext k
        simp only [Function.comp_apply, List.length_cons]
        omega

/-- A match that ends in a text is found whatever follows. -/
theorem caseEnd_of_none : ∀ {a : Sds} {j : Nat}, runState needle j a = none →
    ∃ k, k ≤ a.length ∧ ∀ b, caseEnd needle j (a ++ b) = some k
  | [], _, h => by cases h
  | c :: a, j, h => by
      rw [runState] at h
      split at h
      · rename_i hc
        refine ⟨1, by simp, fun b => ?_⟩
        rw [List.cons_append, caseEnd, if_pos hc]
      · rename_i hc
        obtain ⟨k, hk, hb⟩ := caseEnd_of_none h
        refine ⟨k + 1, by simpa using hk, fun b => ?_⟩
        rw [List.cons_append, caseEnd, if_neg hc, hb]
        rfl

theorem runState_append {j' : Nat} (h : runState needle j a = some j') :
    runState needle j (a ++ b) = runState needle j' b := by
  induction a generalizing j with
  | nil => cases h; rfl
  | cons c a ih =>
      rw [runState] at h
      rw [List.cons_append, runState]
      split at h
      · cases h
      · rename_i hc
        rw [if_neg hc]
        exact ih h

theorem runState_of_caseEnd : ∀ {a : Sds} {j : Nat}, caseEnd needle j a = none →
    ∃ j', runState needle j a = some j'
  | [], j, _ => ⟨j, rfl⟩
  | c :: a, j, h => by
      rw [caseEnd] at h
      split at h
      · cases h
      · rename_i hc
        obtain ⟨j', hj'⟩ := runState_of_caseEnd (Option.map_eq_none_iff.mp h)
        exact ⟨j', by rw [runState, if_neg hc, hj']⟩

theorem caseEnd_of_runState {j' : Nat} (h : runState needle j a = some j') :
    caseEnd needle j a = none := by
  have := caseEnd_append h []
  simpa [caseEnd] using this

theorem caseEnd_pos : ∀ {a : Sds} {j k : Nat}, caseEnd needle j a = some k → 0 < k
  | [], _, _, h => by cases h
  | c :: a, j, k, h => by
      rw [caseEnd] at h
      split at h
      · cases h; exact Nat.one_pos
      · obtain ⟨k', _, rfl⟩ := Option.map_eq_some_iff.mp h
        exact Nat.succ_pos _

/-- To meet the rest of the needle takes as many characters. -/
theorem caseEnd_ge : ∀ {a : Sds} {j k : Nat}, caseEnd needle j a = some k →
    needle.length ≤ j + k
  | [], _, _, h => by cases h
  | c :: a, j, k, h => by
      have hs : caseStep needle j c ≤ j + 1 := by
        unfold caseStep
        split <;> omega
      rw [caseEnd] at h
      split at h
      · cases h
        omega
      · obtain ⟨k', hk', rfl⟩ := Option.map_eq_some_iff.mp h
        have := caseEnd_ge hk'
        omega

end Automaton

/-! ## Keywords -/

/-- A keyword between blanks. -/
def key (kw : String) : Sds := ' ' :: (kw.toList ++ [' '])

/-- The keywords searched for. -/
def keywords : List String := ["IN", "AND", "BETWEEN"]

theorem key_in : " IN ".toList = key "IN" := by decide

theorem key_and : " AND ".toList = key "AND" := by decide

theorem key_between : " BETWEEN ".toList = key "BETWEEN" := by decide

variable {kw : String}

/-- The characters of a needle are blanks and letters, with a letter in the second place. -/
theorem key_chars (h : kw ∈ keywords) :
    (∀ c ∈ key kw, c = ' ' ∨ c.isAlpha = true) ∧ 2 < (key kw).length ∧
      ∃ d, (key kw)[1]? = some d ∧ d.isUpper = true := by
  simp only [keywords, List.mem_cons, List.not_mem_nil, or_false] at h
  rcases h with rfl | rfl | rfl
  · exact ⟨by simp [key], by decide, 'I', by decide, by decide⟩
  · exact ⟨by simp [key], by decide, 'A', by decide, by decide⟩
  · exact ⟨by simp [key], by decide, 'B', by decide, by decide⟩

/-- `n` blanks. -/
def sp (n : Nat) : Sds := List.replicate n ' '

@[simp] theorem length_sp (n : Nat) : (sp n).length = n := List.length_replicate

theorem isUpper_iff {c : Char} : c.isUpper = true ↔ 65 ≤ c.val.toNat ∧ c.val.toNat ≤ 90 :=
  decide_eq_true_iff.trans (and_congr UInt32.le_iff_toNat_le UInt32.le_iff_toNat_le)

theorem toUpper_cases (c : Char) :
    c.toUpper = c ∨ (c.isAlpha = true ∧ c.toUpper.isUpper = true) := by
  by_cases h : 'a'.val ≤ c.val ∧ c.val ≤ 'z'.val
  · have h1 : 97 ≤ c.val.toNat := UInt32.le_iff_toNat_le.mp h.1
    have h2 : c.val.toNat ≤ 122 := UInt32.le_iff_toNat_le.mp h.2
    have hval : c.toUpper.val = c.val + ('A'.val - 'a'.val) := by
      rw [show c.toUpper = _ from dif_pos h]
    have hu : c.toUpper.val.toNat = c.val.toNat - 32 := by
      rw [hval, UInt32.toNat_add, show ('A'.val - 'a'.val).toNat = 4294967264 by decide]
      omega
    refine .inr ⟨?_, ?_⟩
    · show (c.isUpper || (decide ('a'.val ≤ c.val) && decide (c.val ≤ 'z'.val))) = true
      rw [decide_eq_true h.1, decide_eq_true h.2, Bool.and_self, Bool.or_true]
    · refine isUpper_iff.2 ?_
      rw [hu]
      constructor
      · show 65 ≤ _
        omega
      · show _ ≤ 90
        omega
  · exact .inl (dif_neg h)

theorem sameChar_blank {c : Char} (h : sameChar c ' ' = true) : c = ' ' := by
  have hu : c.toUpper = ' ' := by simpa [sameChar] using h
  rcases toUpper_cases c with hc | ⟨_, hc⟩
  · rw [← hc, hu]
  · rw [hu] at hc
    cases hc

theorem sameChar_upper {c d : Char} (hd : d.isUpper = true) (h : sameChar c d = true) :
    c.isAlpha = true := by
  have hud : d.toUpper = d := by
    rcases toUpper_cases d with hc | ⟨_, _⟩
    · exact hc
    · have hnl : ¬ ('a'.val ≤ d.val ∧ d.val ≤ 'z'.val) := by
        intro hl
        have h1 : 97 ≤ d.val.toNat := UInt32.le_iff_toNat_le.mp hl.1
        have h2 := (isUpper_iff.1 hd).2
        omega
      exact dif_neg hnl
  have hu : c.toUpper = d := by simpa [sameChar, hud] using h
  rcases toUpper_cases c with hc | ⟨hc, _⟩
  · rw [← hc, hu]
    show (d.isUpper || d.isLower) = true
    rw [hd, Bool.true_or]
  · exact hc

/-! ## Words and blanks -/

theorem length_key (kw : String) : (key kw).length = kw.toList.length + 2 := by simp [key]

/-- A character that no place of the needle matches. -/
def foreign (kw : String) (c : Char) : Bool := (key kw).all fun d => !sameChar c d

theorem caseStep_foreign {c : Char} (h : foreign kw c = true) (j : Nat) :
    caseStep (key kw) j c = 0 := by
  unfold caseStep
  rw [if_neg]
  intro hm
  obtain ⟨d, hd, hs⟩ : ∃ d, (key kw)[j]? = some d ∧ sameChar c d = true := by
    cases hd : (key kw)[j]? with
    | none => rw [hd] at hm; cases hm
    | some d => rw [hd] at hm; exact ⟨d, rfl, hm⟩
  have := List.all_eq_true.mp h d (List.mem_of_getElem? hd)
  rw [hs] at this
  cases this

theorem runState_foreign {c : Char} (h : foreign kw c = true) (j : Nat) (s : Sds) :
    runState (key kw) j (c :: s) = runState (key kw) 0 s := by
  have hl : ¬ (0 < j ∧ 0 = (key kw).length) := by rw [length_key]; omega
  rw [runState, caseStep_foreign h, if_neg hl]

theorem caseStep_zero {c : Char} (h : c ≠ ' ') : caseStep (key kw) 0 c = 0 := by
  unfold caseStep
  rw [if_neg]
  intro hm
  exact h (sameChar_blank (by simpa [key] using hm))

/-- No blank, no match. -/
theorem runState_word : ∀ {s : Sds}, (∀ c ∈ s, c ≠ ' ') → runState (key kw) 0 s = some 0
  | [], _ => rfl
  | c :: s, h => by
      have hl : ¬ (0 < 0 ∧ 0 = (key kw).length) := by omega
      rw [runState, caseStep_zero (h c List.mem_cons_self), if_neg hl]
      exact runState_word fun d hd => h d (List.mem_cons_of_mem c hd)

/-- One blank is met of an odd run, none of an even one. -/
theorem runState_blanks (h : kw ∈ keywords) : ∀ n, runState (key kw) 0 (sp n) = some (n % 2)
  | 0 => rfl
  | 1 => by
      have hlen := (key_chars h).2.1
      have h2 : caseStep (key kw) 0 ' ' = 1 := by simp [caseStep, key, sameChar]
      rw [show sp 1 = [' '] from rfl, runState, h2, if_neg (by omega)]
      rfl
  | n + 2 => by
      obtain ⟨_, hlen, d, hd, hup⟩ := key_chars h
      have h2 : caseStep (key kw) 0 ' ' = 1 := by simp [caseStep, key, sameChar]
      have h3 : caseStep (key kw) 1 ' ' = 0 := by
        unfold caseStep
        rw [hd, if_neg]
        intro hs
        have := sameChar_upper hup hs
        cases this
      have hs : sp (n + 2) = ' ' :: ' ' :: sp n := rfl
      rw [hs, runState, h2, if_neg (by omega), runState, h3, if_neg (by omega),
        runState_blanks h n]
      congr 1
      omega

/-- From either of these states, a word that does not begin like the keyword leads back. -/
theorem runState_token {c : Char} {s : Sds} {n : Nat} (hc : c ≠ ' ')
    (hd : ∀ d, (key kw)[1]? = some d → sameChar c d = false) (hs : ∀ c ∈ s, c ≠ ' ') :
    runState (key kw) (n % 2) (c :: s) = some 0 := by
  have hl : ¬ (0 < n % 2 ∧ 0 = (key kw).length) := by rw [length_key]; omega
  have hz : caseStep (key kw) (n % 2) c = 0 := by
    rcases Nat.mod_two_eq_zero_or_one n with h | h
    · rw [h]
      exact caseStep_zero hc
    · rw [h]
      unfold caseStep
      rw [if_neg]
      intro hm
      cases hk : (key kw)[1]? with
      | none => rw [hk] at hm; cases hm
      | some d =>
          rw [hk] at hm
          have := hd d hk
          rw [show sameChar c d = true from hm] at this
          cases this
  rw [runState, hz, if_neg hl]
  exact runState_word hs

/-- A word spells the keyword, in any case. -/
def spells (kw : String) (s : Sds) : Prop :=
  s.length = kw.toList.length ∧ ∀ e ∈ s.zip kw.toList, sameChar e.1 e.2 = true

/-- Behind `j` characters that have been met, the rest of the needle is met. -/
theorem caseEnd_meets (needle : Sds) (h2 : 2 ≤ needle.length) : ∀ {s : Sds} {j : Nat},
    s ≠ [] → needle.length = j + s.length →
    (∀ i c, s[i]? = some c → (needle[j + i]?).any (sameChar c) = true) → ∀ b,
      caseEnd needle j (s ++ b) = some s.length
  | [], _, h, _, _, _ => absurd rfl h
  | c :: s, j, _, hl, hm, b => by
      have h0 : caseStep needle j c = j + 1 := by
        have := hm 0 c rfl
        rw [Nat.add_zero] at this
        rw [caseStep, if_pos this]
      rw [List.cons_append, caseEnd, h0]
      cases s with
      | nil =>
          simp only [List.length_cons, List.length_nil] at hl
          rw [if_pos ⟨by omega, by omega⟩]
          rfl
      | cons d s =>
          simp only [List.length_cons] at hl
          rw [if_neg (by omega), caseEnd_meets needle h2 (by simp) (by simp only [List.length_cons]; omega)
            (fun i c hc => ?_) b]
          · rfl
          · have := hm (i + 1) c (by rw [List.getElem?_cons_succ]; exact hc)
            rwa [show j + 1 + i = j + (i + 1) by omega]

/-- The keyword behind an odd run of blanks, and before a blank. -/
theorem caseEnd_keyword {s : Sds} (h : spells kw s) (b : Sds) :
    caseEnd (key kw) 1 (s ++ ' ' :: b) = some (s.length + 1) := by
  have hl : (key kw).length = 1 + (s ++ [' ']).length := by
    rw [length_key, List.length_append, h.1]
    simp
    omega
  have h2 : 2 ≤ (key kw).length := by rw [length_key]; omega
  have := caseEnd_meets (key kw) h2 (s := s ++ [' ']) (by simp) hl (fun i c hc => ?_) b
  · simpa using this
  · rw [key, Nat.add_comm 1 i, List.getElem?_cons_succ]
    rcases Nat.lt_or_ge i s.length with hi | hi
    · rw [List.getElem?_append_left hi] at hc
      have hi' : i < kw.toList.length := by rw [← h.1]; exact hi
      rw [List.getElem?_append_left hi', List.getElem?_eq_getElem hi']
      apply h.2 (c, kw.toList[i])
      rw [List.mem_iff_getElem?]
      exact ⟨i, List.getElem?_zip_eq_some.mpr ⟨hc, List.getElem?_eq_getElem hi'⟩⟩
    · rw [List.getElem?_append_right hi] at hc
      rw [List.getElem?_append_right (by rw [← h.1]; exact hi), ← h.1]
      obtain ⟨hlt, rfl⟩ := List.getElem?_eq_some_iff.mp hc
      have hz : i - s.length = 0 := by simpa using hlt
      simp [hz, sameChar]

/-! ## Outside quotes -/

section Blocks

variable (needle : Sds)

/-- The inner loop of `strcasestr_blockchar`, with the needle found at `f`. -/
def inner (h : Sds) (f : Nat) : Option Nat := blockLoop needle (2 * h.length + 1) h (some f)

theorem blockLoop_fuel : ∀ {n m : Nat} {h : Sds} {f : Option Nat},
    2 * h.length + (if f = none then 2 else 1) ≤ n → 2 * h.length + (if f = none then 2 else 1) ≤ m →
      blockLoop needle n h f = blockLoop needle m h f
  | 0, _, _, _, hn, _ => by split at hn <;> omega
  | _ + 1, 0, _, _, _, hm => by split at hm <;> omega
  | n + 1, m + 1, h, none, hn, hm => by
      simp only [if_true] at hn hm
      have ih : ∀ f, blockLoop needle n h (some f) = blockLoop needle m h (some f) := fun f =>
        blockLoop_fuel (by simp; omega) (by simp; omega)
      simp only [blockLoop, ih]
  | n + 1, m + 1, h, some f, hn, hm => by
      simp only [reduceCtorEq, if_false] at hn hm
      simp only [blockLoop]
      cases hi : strNextUnescapedChr h '\'' with
      | none => rfl
      | some i =>
          have hh : 0 < h.length := by
            cases h with
            | nil => cases hi
            | cons c s => simp
          have hl : ∀ e, 0 < e → 2 * (h.drop e).length + 2 ≤ n ∧ 2 * (h.drop e).length + 2 ≤ m := by
            intro e he
            rw [List.length_drop]
            omega
          have i1 : ∀ e, 0 < e →
              blockLoop needle n (h.drop e) none = blockLoop needle m (h.drop e) none := fun e he =>
            blockLoop_fuel (by simpa using (hl e he).1) (by simpa using (hl e he).2)
          have i2 : ∀ e f, 0 < e →
              blockLoop needle n (h.drop e) (some f) = blockLoop needle m (h.drop e) (some f) :=
            fun e f he => by
              have := hl e he
              exact blockLoop_fuel (by simp; omega) (by simp; omega)
          simp only
          split
          · rfl
          · cases strNextUnescapedChr (h.drop (i + 1)) '\'' with
            | none => rfl
            | some k =>
                simp only [i1 (i + 1 + k + 1) (by omega), i2 (i + 1 + k + 1) _ (by omega)]

theorem search_eq (h : Sds) : strcasestrBlockchar h needle =
    (strcasestr h needle).bind (inner needle h) := by
  rw [strcasestrBlockchar, blockLoop]
  cases strcasestr h needle <;> rfl

theorem inner_eq (h : Sds) (f : Nat) : inner needle h f =
    match strNextUnescapedChr h '\'' with
    | none => some f
    | some i =>
        if f < i then some f
        else match strNextUnescapedChr (h.drop (i + 1)) '\'' with
          | none => none
          | some k =>
              if f ≤ i + 1 + k + 1 then
                (strcasestrBlockchar (h.drop (i + 1 + k + 1)) needle).map (i + 1 + k + 1 + ·)
              else
                (inner needle (h.drop (i + 1 + k + 1)) (f - (i + 1 + k + 1))).map
                  (i + 1 + k + 1 + ·) := by
  rw [inner, blockLoop]
  cases hi : strNextUnescapedChr h '\'' with
  | none => rfl
  | some i =>
      have hh : 0 < h.length := by
        cases h with
        | nil => cases hi
        | cons c s => simp
      simp only
      split
      · rfl
      · cases strNextUnescapedChr (h.drop (i + 1)) '\'' with
        | none => rfl
        | some k =>
            have hl : 2 * (h.drop (i + 1 + k + 1)).length + 2 ≤ 2 * h.length := by
              rw [List.length_drop]
              omega
            have h1 := blockLoop_fuel needle (n := 2 * h.length)
              (m := 2 * (h.drop (i + 1 + k + 1)).length + 2) (h := h.drop (i + 1 + k + 1))
              (f := none) (by simpa using hl) (by simp)
            have h2 := blockLoop_fuel needle (n := 2 * h.length)
              (m := 2 * (h.drop (i + 1 + k + 1)).length + 1) (h := h.drop (i + 1 + k + 1))
              (f := some (f - (i + 1 + k + 1))) (by simp; omega) (by simp)
            simp only [h1, h2]
            rfl

end Blocks

/-- No quote and no backslash. -/
def Outside (o : Sds) : Prop := ∀ c ∈ o, c ≠ '\'' ∧ c ≠ '\\'

theorem unescaped_skip {x : Char} : ∀ {o : Sds} (r : Sds), (∀ c ∈ o, c ≠ x ∧ c ≠ '\\') →
    unescaped x false (o ++ r) = (unescaped x false r).map (o.length + ·)
  | [], r, _ => by simp
  | c :: o, r, h => by
      obtain ⟨h1, h2⟩ := h c List.mem_cons_self
      rw [List.cons_append, unescaped, if_neg (fun he => h1 he.1)]
      simp only [h2, decide_false, Bool.false_and]
      rw [unescaped_skip r fun d hd => h d (List.mem_cons_of_mem c hd), Option.map_map]
      congr 1
      funext k
      simp only [Function.comp_apply, List.length_cons]
      omega

theorem strNextUnescapedChr_skip {x : Char} {o : Sds} (h : ∀ c ∈ o, c ≠ x ∧ c ≠ '\\')
    (ho : o ≠ []) (r : Sds) :
    strNextUnescapedChr (o ++ r) x = (unescaped x false r).map (o.length + ·) := by
  obtain ⟨c, o, rfl⟩ := List.exists_cons_of_ne_nil ho
  have hc := h c List.mem_cons_self
  rw [List.cons_append, strNextUnescapedChr_cons, decide_eq_false hc.2,
    unescaped_skip r fun d hd => h d (List.mem_cons_of_mem c hd), Option.map_map]
  congr 1
  funext k
  simp only [Function.comp_apply, List.length_cons]
  omega

theorem Outside.next {o : Sds} (h : Outside o) (ho : o ≠ []) (r : Sds) :
    strNextUnescapedChr (o ++ r) '\'' = (unescaped '\'' false r).map (o.length + ·) :=
  strNextUnescapedChr_skip h ho r

/-- The closing quote of a text that is not empty. -/
theorem Escaped.next {body : Sds} (h : Escaped body) (hb : body ≠ []) (r : Sds) :
    strNextUnescapedChr (body ++ '\'' :: r) '\'' = some body.length := by
  have hf := h.closed.found r
  obtain ⟨c, s, rfl⟩ := List.exists_cons_of_ne_nil hb
  have hc : c ≠ '\'' := by
    cases h with
    | chr h _ _ => exact h
    | esc _ => decide
  rw [List.cons_append, unescaped, if_neg (fun he => hc he.1)] at hf
  rw [List.cons_append, strNextUnescapedChr_cons, List.length_cons]
  simpa using hf

section Search

variable {z o body : Sds} {j : Nat}

/-- The needle is found in what stands outside quotes. -/
theorem search_here (ho : Outside o) (hne : o ≠ []) {k : Nat} (hk : k ≤ o.length)
    (hpos : 0 < (key kw).length)
    (hf : caseEnd (key kw) 0 (o ++ z) = some k) :
    strcasestrBlockchar (o ++ z) (key kw) = some (k - (key kw).length) := by
  have hge := caseEnd_ge hf
  rw [search_eq, strcasestr, hf, Option.map_some, Option.bind_some, inner_eq, ho.next hne z]
  cases unescaped '\'' false z with
  | none => rfl
  | some i =>
      simp only [Option.map_some]
      rw [if_pos (by omega)]

/-- A quoted text is passed over if the needle is not met before it. -/
theorem search_block (hkw : foreign kw '\'' = true) (ho : Outside o) (hne : o ≠ [])
    (hr : runState (key kw) 0 o = some j) (he : Escaped body) (hb : body ≠ []) :
    strcasestrBlockchar (o ++ '\'' :: (body ++ '\'' :: z)) (key kw) =
      (strcasestrBlockchar z (key kw)).map (o.length + 1 + body.length + 1 + ·) := by
  have hn1 : strNextUnescapedChr (o ++ '\'' :: (body ++ '\'' :: z)) '\'' = some o.length := by
    rw [ho.next hne]
    simp [unescaped]
  have hd1 : (o ++ '\'' :: (body ++ '\'' :: z)).drop (o.length + 1) = body ++ '\'' :: z := by
    rw [List.drop_append]
    simp
  have hd2 : (o ++ '\'' :: (body ++ '\'' :: z)).drop (o.length + 1 + body.length + 1) = z := by
    rw [Nat.add_assoc (o.length + 1), ← List.drop_drop, hd1, List.drop_append]
    simp
  have hin : ∀ f, inner (key kw) (o ++ '\'' :: (body ++ '\'' :: z)) f =
      if f < o.length then some f
      else if f ≤ o.length + 1 + body.length + 1 then
        (strcasestrBlockchar z (key kw)).map (o.length + 1 + body.length + 1 + ·)
      else (inner (key kw) z (f - (o.length + 1 + body.length + 1))).map
        (o.length + 1 + body.length + 1 + ·) := by
    intro f
    rw [inner_eq, hn1]
    simp only [hd1, he.next hb, hd2]
  have hq : runState (key kw) 0 (o ++ ['\'']) = some 0 := by
    rw [runState_append hr, runState_foreign hkw]
    rfl
  have hce : caseEnd (key kw) 0 (o ++ '\'' :: (body ++ '\'' :: z)) =
      (caseEnd (key kw) 0 (body ++ '\'' :: z)).map (o.length + 1 + ·) := by
    have := caseEnd_append hq (body ++ '\'' :: z)
    simpa using this
  rw [search_eq, strcasestr, hce]
  cases hrb : runState (key kw) 0 body with
  | none =>
      -- a match inside the quotes: the search goes on behind them
      obtain ⟨k, hk, hkb⟩ := caseEnd_of_none hrb
      have hge := caseEnd_ge (hkb [])
      rw [hkb]
      simp only [Option.map_some, Option.bind_some]
      rw [hin, if_neg (by omega), if_pos (by omega)]
  | some j' =>
      have hbq : runState (key kw) 0 (body ++ ['\'']) = some 0 := by
        rw [runState_append hrb, runState_foreign hkw]
        rfl
      have hcz : caseEnd (key kw) 0 (body ++ '\'' :: z) =
          (caseEnd (key kw) 0 z).map (body.length + 1 + ·) := by
        have := caseEnd_append hbq z
        simpa using this
      rw [hcz, search_eq (key kw) z, strcasestr]
      cases hz : caseEnd (key kw) 0 z with
      | none => rfl
      | some k =>
          have hge := caseEnd_ge hz
          simp only [Option.map_some, Option.bind_some]
          rw [hin, if_neg (by omega)]
          split
          · rename_i hle
            have hk0 : k - (key kw).length = 0 := by omega
            rw [search_eq, strcasestr, hz]
            rfl
          · congr 2
            omega

theorem inner_some {h : Sds} {f g : Nat} (hf : inner (key kw) h f = some g) :
    g = f ∨ ∃ i, i ≤ g ∧ h[i]? = some '\'' := by
  rw [inner_eq] at hf
  cases hi : strNextUnescapedChr h '\'' with
  | none =>
      rw [hi] at hf
      exact .inl (Option.some_inj.mp hf).symm
  | some i =>
      rw [hi] at hf
      simp only at hf
      split at hf
      · exact .inl (Option.some_inj.mp hf).symm
      · right
        have hq : h[i]? = some '\'' := by
          have := List.find?_some hi
          simp only [Bool.and_eq_true, beq_iff_eq] at this
          exact this.1.2
        cases hk : strNextUnescapedChr (h.drop (i + 1)) '\'' with
        | none => rw [hk] at hf; cases hf
        | some k =>
            rw [hk] at hf
            simp only at hf
            split at hf
            · obtain ⟨g', _, rfl⟩ := Option.map_eq_some_iff.mp hf
              exact ⟨i, by omega, hq⟩
            · obtain ⟨g', _, rfl⟩ := Option.map_eq_some_iff.mp hf
              exact ⟨i, by omega, hq⟩

/-- What is found does not begin before the match that is under way. -/
theorem search_ge (ho : Outside o) (hr : runState (key kw) 0 o = some j) {f : Nat}
    (h : strcasestrBlockchar (o ++ z) (key kw) = some f) : o.length ≤ f + j := by
  rw [search_eq] at h
  obtain ⟨g, hg, hf⟩ := Option.bind_eq_some_iff.mp h
  rcases inner_some hf with rfl | ⟨i, hi, hq⟩
  · obtain ⟨k, hk, rfl⟩ := Option.map_eq_some_iff.mp hg
    rw [caseEnd_append hr] at hk
    obtain ⟨k', hk', rfl⟩ := Option.map_eq_some_iff.mp hk
    have := caseEnd_ge hk'
    omega
  · have hle : o.length ≤ i := by
      by_contra hlt
      rw [List.getElem?_append_left (by omega)] at hq
      exact (ho _ (List.mem_of_getElem? hq)).1 rfl
    omega

theorem search_none (h : runState (key kw) 0 o = some j) :
    strcasestrBlockchar o (key kw) = none := by
  rw [search_eq, strcasestr, caseEnd_of_runState h]
  rfl

/-- A text that begins with no quote. -/
def HeadOk (z : Sds) : Prop := ∀ c, z.head? = some c → c ≠ '\'' ∧ c ≠ '\\'

/-- A search that has to go on behind `x` begins anew there. -/
def Passes (kw : String) (x : Sds) : Prop := ∀ z, HeadOk z →
  strcasestrBlockchar (x ++ z) (key kw) = (strcasestrBlockchar z (key kw)).map (x.length + ·)

theorem HeadOk.next (hz : HeadOk z) :
    strNextUnescapedChr z '\'' = unescaped '\'' false z := by
  cases z with
  | nil => rfl
  | cons c s =>
      obtain ⟨h1, h2⟩ := hz c rfl
      rw [strNextUnescapedChr_cons, unescaped, if_neg (fun he => h1 he.1)]
      simp [h2]

theorem Outside.inner (ho : Outside o) (hne : o ≠ []) (hz : HeadOk z) (f : Nat) :
    inner (key kw) (o ++ z) (o.length + f) = (inner (key kw) z f).map (o.length + ·) := by
  rw [inner_eq, inner_eq, ho.next hne z, hz.next]
  cases unescaped '\'' false z with
  | none => rfl
  | some i =>
      simp only [Option.map_some]
      have hd : ∀ e, (o ++ z).drop (o.length + e) = z.drop e := by
        intro e
        rw [List.drop_append, List.drop_eq_nil_of_le (Nat.le_add_right _ _)]
        simp
      by_cases hlt : f < i
      · rw [if_pos (by omega), if_pos hlt]
        rfl
      · rw [if_neg (by omega), if_neg hlt, Nat.add_assoc o.length i 1, hd]
        cases strNextUnescapedChr (z.drop (i + 1)) '\'' with
        | none => rfl
        | some k =>
            simp only
            rw [Nat.add_assoc o.length (i + 1) k, Nat.add_assoc o.length (i + 1 + k) 1, hd]
            by_cases hle : f ≤ i + 1 + k + 1
            · rw [if_pos (by omega), if_pos hle, Option.map_map]
              congr 1
              funext g
              simp only [Function.comp_apply]
              omega
            · rw [if_neg (by omega), if_neg hle, Option.map_map,
                show o.length + f - (o.length + (i + 1 + k + 1)) = f - (i + 1 + k + 1) by omega]
              congr 1
              funext g
              simp only [Function.comp_apply]
              omega

theorem passes_out (ho : Outside o) (hr : runState (key kw) 0 o = some 0) : Passes kw o := by
  intro z hz
  by_cases hne : o = []
  · subst hne
    simp
  · rw [search_eq, search_eq, strcasestr, strcasestr, caseEnd_append hr]
    cases hk : caseEnd (key kw) 0 z with
    | none => rfl
    | some k =>
        have hge := caseEnd_ge hk
        simp only [Option.map_some, Option.bind_some]
        rw [show o.length + k - (key kw).length = o.length + (k - (key kw).length) by omega]
        exact ho.inner hne hz _

theorem passes_block (hkw : foreign kw '\'' = true) (ho : Outside o) (hne : o ≠ [])
    (hr : runState (key kw) 0 o = some j) (he : Escaped body) (hb : body ≠ []) :
    Passes kw (o ++ '\'' :: (body ++ ['\''])) := by
  intro z _
  have := search_block (z := z) hkw ho hne hr he hb
  have ha : o ++ '\'' :: (body ++ ['\'']) ++ z = o ++ '\'' :: (body ++ '\'' :: z) := by simp
  rw [ha, this]
  congr 1
  funext g
  simp
  omega

theorem Passes.append {x y : Sds} (hx : Passes kw x) (hy : Passes kw y) (hh : HeadOk y)
    (hne : y ≠ []) : Passes kw (x ++ y) := by
  intro z hz
  have hyz : HeadOk (y ++ z) := by
    obtain ⟨c, s, rfl⟩ := List.exists_cons_of_ne_nil hne
    exact hh
  rw [List.append_assoc, hx _ hyz, hy _ hz, Option.map_map]
  congr 1
  funext g
  simp only [Function.comp_apply, List.length_append]
  omega

end Search

end AlchemyDB.Text
