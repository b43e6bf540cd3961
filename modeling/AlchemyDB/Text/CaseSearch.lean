/-
# What `DXDB_strcasestr` finds

The search keeps one candidate.  When a character does not go on with it, the candidate
is dropped, and the search looks for the start of a match behind that character: neither
the character nor those the candidate had met are tried again.  So the text in front of
a match that is found consists of false starts, each with the character that ended it;
and a needle that lies behind other text is missed.  A needle of one character is never
found, because its end is not looked for at the character that starts a match.
-/
import AlchemyDB.Text.Keyword

namespace AlchemyDB.Text

open Catalog

/-! ## Occurrences -/

/-- A text without the difference of case. -/
def up (s : Sds) : Sds := s.map Char.toUpper

/-- The needle stands at place `p` of the text, in any case. -/
def Occurs (needle haystack : Sds) (p : Nat) : Prop := up needle <+: up (haystack.drop p)

instance (needle haystack : Sds) (p : Nat) : Decidable (Occurs needle haystack p) :=
  inferInstanceAs (Decidable (_ <+: _))

/-- What the search is for: the first place, and none only if there is none. -/
structure FindsFirst (needle haystack : Sds) (r : Option Nat) : Prop where
  first : ∀ p, r = some p ↔ Occurs needle haystack p ∧ ∀ q < p, ¬ Occurs needle haystack q
  none : r = none ↔ ∀ p, ¬ Occurs needle haystack p

/-- A text that is made of false starts: characters that begin the needle, possibly none,
and one that does not go on with it. -/
inductive FalseStarts (needle : Sds) : Sds → Prop
  | nil : FalseStarts needle []
  | start {w : Sds} {c : Char} {s : Sds} : up w <+: up needle → w.length < needle.length →
      ¬ up (w ++ [c]) <+: up needle → FalseStarts needle s → FalseStarts needle (w ++ c :: s)

variable {needle : Sds}

@[simp] theorem length_up (s : Sds) : (up s).length = s.length := List.length_map _

theorem up_append (a b : Sds) : up (a ++ b) = up a ++ up b := List.map_append

theorem any_same (c : Char) (o : Option Char) :
    o.any (sameChar c) = true ↔ o.map Char.toUpper = some c.toUpper := by
  cases o with
  | none => simp
  | some d =>
      simp only [Option.any_some, sameChar, beq_iff_eq, Option.map_some, Option.some.injEq]
      exact eq_comm

/-- A character goes on with the needle behind the characters that have been met. -/
theorem any_same_iff {u : Sds} (h : up u <+: up needle) (c : Char) :
    (needle[u.length]?).any (sameChar c) = true ↔ up (u ++ [c]) <+: up needle := by
  obtain ⟨t, ht⟩ := h
  have hget : (needle[u.length]?).map Char.toUpper = t.head? := by
    rw [← List.getElem?_map]
    show (up needle)[u.length]? = _
    rw [← ht, List.getElem?_append_right (by simp), length_up, Nat.sub_self, List.head?_eq_getElem?]
  rw [any_same, hget, up_append, ← ht, List.prefix_append_right_inj]
  cases t with
  | nil => simp [up]
  | cons d t => simp [up, eq_comm]

theorem caseStep_met {u : Sds} {c : Char} (h : up u <+: up needle)
    (hc : up (u ++ [c]) <+: up needle) : caseStep needle u.length c = u.length + 1 :=
  if_pos ((any_same_iff h c).2 hc)

theorem caseStep_dropped {u : Sds} {c : Char} (h : up u <+: up needle)
    (hc : ¬ up (u ++ [c]) <+: up needle) : caseStep needle u.length c = 0 :=
  if_neg fun h' => hc ((any_same_iff h c).1 h')

/-! ## What is found -/

/-- In front of a match that the loop finds there are only false starts; `u` is what the
candidate has met. -/
theorem caseEnd_split (h2 : 2 ≤ needle.length) : ∀ {s u : Sds} {k : Nat},
    up u <+: up needle → u.length < needle.length → caseEnd needle u.length s = some k →
    ∃ a b, u ++ s = a ++ b ∧ FalseStarts needle a ∧ up needle <+: up b ∧
      u.length + k = a.length + needle.length
  | [], _, _, _, _, h => by cases h
  | c :: s, u, k, hu, hlt, h => by
      rw [caseEnd] at h
      by_cases hc : up (u ++ [c]) <+: up needle
      · rw [caseStep_met hu hc] at h
        split_ifs at h with hend
        · obtain rfl : 1 = k := Option.some.inj h
          have heq : up (u ++ [c]) = up needle := hc.eq_of_length (by simp [hend.2])
          refine ⟨[], u ++ c :: s, rfl, .nil, ?_, by simp [hend.2]⟩
          rw [← heq, List.append_cons u c s, up_append (u ++ [c]) s]
          exact List.prefix_append _ _
        · obtain ⟨k', hk', rfl⟩ := Option.map_eq_some_iff.1 h
          have hlen : (u ++ [c]).length = u.length + 1 := by simp
          rw [← hlen] at hk'
          have hlt' : (u ++ [c]).length < needle.length := by omega
          obtain ⟨a, b, hab, ha, hb, hk⟩ := caseEnd_split h2 hc hlt' hk'
          refine ⟨a, b, by rw [List.append_cons, hab], ha, hb, ?_⟩
          rw [← hk, hlen]
          omega
      · rw [caseStep_dropped hu hc, if_neg (by omega)] at h
        obtain ⟨k', hk', rfl⟩ := Option.map_eq_some_iff.1 h
        have hpos : ([] : Sds).length < needle.length := by
          rw [List.length_nil]
          omega
        obtain ⟨a, b, hab, ha, hb, hk⟩ := caseEnd_split (u := []) h2 List.nil_prefix hpos hk'
        refine ⟨u ++ c :: a, b, ?_, .start hu hlt hc ha, hb, ?_⟩
        · rw [List.append_assoc, List.cons_append, ← hab]
          rfl
        · simp only [List.length_append, List.length_cons, List.length_nil] at hk ⊢
          omega

/-- The loop goes along with characters that begin the needle. -/
theorem runState_met : ∀ {w u : Sds}, up (u ++ w) <+: up needle →
    u.length + w.length < needle.length →
    runState needle u.length w = some (u.length + w.length)
  | [], _, _, _ => rfl
  | c :: w, u, h, hlt => by
      rw [List.append_cons] at h
      have hc : up (u ++ [c]) <+: up needle := by
        rw [up_append (u ++ [c]) w] at h
        exact (List.prefix_append _ _).trans h
      have hu : up u <+: up needle := by
        rw [up_append] at hc
        exact (List.prefix_append _ _).trans hc
      have hlen : (u ++ [c]).length = u.length + 1 := by simp
      simp only [List.length_cons] at hlt ⊢
      rw [runState, caseStep_met hu hc, if_neg (by omega), ← hlen, runState_met h (by omega), hlen]
      congr 1
      omega

/-- False starts bring the loop back to where it began. -/
theorem runState_falseStarts {s : Sds} (h : FalseStarts needle s) :
    runState needle 0 s = some 0 := by
  induction h with
  | nil => rfl
  | @start w c s hw hlt hc _ ih =>
      have hmet : runState needle 0 w = some w.length := by
        have h0 := runState_met (u := []) hw (by simpa using hlt)
        simpa using h0
      rw [runState_append hmet, runState, caseStep_dropped hw hc, if_neg (by omega)]
      exact ih

/-- The needle is met where the search stands. -/
theorem caseEnd_here (h2 : 2 ≤ needle.length) {s : Sds} (h : up needle <+: up s) :
    caseEnd needle 0 s = some needle.length := by
  have hle : needle.length ≤ s.length := by simpa using h.length_le
  have htake : up (s.take needle.length) = up needle := by
    rw [up, List.map_take]
    have heq := (List.prefix_iff_eq_take.1 h).symm
    rwa [length_up] at heq
  have hlen : (s.take needle.length).length = needle.length := by simp [hle]
  have hne : s.take needle.length ≠ [] := by
    intro hnil
    rw [hnil, List.length_nil] at hlen
    omega
  have hmet := caseEnd_meets needle h2 (j := 0) hne (by omega) (fun i c hc => by
    rw [Nat.zero_add, any_same, ← List.getElem?_map]
    show (up needle)[i]? = _
    rw [← htake, up, List.getElem?_map, hc]
    rfl) (s.drop needle.length)
  rwa [List.take_append_drop, hlen] at hmet

/-- The end of a needle of one character is never seen. -/
theorem caseEnd_single (h1 : needle.length = 1) : ∀ (s : Sds) (j : Nat), j ≤ 1 →
    caseEnd needle j s = none
  | [], _, _ => rfl
  | c :: s, j, hj => by
      have hstep : caseStep needle j c ≤ 1 ∧ ¬ (0 < j ∧ caseStep needle j c = needle.length) := by
        rcases Nat.le_one_iff_eq_zero_or_eq_one.1 hj with rfl | rfl
        · refine ⟨?_, by omega⟩
          rw [caseStep]
          split_ifs <;> omega
        · have hout : needle[1]? = none := List.getElem?_eq_none (by omega)
          rw [caseStep, hout, if_neg (by simp)]
          omega
      rw [caseEnd, if_neg hstep.2, caseEnd_single h1 s _ hstep.1]
      rfl

/-! ## When the search is right -/

/-- The needle is found behind false starts. -/
theorem strcasestr_behind (h2 : 2 ≤ needle.length) {haystack : Sds} {p : Nat}
    (ho : Occurs needle haystack p) (hf : FalseStarts needle (haystack.take p)) :
    strcasestr haystack needle = some p := by
  have hp : p ≤ haystack.length := by
    have hle : needle.length ≤ (haystack.drop p).length := by simpa using ho.length_le
    rw [List.length_drop] at hle
    omega
  have hend := caseEnd_append (runState_falseStarts hf) (haystack.drop p)
  rw [List.take_append_drop, caseEnd_here h2 ho, List.length_take_of_le hp] at hend
  rw [strcasestr, hend]
  simp

/-- What is found is the needle, behind false starts. -/
theorem strcasestr_found (hne : needle ≠ []) {haystack : Sds} {p : Nat}
    (h : strcasestr haystack needle = some p) :
    2 ≤ needle.length ∧ Occurs needle haystack p ∧ FalseStarts needle (haystack.take p) := by
  obtain ⟨k, hk, rfl⟩ := Option.map_eq_some_iff.1 h
  have h2 : 2 ≤ needle.length := by
    by_contra hlt
    have hpos := List.length_pos_iff.2 hne
    rw [caseEnd_single (by omega) haystack 0 (by omega)] at hk
    cases hk
  have hpos : ([] : Sds).length < needle.length := by
    rw [List.length_nil]
    omega
  obtain ⟨a, b, hab, ha, hb, hlen⟩ := caseEnd_split (u := []) h2 List.nil_prefix hpos hk
  have hplace : k - needle.length = a.length := by
    simp only [List.length_nil] at hlen
    omega
  rw [List.nil_append] at hab
  rw [hplace, hab, Occurs, List.drop_left, List.take_left]
  exact ⟨h2, hb, ha⟩

/-- The first occurrence is found exactly when the text in front of it consists of false
starts, and the needle is longer than one character. -/
theorem findsFirst_iff (haystack : Sds) (hne : needle ≠ []) :
    FindsFirst needle haystack (strcasestr haystack needle) ↔
      ∀ p, Occurs needle haystack p → (∀ q < p, ¬ Occurs needle haystack q) →
        2 ≤ needle.length ∧ FalseStarts needle (haystack.take p) := by
  constructor
  · intro F p ho hfirst
    obtain ⟨h2, -, hf⟩ := strcasestr_found hne ((F.first p).2 ⟨ho, hfirst⟩)
    exact ⟨h2, hf⟩
  · intro hcond
    have hfind : ∀ p, Occurs needle haystack p → (∀ q < p, ¬ Occurs needle haystack q) →
        strcasestr haystack needle = some p := by
      intro p ho hfirst
      obtain ⟨h2, hf⟩ := hcond p ho hfirst
      exact strcasestr_behind h2 ho hf
    -- a place where the needle stands gives a first one
    have hleast : (∃ p, Occurs needle haystack p) →
        ∃ p, Occurs needle haystack p ∧ ∀ q < p, ¬ Occurs needle haystack q :=
      fun hex => ⟨Nat.find hex, Nat.find_spec hex, fun q hq => Nat.find_min hex hq⟩
    constructor
    · intro p
      constructor
      · intro h
        obtain ⟨-, ho, -⟩ := strcasestr_found hne h
        obtain ⟨q, hq, hfirst⟩ := hleast ⟨p, ho⟩
        obtain rfl : p = q := Option.some.inj (h.symm.trans (hfind q hq hfirst))
        exact ⟨hq, hfirst⟩
      · rintro ⟨ho, hfirst⟩
        exact hfind p ho hfirst
    · constructor
      · intro h p ho
        obtain ⟨q, hq, hfirst⟩ := hleast ⟨p, ho⟩
        rw [hfind q hq hfirst] at h
        cases h
      · intro hno
        cases hs : strcasestr haystack needle with
        | none => rfl
        | some p => exact absurd (strcasestr_found hne hs).2.1 (hno p)

/-- Two blanks stand in front of the keyword: the second one ends a false start. -/
theorem strcasestr_two_blanks :
    ¬ FindsFirst " AND ".toList "a  and b".toList (strcasestr "a  and b".toList " AND ".toList) := by
  intro F
  have hmiss : strcasestr "a  and b".toList " AND ".toList = none := by decide
  have hocc : Occurs " AND ".toList "a  and b".toList 2 := by decide
  exact F.none.1 hmiss 2 hocc

/-- Three blanks do no harm. -/
theorem strcasestr_three_blanks :
    FindsFirst " AND ".toList "a   and b".toList (strcasestr "a   and b".toList " AND ".toList) := by
  have hs : ∀ p, Occurs " AND ".toList "a   and b".toList p → p = 3 := by
    intro p ho
    have hle : " AND ".toList.length ≤ ("a   and b".toList.drop p).length := by
      simpa using ho.length_le
    have hp : p < 5 := by
      rw [List.length_drop] at hle
      simp at hle
      omega
    have hall : ∀ p < 5, Occurs " AND ".toList "a   and b".toList p → p = 3 := by decide
    exact hall p hp ho
  have hf : FalseStarts " AND ".toList ("a   and b".toList.take 3) :=
    .start (w := []) (c := 'a') (s := [' ', ' ']) (by decide) (by decide) (by decide)
      (.start (w := [' ']) (c := ' ') (s := []) (by decide) (by decide) (by decide) .nil)
  refine (findsFirst_iff "a   and b".toList (by decide)).2 fun p ho _ => ?_
  rw [hs p ho]
  exact ⟨by decide, hf⟩

end AlchemyDB.Text
