/-
# Where a predicate ends

The three searches of `parseWC` at the head of a clean clause: they find the keyword of
the predicate, if it has one, and the ` AND ` that ends it.
-/
import AlchemyDB.Text.Predicates

namespace AlchemyDB.Text

open Catalog

variable {kw : String}

/-! ## Words that are passed -/

theorem Lit.Wf.num_outside {s : Sds} (h : (Lit.num s).Wf) : Outside s :=
  outside_of h.1 (by decide) (by decide)

theorem runState_sp (hkw : kw ∈ keywords) {o : Sds} (h : runState (key kw) 0 o = some 0) (n : Nat) :
    runState (key kw) 0 (o ++ sp n) = some (n % 2) := by
  rw [runState_append h, runState_blanks hkw]

/-- A number behind blanks. -/
theorem runState_num (hkw : kw ∈ keywords) {s o : Sds} {n : Nat} (h : (Lit.num s).Wf)
    (ho : runState (key kw) 0 o = some (n % 2)) : runState (key kw) 0 (o ++ s) = some 0 := by
  obtain ⟨hs, c, r, rfl, hc⟩ := h
  have hb := no_blank_of hs (by decide)
  rw [runState_append ho]
  apply runState_token (hb c List.mem_cons_self)
  · intro d hd
    obtain ⟨_, _, e, he, hup⟩ := key_chars hkw
    rw [he] at hd
    cases hd
    by_contra hne
    have := sameChar_upper hup (by simpa using hne)
    rw [hc] at this
    cases this
  · exact fun d hd => hb d (List.mem_cons_of_mem c hd)

/-- A literal that is not the empty text, behind blanks. -/
theorem passes_lit (hkw : kw ∈ keywords) {l : Lit} (h : l.Wf) (hf : l.Full) {o : Sds} {n : Nat}
    (ho : Outside o) (hne : o ≠ []) (hr : runState (key kw) 0 o = some (n % 2)) :
    Passes kw (o ++ l.chars) := by
  cases l with
  | num s => exact passes_out (outside_append ho h.num_outside) (runState_num hkw h hr)
  | txt body => exact passes_block (foreign_quote hkw) ho hne hr h hf

/-- A keyword, after an odd run of blanks and before a blank. -/
theorem search_keyword (hkw : kw ∈ keywords) {o k z : Sds} {n : Nat} (ho : Outside o)
    (hr : runState (key kw) 0 o = some 0) (hn : n % 2 = 1) (hk : spells kw k) :
    strcasestrBlockchar (o ++ (sp n ++ (k ++ ' ' :: z))) (key kw) = some (o.length + (n - 1)) := by
  have hpre : runState (key kw) 0 (o ++ sp n) = some 1 := by rw [runState_sp hkw hr, hn]
  have hko : Outside k := by
    intro c hc
    have := spells_alpha hk hkw c hc
    constructor
    · rintro rfl; cases this
    · rintro rfl; cases this
  have hend : caseEnd (key kw) 0 ((o ++ (sp n ++ (k ++ [' ']))) ++ z) =
      some (o.length + n + (k.length + 1)) := by
    have h1 : (o ++ (sp n ++ (k ++ [' ']))) ++ z = (o ++ sp n) ++ (k ++ ' ' :: z) := by simp
    rw [h1, caseEnd_append hpre, caseEnd_keyword hk]
    simp
  have hout : Outside (o ++ (sp n ++ (k ++ [' ']))) :=
    outside_append ho (outside_append (outside_sp n) (outside_append hko (outside_sp 1)))
  have hne : o ++ (sp n ++ (k ++ [' '])) ≠ [] := by simp
  have := search_here (z := z) hout hne (by simp; omega) (by rw [length_key]; omega) hend
  rw [length_key, ← hk.1] at this
  have ha : (o ++ (sp n ++ (k ++ [' ']))) ++ z = o ++ (sp n ++ (k ++ ' ' :: z)) := by simp
  rw [ha] at this
  rw [this]
  congr 1
  omega

/-- Another keyword does not stop the search. -/
theorem runState_keyword (hkw : kw ∈ keywords) {k : String} (hk : k ∈ keywords) (hne : kw ≠ k)
    {o s : Sds} {n : Nat} (hr : runState (key kw) 0 o = some (n % 2)) (hs : spells k s) :
    runState (key kw) 0 (o ++ s) = some 0 := by
  obtain ⟨c, r, rfl, hd⟩ := spells_head hs hk hkw hne
  have hb : ∀ d ∈ c :: r, d ≠ ' ' := by
    rintro d hd rfl
    have := spells_alpha hs hk ' ' hd
    cases this
  rw [runState_append hr]
  exact runState_token (hb c List.mem_cons_self) hd fun d hd => hb d (List.mem_cons_of_mem c hd)

theorem outside_spells {k : String} (hk : k ∈ keywords) {s : Sds} (hs : spells k s) :
    Outside s := by
  intro c hc
  have := spells_alpha hs hk c hc
  constructor
  · rintro rfl; cases this
  · rintro rfl; cases this

/-! ## What follows a predicate -/

/-- Blanks, or an ` AND ` that is found; `o` is where it is found. -/
inductive Follows : Sds → Option Nat → Prop
  | last (t : Nat) : Follows (sp t) none
  | sep {n : Nat} {k z : Sds} : n % 2 = 1 → spells "AND" k →
      Follows (sp n ++ (k ++ ' ' :: z)) (some (n - 1))

namespace Follows

variable {r : Sds} {o : Option Nat}

theorem headOk (h : Follows r o) : HeadOk r := by
  intro c hc
  have : c = ' ' := by
    cases h with
    | last t =>
        cases t with
        | zero => cases hc
        | succ t => exact (Option.some_inj.mp hc).symm
    | @sep n k z hn _ =>
        obtain ⟨m, rfl⟩ : ∃ m, n = m + 1 := ⟨n - 1, by omega⟩
        exact (Option.some_inj.mp hc).symm
  rw [this]
  decide

theorem and (h : Follows r o) : strcasestrBlockchar r (key "AND") = o := by
  cases h with
  | last t => exact search_none (runState_blanks (by decide) t)
  | @sep n k z hn hk =>
      have := search_keyword (o := []) (z := z) (by decide)
        (fun c hc => absurd hc List.not_mem_nil) rfl hn hk
      simpa using this

/-- Other keywords stand behind the ` AND `. -/
theorem other (h : Follows r o) (hkw : kw ∈ keywords) (hne : kw ≠ "AND") {f : Nat}
    (hf : strcasestrBlockchar r (key kw) = some f) : ∃ a, o = some a ∧ a < f := by
  cases h with
  | last t =>
      rw [search_none (runState_blanks hkw t)] at hf
      cases hf
  | @sep n k z hn hk =>
      have hs : runState (key kw) 0 (sp n ++ k) = some 0 :=
        runState_keyword hkw (by decide) hne (runState_blanks hkw n) hk
      have hb : runState (key kw) 0 ((sp n ++ k) ++ sp 1) = some 1 := runState_sp hkw hs 1
      have ho : Outside ((sp n ++ k) ++ sp 1) :=
        outside_append (outside_append (outside_sp n) (outside_spells (by decide) hk)) (outside_sp 1)
      have hr : sp n ++ (k ++ ' ' :: z) = ((sp n ++ k) ++ sp 1) ++ z := by simp [sp]
      rw [hr] at hf
      have := search_ge ho hb hf
      simp only [List.length_append, length_sp] at this
      exact ⟨n - 1, rfl, by omega⟩

end Follows

/-! ## The head of a line -/

theorem runState_col {c : Sds} (hc : ∀ d ∈ c, Pred.nameChar d = true) :
    Outside c ∧ runState (key kw) 0 c = some 0 :=
  ⟨outside_of hc (by decide) (by decide), runState_word (no_blank_of hc (by decide))⟩

/-- `col = `. -/
theorem eq_head (hkw : kw ∈ keywords) {c : Sds} (hc : ∀ d ∈ c, Pred.nameChar d = true)
    (n₁ n₂ : Nat) : Outside (c ++ (sp n₁ ++ '=' :: sp n₂)) ∧
      runState (key kw) 0 (c ++ (sp n₁ ++ '=' :: sp n₂)) = some (n₂ % 2) := by
  obtain ⟨h1, h2⟩ := runState_col hc
  refine ⟨outside_append h1 (outside_append (outside_sp _) ?_), ?_⟩
  · intro d hd
    rcases List.mem_cons.mp hd with rfl | hd
    · decide
    · exact outside_sp _ d hd
  · rw [← List.append_assoc, runState_append (runState_sp hkw h2 n₁),
      runState_foreign (foreign_eq hkw), runState_blanks hkw]

/-- `col KEYWORD `, before the search for another keyword. -/
theorem kw_head {w : String} (hkw : w ∈ keywords) {k : String} (hk : k ∈ keywords) (hne : w ≠ k) {c s : Sds}
    (hc : ∀ d ∈ c, Pred.nameChar d = true) (hs : spells k s) (n₁ n₂ : Nat) :
    Outside (c ++ (sp n₁ ++ (s ++ sp n₂))) ∧
      runState (key w) 0 (c ++ (sp n₁ ++ (s ++ sp n₂))) = some (n₂ % 2) := by
  obtain ⟨h1, h2⟩ := runState_col hc
  refine ⟨outside_append h1 (outside_append (outside_sp _)
    (outside_append (outside_spells hk hs) (outside_sp _))), ?_⟩
  have := runState_sp hkw (runState_keyword hkw hk hne (runState_sp hkw h2 n₁) hs) n₂
  simpa using this

/-! ## The cut -/

section Split

variable {line : Sds}

/-- `kw` is not found before the ` AND `. -/
def Behind (line : Sds) (kw : String) (o : Option Nat) : Prop :=
  ∀ f, strcasestrBlockchar line (key kw) = some f → ∃ a, o = some a ∧ a < f

theorem Behind.not_before {o : Option Nat} {a : Nat} (h : Behind line kw o) (ho : o = some a) :
    (strcasestrBlockchar line (key kw)).any (· < a) = false := by
  cases hf : strcasestrBlockchar line (key kw) with
  | none => rfl
  | some f =>
      obtain ⟨a', ha', hlt⟩ := h f hf
      rw [ho] at ha'
      cases ha'
      simp
      omega

theorem splitLine_key {o : Option Nat} (ha : strcasestrBlockchar line (key "AND") = o)
    (hin : Behind line "IN" o) (hbt : Behind line "BETWEEN" o) :
    splitLine line = some (o, .key) := by
  unfold splitLine
  rw [key_in, key_and, ha]
  cases ho : o with
  | none =>
      cases hi : strcasestrBlockchar line (key "IN") with
      | none => rfl
      | some f =>
          obtain ⟨a', ha', _⟩ := hin f hi
          rw [ho] at ha'
          cases ha'
  | some a =>
      have hnb := hbt.not_before ho
      have hb : splitLine.between line a = some a := by
        rw [splitLine.between, key_between, hnb]
        rfl
      have ht : splitLine.tokBetween line a = .key := by
        rw [splitLine.tokBetween, key_between, hnb]
        rfl
      cases hi : strcasestrBlockchar line (key "IN") with
      | none => simp only [hb, ht]
      | some f =>
          obtain ⟨a', ha', hlt⟩ := hin f hi
          rw [ho] at ha'
          cases ha'
          simp only [if_neg (show ¬ f < a by omega), hb, ht]

theorem splitLine_range {a b : Nat} (ha : strcasestrBlockchar line (key "AND") = some a)
    (hin : Behind line "IN" (some a)) (hb : strcasestrBlockchar line (key "BETWEEN") = some b)
    (hlt : b < a) : splitLine line =
      some ((strcasestrBlockchar (line.drop (a + 5)) (key "AND")).map (a + 5 + ·), .range) := by
  unfold splitLine
  have hany : (strcasestrBlockchar line (key "BETWEEN")).any (· < a) = true := by
    rw [hb]
    simpa using hlt
  have h1 : splitLine.between line a =
      (strcasestrBlockchar (line.drop (a + 5)) (key "AND")).map (a + 5 + ·) := by
    rw [splitLine.between, key_between, key_and, hany]
    rfl
  have h2 : splitLine.tokBetween line a = .range := by
    rw [splitLine.tokBetween, key_between, hany]
    rfl
  rw [key_in, key_and, ha]
  cases hi : strcasestrBlockchar line (key "IN") with
  | none => simp only [h1, h2]
  | some f =>
      obtain ⟨a', ha', hlt'⟩ := hin f hi
      cases ha'
      simp only [if_neg (show ¬ f < a by omega), h1, h2]

theorem splitLine_in_last {i : Nat} (hi : strcasestrBlockchar line (key "IN") = some i)
    (ha : strcasestrBlockchar line (key "AND") = none) : splitLine line = some (none, .isIn) := by
  unfold splitLine
  rw [key_in, key_and, hi, ha]

theorem splitLine_in {i a p e : Nat} (hi : strcasestrBlockchar line (key "IN") = some i)
    (ha : strcasestrBlockchar line (key "AND") = some a) (hlt : i < a)
    (hp : p = i + 4 + ((line.drop (i + 4)).takeWhile isBlank).length)
    (he : checkINClause (line.drop p) = some e) : splitLine line =
      some ((strcasestrBlockchar (line.drop (p + e)) (key "AND")).map (p + e + ·), .isIn) := by
  unfold splitLine
  rw [key_in, key_and, hi, ha]
  simp only [if_pos hlt, ← hp, he]

end Split

/-! ## Each kind of predicate -/

section Kinds

variable {r : Sds} {o : Option Nat}

theorem behind_of_passes {x : Sds} (hx : Passes kw x) (hf : Follows r o) (hkw : kw ∈ keywords)
    (hne : kw ≠ "AND") : Behind (x ++ r) kw (o.map (x.length + ·)) := by
  intro f h
  rw [hx r hf.headOk] at h
  obtain ⟨g, hg, rfl⟩ := Option.map_eq_some_iff.mp h
  obtain ⟨a, rfl, hlt⟩ := hf.other hkw hne hg
  exact ⟨x.length + a, rfl, by omega⟩

/-- The ` AND ` behind `col = v`. -/
theorem split_eq {c : Sds} {n₁ n₂ : Nat} {v : Lit} (hw : (Pred.eq c n₁ n₂ v).Wf)
    (hf : Follows r o) (hfull : v.Full ∨ r = []) :
    splitLine ((Pred.eq c n₁ n₂ v).chars ++ r) =
      some (o.map ((Pred.eq c n₁ n₂ v).chars.length + ·), .key) := by
  obtain ⟨hne, hc, hl, _⟩ := hw
  replace hne : c ≠ [] := hne
  replace hc : ∀ d ∈ c, Pred.nameChar d = true := hc
  have hv : v.Wf := hl v (by simp [Pred.lits])
  have hx : (Pred.eq c n₁ n₂ v).chars = (c ++ (sp n₁ ++ '=' :: sp n₂)) ++ v.chars := by
    simp [Pred.chars]
  by_cases hfl : v.Full
  · have hp : ∀ {kw : String}, kw ∈ keywords → Passes kw (Pred.eq c n₁ n₂ v).chars := by
      intro kw hkw
      obtain ⟨h1, h2⟩ := eq_head hkw hc n₁ n₂
      rw [hx]
      exact passes_lit hkw hv hfl h1 (by simp [hne]) h2
    refine splitLine_key ?_ (behind_of_passes (hp (by decide)) hf (by decide) (by decide))
      (behind_of_passes (hp (by decide)) hf (by decide) (by decide))
    rw [hp (by decide) r hf.headOk, hf.and]
  · -- the empty text at the very end: no keyword at all
    have hr : r = [] := hfull.resolve_left hfl
    subst hr
    have ho : o = none := by
      generalize hrr : ([] : Sds) = r at hf
      cases hf with
      | last t => rfl
      | sep hn hk =>
          have := congrArg List.length hrr
          simp at this
    subst ho
    have hb : v = .txt [] := by
      cases v with
      | num s => exact absurd trivial hfl
      | txt body =>
          have : body = [] := by simpa [Lit.Full] using hfl
          rw [this]
    have hnone : ∀ {kw : String}, kw ∈ keywords →
        strcasestrBlockchar ((Pred.eq c n₁ n₂ v).chars ++ []) (key kw) = none := by
      intro kw hkw
      obtain ⟨_, h2⟩ := eq_head hkw hc n₁ n₂
      rw [List.append_nil, hx, hb]
      refine search_none (j := 0) ?_
      rw [runState_append h2]
      show runState (key kw) _ ['\'', '\''] = _
      rw [runState_foreign (foreign_quote hkw), runState_foreign (foreign_quote hkw)]
      rfl
    refine splitLine_key (hnone (by decide)) ?_ ?_
    · intro f h
      rw [hnone (by decide)] at h
      cases h
    · intro f h
      rw [hnone (by decide)] at h
      cases h

/-- The quote at its end leaves nothing of a text that has been met. -/
theorem runState_txt (hkw : kw ∈ keywords) {body : Sds}
    (h : strcasestr (Lit.txt body).chars (key kw) = none) :
    runState (key kw) 0 (Lit.txt body).chars = some 0 := by
  have hq : ∀ j, runState (key kw) j ['\''] = some 0 := by
    intro j
    rw [runState_foreign (foreign_quote hkw)]
    rfl
  have hce : caseEnd (key kw) 0 ('\'' :: body ++ ['\'']) = none := Option.map_eq_none_iff.mp h
  show runState (key kw) 0 ('\'' :: body ++ ['\'']) = some 0
  cases hrs : runState (key kw) 0 ('\'' :: body) with
  | none =>
      obtain ⟨k, _, hk⟩ := caseEnd_of_none hrs
      rw [hk] at hce
      cases hce
  | some j => rw [runState_append hrs, hq]

/-- The ` AND ` behind the second bound, searched for from `m` blanks before it. -/
theorem search_bound {hi : Lit} {last : Option Nat} (m : Nat) (hw : hi.Wf)
    (hfull : hi.Full ∨ last = some 0)
    (hx : hi.isTxt = false ∨ 0 < m ∨
      (last.isSome = true ∧ strcasestr hi.chars " AND ".toList = none))
    (hf : Follows r o) (hlast : ∀ t, last = some t → r = sp t) :
    strcasestrBlockchar (sp m ++ (hi.chars ++ r)) (key "AND") =
      o.map ((sp m ++ hi.chars).length + ·) := by
  have hand : "AND" ∈ keywords := by decide
  have hsm : runState (key "AND") 0 (sp m) = some (m % 2) := runState_blanks hand m
  rw [← List.append_assoc]
  cases hi with
  | num s =>
      have hp : Passes "AND" (sp m ++ s) := passes_out
        (outside_append (outside_sp m) hw.num_outside) (runState_num hand hw hsm)
      rw [show (Lit.num s).chars = s from rfl, hp r hf.headOk, hf.and]
  | txt body =>
      by_cases hb : body = []
      · -- the empty text at the very end
        have ht : last = some 0 := hfull.resolve_left (fun h => h hb)
        have hr : r = [] := by simpa [sp] using hlast 0 ht
        subst hr
        have ho : o = none := by
          rw [← hf.and]
          rfl
        subst ho
        rw [List.append_nil, hb]
        refine search_none (j := 0) ?_
        rw [runState_append hsm]
        show runState (key "AND") _ ['\'', '\''] = _
        rw [runState_foreign (foreign_quote hand), runState_foreign (foreign_quote hand)]
        rfl
      · rcases Nat.eq_zero_or_pos m with rfl | hm
        · -- right behind the blank: only at the end, with no AND inside
          have hx' : last.isSome = true ∧
              strcasestr (Lit.txt body).chars (key "AND") = none := by
            rcases hx with h | h | h
            · cases h
            · omega
            · rw [key_and] at h
              exact h
          obtain ⟨t, ht⟩ := Option.isSome_iff_exists.mp hx'.1
          have hr : r = sp t := hlast t ht
          subst hr
          have ho : o = none := by
            rw [← hf.and]
            exact search_none (runState_blanks hand t)
          subst ho
          exact search_none (runState_sp hand (runState_txt hand hx'.2) t)
        · have hne : sp m ≠ [] := by
            intro he
            have := congrArg List.length he
            simp at this
            omega
          have hp : Passes "AND" (sp m ++ (Lit.txt body).chars) :=
            passes_block (foreign_quote hand) (outside_sp m) hne hsm hw hb
          rw [hp r hf.headOk, hf.and]

/-- The ` AND ` behind `col BETWEEN lo AND hi`. -/
theorem split_between {c k₁ k₂ : Sds} {n₁ n₂ n₃ n₄ : Nat} {lo hi : Lit} {last : Option Nat}
    (hw : (Pred.between c n₁ k₁ n₂ lo n₃ k₂ n₄ hi).Wf)
    (hcl : (Pred.between c n₁ k₁ n₂ lo n₃ k₂ n₄ hi).Clean last) (hf : Follows r o)
    (hlast : ∀ t, last = some t → r = sp t) :
    splitLine ((Pred.between c n₁ k₁ n₂ lo n₃ k₂ n₄ hi).chars ++ r) =
      some (o.map ((Pred.between c n₁ k₁ n₂ lo n₃ k₂ n₄ hi).chars.length + ·), .range) := by
  obtain ⟨hne, hc, hl, hn1, hk1, hn2, hn3, hk2, hn4⟩ := hw
  replace hne : c ≠ [] := hne
  replace hc : ∀ d ∈ c, Pred.nameChar d = true := hc
  obtain ⟨ho1, ho3, hlf, hhf, hhi⟩ := hcl
  have hlo : lo.Wf := hl lo (by simp [Pred.lits])
  have hhw : hi.Wf := hl hi (by simp [Pred.lits])
  obtain ⟨m, rfl⟩ : ∃ m, n₄ = m + 1 := ⟨n₄ - 1, by omega⟩
  -- the first bound is passed
  set H := c ++ (sp n₁ ++ (k₁ ++ sp n₂)) with hH
  have hHne : H ≠ [] := by simp [hH, hne]
  have hpass : ∀ {kw : String}, kw ∈ keywords → kw ≠ "BETWEEN" → Passes kw (H ++ lo.chars) := by
    intro kw hkw hk
    obtain ⟨h1, h2⟩ := kw_head hkw (by decide) hk hc hk1 n₁ n₂
    exact passes_lit hkw hlo hlf h1 hHne h2
  have hinner : Follows (sp n₃ ++ (k₂ ++ ' ' :: (sp m ++ (hi.chars ++ r)))) (some (n₃ - 1)) :=
    .sep ho3 hk2
  have hline : (Pred.between c n₁ k₁ n₂ lo n₃ k₂ (m + 1) hi).chars ++ r =
      (H ++ lo.chars) ++ (sp n₃ ++ (k₂ ++ ' ' :: (sp m ++ (hi.chars ++ r)))) := by
    simp [Pred.chars, hH, sp, List.replicate_succ]
  have hand : strcasestrBlockchar ((Pred.between c n₁ k₁ n₂ lo n₃ k₂ (m + 1) hi).chars ++ r)
      (key "AND") = some ((H ++ lo.chars).length + (n₃ - 1)) := by
    rw [hline, hpass (by decide) (by decide) _ hinner.headOk, hinner.and]
    rfl
  have hin : Behind ((Pred.between c n₁ k₁ n₂ lo n₃ k₂ (m + 1) hi).chars ++ r) "IN"
      (some ((H ++ lo.chars).length + (n₃ - 1))) := by
    rw [hline]
    exact behind_of_passes (hpass (by decide) (by decide)) hinner (by decide) (by decide)
  have hbt : strcasestrBlockchar ((Pred.between c n₁ k₁ n₂ lo n₃ k₂ (m + 1) hi).chars ++ r)
      (key "BETWEEN") = some (c.length + (n₁ - 1)) := by
    obtain ⟨hcO, hcR⟩ := runState_col hc
    obtain ⟨m₂, rfl⟩ : ∃ m₂, n₂ = m₂ + 1 := ⟨n₂ - 1, by omega⟩
    have := search_keyword (by decide) hcO hcR ho1 hk1
      (z := sp m₂ ++ (lo.chars ++ (sp n₃ ++ (k₂ ++ ' ' :: (sp m ++ (hi.chars ++ r))))))
    rw [← this]
    congr 1
    simp [Pred.chars, sp, List.replicate_succ]
  have hlen : k₂.length = 3 := hk2.1
  have hHlen : H.length = c.length + (n₁ + (k₁.length + n₂)) := by simp [hH]
  rw [splitLine_range hand hin hbt (by rw [List.length_append]; omega)]
  -- behind the inner AND
  have hdrop : ((Pred.between c n₁ k₁ n₂ lo n₃ k₂ (m + 1) hi).chars ++ r).drop
      ((H ++ lo.chars).length + (n₃ - 1) + 5) = sp m ++ (hi.chars ++ r) := by
    have hd : (H ++ lo.chars).length + (n₃ - 1) + 5 =
        ((H ++ lo.chars) ++ (sp n₃ ++ (k₂ ++ [' ']))).length := by
      simp only [List.length_append, length_sp, hlen, List.length_singleton]
      omega
    have ha : (Pred.between c n₁ k₁ n₂ lo n₃ k₂ (m + 1) hi).chars ++ r =
        ((H ++ lo.chars) ++ (sp n₃ ++ (k₂ ++ [' ']))) ++ (sp m ++ (hi.chars ++ r)) := by
      rw [hline]
      simp
    rw [hd, ha, List.drop_left]
  rw [hdrop]
  have hsearch := search_bound m hhw hhf (by
    rcases hhi with h | h | h
    · exact .inl h
    · exact .inr (.inl (by omega))
    · exact .inr (.inr h)) hf hlast
  rw [hsearch, Option.map_map]
  have hlentot : (Pred.between c n₁ k₁ n₂ lo n₃ k₂ (m + 1) hi).chars.length =
      (H ++ lo.chars).length + (n₃ - 1) + 5 + (sp m ++ hi.chars).length := by
    simp only [Pred.chars, List.length_append, length_sp, hlen, hH]
    omega
  congr 3
  funext g
  simp only [Function.comp_apply, hlentot]
  omega

/-- The literals of a list are passed. -/
theorem passes_items (hkw : kw ∈ keywords) : ∀ (xs : List Item) {x : Item} {h : Sds},
    (∀ y ∈ x :: xs, y.lit.Wf ∧ y.lit.Full) → Outside h → h ≠ [] →
      runState (key kw) 0 h = some 0 →
      Passes kw (h ++ (x.chars ++ (xs.flatMap (fun y => ',' :: y.chars) ++ [')'])))
  | xs, x, h, hx, ho, hne, hr => by
      obtain ⟨hw, hf⟩ := hx x List.mem_cons_self
      obtain ⟨_, hcomma, hclose⟩ := foreign_list hkw
      have hlit : Passes kw ((h ++ sp x.before) ++ x.lit.chars) :=
        passes_lit hkw hw hf (outside_append ho (outside_sp _)) (by simp [hne])
          (runState_sp hkw hr x.before)
      have hmark : ∀ {d : Char}, foreign kw d = true → d ≠ '\'' → d ≠ '\\' →
          Outside (sp x.after ++ [d]) ∧ runState (key kw) 0 (sp x.after ++ [d]) = some 0 := by
        intro d hd h1 h2
        refine ⟨outside_append (outside_sp _) ?_, ?_⟩
        · intro e he
          rw [List.mem_singleton.mp he]
          exact ⟨h1, h2⟩
        · rw [runState_append (runState_blanks hkw x.after), runState_foreign hd]
          rfl
      have hhead : ∀ {d : Char} (z : Sds), d ≠ '\'' → d ≠ '\\' →
          HeadOk (sp x.after ++ d :: z) := by
        intro d z h1 h2 e he
        cases hx : x.after with
        | zero =>
            rw [hx] at he
            cases he
            exact ⟨h1, h2⟩
        | succ n =>
            rw [hx] at he
            cases he
            decide
      cases xs with
      | nil =>
          obtain ⟨h1, h2⟩ := hmark hclose (by decide) (by decide)
          have := hlit.append (passes_out h1 h2) (hhead [] (by decide) (by decide)) (by simp)
          simpa [Item.chars] using this
      | cons y ys =>
          obtain ⟨h1, h2⟩ := hmark hcomma (by decide) (by decide)
          have ih := passes_items hkw ys (x := y) (fun z hz => hx z (List.mem_cons_of_mem x hz)) h1
            (by simp) h2
          have := hlit.append ih (by
            rw [List.append_assoc]
            exact hhead _ (by decide) (by decide)) (by simp)
          simpa [Item.chars] using this

theorem matchingParen_append : ∀ {s : Sds} {n : Int} {b : Bool} {k : Nat} (r : Sds),
    matchingParen n b s = some k → matchingParen n b (s ++ r) = some k
  | [], _, _, _, _, h => by cases h
  | c :: s, n, b, k, r, h => by
      simp only [matchingParen] at h
      simp only [List.cons_append, matchingParen]
      split at h
      · rename_i hc
        rw [if_pos hc]
        exact h
      · rename_i hc
        rw [if_neg hc]
        obtain ⟨j, hj, rfl⟩ := Option.map_eq_some_iff.mp h
        rw [matchingParen_append r hj]
        rfl

theorem checkINClause_list {x : Item} {xs : List Item}
    (h : strMatchingEndParen (listChars x xs) = some ((listChars x xs).length - 1)) (r : Sds) :
    checkINClause (listChars x xs ++ r) = some ((listChars x xs).length - 1) := by
  rw [checkINClause, strMatchingEndParen, matchingParen_append r h]
  rfl

/-- The ` AND ` behind `col IN (..)`. -/
theorem split_in {c k : Sds} {n₁ n₂ : Nat} {x : Item} {xs : List Item} {last : Option Nat}
    (hw : (Pred.isIn c n₁ k n₂ x xs).Wf) (hcl : (Pred.isIn c n₁ k n₂ x xs).Clean last)
    (hf : Follows r o) :
    splitLine ((Pred.isIn c n₁ k n₂ x xs).chars ++ r) =
      some (o.map ((Pred.isIn c n₁ k n₂ x xs).chars.length + ·), .isIn) := by
  obtain ⟨hne, hc, hl, hn1, hk, hn2⟩ := hw
  replace hne : c ≠ [] := hne
  replace hc : ∀ d ∈ c, Pred.nameChar d = true := hc
  obtain ⟨ho1, hfull, hpar, _⟩ := hcl
  have hkl : k.length = 2 := hk.1
  have hitems : ∀ y ∈ x :: xs, y.lit.Wf ∧ y.lit.Full := fun y hy =>
    ⟨hl y.lit (List.mem_map_of_mem hy), hfull y hy⟩
  obtain ⟨m, rfl⟩ : ∃ m, n₂ = m + 1 := ⟨n₂ - 1, by omega⟩
  set X := (Pred.isIn c n₁ k (m + 1) x xs).chars with hX
  have hXeq : X = (c ++ (sp n₁ ++ (k ++ sp (m + 1)))) ++ listChars x xs := by
    simp [hX, Pred.chars]
  have hin : strcasestrBlockchar (X ++ r) (key "IN") = some (c.length + (n₁ - 1)) := by
    obtain ⟨hcO, hcR⟩ := runState_col hc
    have := search_keyword (by decide) hcO hcR ho1 hk
      (z := sp m ++ (listChars x xs ++ r))
    rw [← this]
    congr 1
    simp [hX, Pred.chars, sp, List.replicate_succ]
  have hpass : Passes "AND" X := by
    obtain ⟨h1, h2⟩ := kw_head (w := "AND") (by decide) (by decide) (by decide) hc hk n₁ (m + 1)
    have ho : Outside ((c ++ (sp n₁ ++ (k ++ sp (m + 1)))) ++ ['(']) := by
      refine outside_append h1 ?_
      intro e he
      rw [List.mem_singleton.mp he]
      decide
    have hr : runState (key "AND") 0 ((c ++ (sp n₁ ++ (k ++ sp (m + 1)))) ++ ['(']) = some 0 := by
      rw [runState_append h2, runState_foreign (foreign_list (by decide)).1]
      rfl
    have := passes_items (by decide) xs hitems ho (by simp) hr
    rw [hXeq]
    simpa [listChars] using this
  have hand : strcasestrBlockchar (X ++ r) (key "AND") = o.map (X.length + ·) := by
    rw [hpass r hf.headOk, hf.and]
  cases o with
  | none => exact splitLine_in_last hin hand
  | some a =>
      have hlenX : X.length = c.length + n₁ + 2 + (m + 1) + (listChars x xs).length := by
        rw [hXeq]
        simp only [List.length_append, length_sp, hkl]
        omega
      have hp : c.length + n₁ + 2 + (m + 1) = c.length + (n₁ - 1) + 4 +
          (((X ++ r).drop (c.length + (n₁ - 1) + 4)).takeWhile isBlank).length := by
        have hd : (X ++ r).drop (c.length + (n₁ - 1) + 4) = sp m ++ (listChars x xs ++ r) := by
          have h1 : c.length + (n₁ - 1) + 4 = (c ++ (sp n₁ ++ (k ++ [' ']))).length := by
            simp only [List.length_append, length_sp, hkl, List.length_singleton]
            omega
          have h2 : X ++ r = (c ++ (sp n₁ ++ (k ++ [' ']))) ++ (sp m ++ (listChars x xs ++ r)) := by
            rw [hXeq]
            simp [sp, List.replicate_succ]
          rw [h1, h2, List.drop_left]
        have ht : ((sp m ++ (listChars x xs ++ r)).takeWhile isBlank) = sp m := by
          rw [List.takeWhile_append_of_pos (by
            intro d hd
            rw [List.eq_of_mem_replicate hd]
            rfl)]
          simp [listChars, isBlank]
        rw [hd, ht, length_sp]
        omega
      have hdl : (X ++ r).drop (c.length + n₁ + 2 + (m + 1)) = listChars x xs ++ r := by
        have h1 : c.length + n₁ + 2 + (m + 1) = (c ++ (sp n₁ ++ (k ++ sp (m + 1)))).length := by
          simp only [List.length_append, length_sp, hkl]
          omega
        rw [h1, hXeq, List.append_assoc, List.drop_left]
      have he : checkINClause ((X ++ r).drop (c.length + n₁ + 2 + (m + 1))) =
          some ((listChars x xs).length - 1) := by
        rw [hdl]
        exact checkINClause_list hpar r
      obtain ⟨b, hb⟩ : ∃ b, listChars x xs = b ++ [')'] :=
        ⟨'(' :: (x.chars ++ xs.flatMap (fun y => ',' :: y.chars)), by simp [listChars]⟩
      have hde : (X ++ r).drop (c.length + n₁ + 2 + (m + 1) + ((listChars x xs).length - 1)) =
          [')'] ++ r := by
        rw [← List.drop_drop, hdl, hb, List.append_assoc]
        simp
      rw [splitLine_in hin hand (by simp; omega) hp he, hde]
      have hcl : Passes "AND" [')'] := passes_out (by
        intro e he
        rw [List.mem_singleton.mp he]
        decide) (by rw [runState_foreign (foreign_list (by decide)).2.2]; rfl)
      rw [hcl r hf.headOk, hf.and]
      have hpos : 0 < (listChars x xs).length := by simp [listChars]
      simp only [Option.map_some, List.length_singleton, hlenX, Option.some.injEq, Prod.mk.injEq,
        and_true]
      omega

end Kinds

end AlchemyDB.Text
