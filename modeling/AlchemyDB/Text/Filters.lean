/-
# Filters read from predicates

What `parseWCTokRelation` makes of the text of one predicate with blanks behind it, and
from that `parseWC` on a whole clause.
-/
import AlchemyDB.Text.Clauses

namespace AlchemyDB.Text

open Catalog

/-! ## Tokens -/

theorem strchr_skip {x : Char} {a : Sds} (z : Sds) (h : ∀ c ∈ a, c ≠ x) :
    strchr (a ++ z) x = (strchr z x).map (a.length + ·) := by
  induction a with
  | nil => simp
  | cons c a ih =>
      have hc : (c == x) = false := by simpa using h c List.mem_cons_self
      have := ih fun d hd => h d (List.mem_cons_of_mem c hd)
      rw [strchr] at this
      rw [List.cons_append, strchr, List.findIdx?_cons, hc, this, Option.map_map]
      simp only [Bool.false_eq_true, if_false]
      congr 1
      funext k
      simp only [Function.comp_apply, List.length_cons]
      omega

theorem strchr_here (x : Char) (z : Sds) : strchr (x :: z) x = some 0 := by
  simp [strchr, List.findIdx?_cons]

theorem sp_blank (n : Nat) : ∀ c ∈ sp n, isBlank c = true := by
  intro c hc
  rw [List.eq_of_mem_replicate hc]
  rfl

theorem skipSpaces_sp (n : Nat) (z : Sds) : skipSpaces (sp n ++ z) = skipSpaces z := by
  rw [skipSpaces, List.dropWhile_append_of_pos (sp_blank n)]
  rfl

theorem drop_sp (n : Nat) (z : Sds) : (sp n ++ z).drop n = z := by
  have h : (sp n ++ z).drop (sp n).length = z := List.drop_left
  rwa [length_sp] at h

theorem skipSpaces_blanks (n : Nat) : skipSpaces (sp n) = [] := by
  have := skipSpaces_sp n []
  simpa [skipSpaces] using this

theorem skipSpaces_cons {c : Char} (z : Sds) (h : isBlank c = false) :
    skipSpaces (c :: z) = c :: z := by
  simp [skipSpaces, h]

theorem takeWhile_sp {n : Nat} {c : Char} (z : Sds) (h : isBlank c = false) :
    (sp n ++ c :: z).takeWhile isBlank = sp n := by
  rw [List.takeWhile_append_of_pos (sp_blank n)]
  simp [h]

/-- The next token behind a word and blanks. -/
theorem nextToken_eq {a : Sds} {n : Nat} {c : Char} (z : Sds) (ha : ∀ d ∈ a, d ≠ ' ')
    (hn : 0 < n) (hc : isBlank c = false) :
    nextToken (a ++ (sp n ++ c :: z)) = some (a.length + n) := by
  have hs : strchr (sp n ++ c :: z) ' ' = some 0 := by
    obtain ⟨m, rfl⟩ : ∃ m, n = m + 1 := ⟨n - 1, by omega⟩
    exact strchr_here ' ' _
  have hch : strchr (a ++ (sp n ++ c :: z)) ' ' = some a.length := by
    rw [strchr_skip _ ha, hs]
    rfl
  have hd : (a ++ (sp n ++ c :: z)).drop a.length = sp n ++ c :: z := List.drop_left
  simp only [nextToken, hch, hd, takeWhile_sp z hc, length_sp]
  rw [if_pos (by simp)]

/-! ## Literals -/

section Literals

variable {l : Lit} {t : CType}

theorem Lit.Wf.head (h : l.Wf) : ∃ c s, l.chars = c :: s ∧ isBlank c = false ∧
    (c == '\'') = l.isTxt := by
  cases l with
  | num s =>
      obtain ⟨hs, c, r, rfl, hc⟩ := h
      have hn := hs c List.mem_cons_self
      refine ⟨c, r, rfl, ?_, ?_⟩
      · by_contra hb
        simp only [isBlank, Bool.not_eq_false, Bool.or_eq_true, beq_iff_eq] at hb
        rcases hb with rfl | rfl <;> cases hn
      · show (c == '\'') = false
        by_contra hb
        simp only [Bool.not_eq_false, beq_iff_eq] at hb
        subst hb
        cases hn
  | txt body => exact ⟨'\'', _, rfl, by decide, rfl⟩

theorem extract_lit (h : l.Wf) : extractStringCol l.chars = some l.value := by
  cases l with
  | num s =>
      obtain ⟨c, r, hc, _, hq⟩ := h.head
      have hcs : s = c :: r := hc
      have hne : ¬ (c = '\'') := by
        intro he
        subst he
        cases hq
      simp [extractStringCol, Lit.chars, Lit.value, hcs, hne]
  | txt body =>
      simp [extractStringCol, Lit.chars, Lit.value]

/-- A literal that the clause goes on behind, or the end of it. -/
theorem read_lit (h : l.Wf) (ht : l.isTxt = true ↔ t = .text) {m : Nat} (hf : l.Full ∨ m = 0) :
    extractStringCol ((l.chars ++ sp m).take
        ((nextTokenWcKey (l.chars ++ sp m) t).getD (l.chars ++ sp m).length)) = some l.value ∧
      ∀ s, (nextTokenWcKey (l.chars ++ sp m) t).map
        (fun k => skipSpaces ((l.chars ++ sp m).drop k)) = some s → s = [] := by
  have hcut : ∀ k, k = l.chars.length →
      extractStringCol ((l.chars ++ sp m).take k) = some l.value ∧
        skipSpaces ((l.chars ++ sp m).drop k) = [] := by
    rintro k rfl
    rw [List.take_left, List.drop_left]
    exact ⟨extract_lit h, skipSpaces_blanks m⟩
  have hend : m = 0 → extractStringCol ((l.chars ++ sp m).take (l.chars ++ sp m).length) =
      some l.value := by
    rintro rfl
    rw [List.take_length]
    simpa [sp] using extract_lit h
  cases l with
  | num s =>
      have htt : t ≠ .text := fun he => by
        have := ht.mpr he
        cases this
      have hb : ∀ c ∈ s, c ≠ ' ' := no_blank_of h.1 (by decide)
      have hn : nextTokenWcKey ((Lit.num s).chars ++ sp m) t = (strchr (sp m) ' ').map (s.length + ·) := by
        rw [nextTokenWcKey, if_neg htt]
        exact strchr_skip _ hb
      cases m with
      | zero =>
          have hz : nextTokenWcKey ((Lit.num s).chars ++ sp 0) t = none := by
            rw [hn]
            rfl
          rw [hz]
          exact ⟨hend rfl, fun s hs => by cases hs⟩
      | succ m =>
          have hz : nextTokenWcKey ((Lit.num s).chars ++ sp (m + 1)) t = some s.length := by
            rw [hn, show strchr (sp (m + 1)) ' ' = some 0 from strchr_here ' ' _]
            rfl
          rw [hz]
          obtain ⟨h1, h2⟩ := hcut s.length rfl
          exact ⟨h1, fun s' hs => by
            rw [← Option.some_inj.mp hs]
            exact h2⟩
  | txt body =>
      have htt : t = .text := ht.mp rfl
      have hhead : ((Lit.txt body).chars ++ sp m).head? = some '\'' := rfl
      have hn : nextTokenWcKey ((Lit.txt body).chars ++ sp m) t =
          (strNextUnescapedChr (body ++ '\'' :: sp m) '\'').map (· + 2) := by
        rw [nextTokenWcKey, if_pos htt, if_pos hhead]
        simp [Lit.chars]
      by_cases hb : body = []
      · -- its closing quote is passed over, and nothing is found
        have hm : m = 0 := hf.resolve_left (fun hf => hf hb)
        have hz : nextTokenWcKey ((Lit.txt body).chars ++ sp m) t = none := by
          rw [hn, hb, hm]
          rfl
        rw [hz]
        exact ⟨hend hm, fun s hs => by cases hs⟩
      · have hz : nextTokenWcKey ((Lit.txt body).chars ++ sp m) t =
            some (Lit.txt body).chars.length := by
          rw [hn, Escaped.next h hb]
          simp [Lit.chars]
        rw [hz]
        obtain ⟨h1, h2⟩ := hcut _ rfl
        exact ⟨h1, fun s' hs => by
          rw [← Option.some_inj.mp hs]
          exact h2⟩

end Literals

/-! ## `col = v` -/

theorem findOperator_skip {s : Sds} (z : Sds)
    (h : ∀ c ∈ s, c ≠ '=' ∧ c ≠ '<' ∧ c ≠ '>' ∧ c ≠ '!') :
    findOperator (s ++ z) = (findOperator z).map fun e => (e.1, e.2 + s.length) := by
  induction s with
  | nil => simp
  | cons c s ih =>
      obtain ⟨h1, h2, h3, h4⟩ := h c List.mem_cons_self
      rw [List.cons_append, findOperator, if_neg h1, if_neg h2, if_neg h3,
        if_neg (fun he => h4 he.1), ih fun d hd => h d (List.mem_cons_of_mem c hd), Option.map_map]
      rfl

theorem name_no_op {c : Sds} (hc : ∀ d ∈ c, Pred.nameChar d = true) (n : Nat) :
    ∀ d ∈ c ++ sp n, d ≠ '=' ∧ d ≠ '<' ∧ d ≠ '>' ∧ d ≠ '!' := by
  intro d hd
  rcases List.mem_append.mp hd with hd | hd
  · have := hc d hd
    refine ⟨?_, ?_, ?_, ?_⟩ <;> (rintro rfl; cases this)
  · rw [List.eq_of_mem_replicate hd]
    decide

theorem revSkipSpaces_sp {c : Sds} (hne : c ≠ []) (hc : ∀ d ∈ c, Pred.nameChar d = true)
    (n : Nat) : revSkipSpaces (c ++ sp n) = c := by
  have hl : isBlank (c.getLast hne) = false := by
    have := hc _ (List.getLast_mem hne)
    by_contra hb
    simp only [isBlank, Bool.not_eq_false, Bool.or_eq_true, beq_iff_eq] at hb
    rcases hb with hb | hb <;> (rw [hb] at this; cases this)
  have hr : (sp n).reverse = sp n := List.reverse_replicate
  have hcr : c.reverse.dropWhile isBlank = c.reverse := by
    rw [← List.dropLast_append_getLast hne, List.reverse_append]
    simp [hl]
  rw [revSkipSpaces, List.reverse_append, hr, List.dropWhile_append_of_pos (sp_blank n), hcr,
    List.reverse_reverse]

/-- The operator stands in the first two tokens. -/
theorem twoToklen_gt {c : Sds} {n : Nat} (hc : ∀ d ∈ c, d ≠ ' ') (z : Sds) :
    c.length + n < twoToklen ((c ++ sp n) ++ '=' :: z) := by
  have hg : ∀ z, 0 < getTokenLen ('=' :: z) := by
    intro z
    rw [getTokenLen, strchr, List.findIdx?_cons]
    simp only [show ('=' == ' ') = false by decide, Bool.false_eq_true, if_false]
    cases List.findIdx? (· == ' ') z <;> simp
  rcases Nat.eq_zero_or_pos n with rfl | hn
  · have hgt : ∀ q, strchr ((c ++ sp 0) ++ '=' :: z) ' ' = some q → c.length < q := by
      intro q hq
      rw [List.append_assoc, strchr_skip _ hc] at hq
      obtain ⟨g, hg, rfl⟩ := Option.map_eq_some_iff.mp hq
      have hz : strchr ('=' :: z) ' ' = some g := hg
      rw [strchr, List.findIdx?_cons] at hz
      simp only [show ('=' == ' ') = false by decide, Bool.false_eq_true, if_false] at hz
      obtain ⟨g', _, rfl⟩ := Option.map_eq_some_iff.mp hz
      omega
    unfold twoToklen
    cases hnt : nextToken ((c ++ sp 0) ++ '=' :: z) with
    | none => simp
    | some t =>
        unfold nextToken at hnt
        cases hq : strchr ((c ++ sp 0) ++ '=' :: z) ' ' with
        | none => rw [hq] at hnt; cases hnt
        | some q =>
            have := hgt q hq
            rw [hq] at hnt
            simp only [Option.ite_none_right_eq_some, Option.some.injEq] at hnt
            simp only
            omega
  · have hnt : nextToken ((c ++ sp n) ++ '=' :: z) = some (c.length + n) := by
      rw [List.append_assoc]
      exact nextToken_eq _ hc hn (by decide)
    have hd : ((c ++ sp n) ++ '=' :: z).drop (c.length + n) = '=' :: z := by
      rw [show c.length + n = (c ++ sp n).length by simp, List.drop_left]
    unfold twoToklen
    rw [hnt]
    simp only [hd]
    have := hg z
    omega

variable {w : Wc}

/-- The filter of a text, and nothing behind it. -/
def Reads (w : Wc) (p : Pred) (r : Read) : Prop :=
  ∃ f fin, r = some (f, fin) ∧ p.Gives w f ∧ ∀ s, fin = some s → s = []

theorem parse_eq {c : Sds} {n₁ n₂ m : Nat} {v : Lit} (hw : (Pred.eq c n₁ n₂ v).Wf)
    (ht : (Pred.eq c n₁ n₂ v).Typed w) (hf : v.Full ∨ m = 0) :
    Reads w (.eq c n₁ n₂ v) (parseKey w ((Pred.eq c n₁ n₂ v).chars ++ sp m)) := by
  obtain ⟨hne, hc, hl, _⟩ := hw
  replace hne : c ≠ [] := hne
  replace hc : ∀ d ∈ c, Pred.nameChar d = true := hc
  have hv : v.Wf := hl v (by simp [Pred.lits])
  obtain ⟨i, t, hpif, hty⟩ := ht
  replace hpif : w.pif c = some (i, t) := hpif
  have hvt := hty v (by simp [Pred.lits])
  obtain ⟨d, z, hd, hdb, hdq⟩ := hv.head
  set tkn := (Pred.eq c n₁ n₂ v).chars ++ sp m with htkn
  have htk : tkn = (c ++ sp n₁) ++ '=' :: (sp n₂ ++ (v.chars ++ sp m)) := by
    simp [htkn, Pred.chars]
  have hspot : (c ++ sp n₁).length = c.length + n₁ := by simp
  have hcb : ∀ d ∈ c, d ≠ ' ' := no_blank_of hc (by decide)
  have htwo : c.length + n₁ < twoToklen tkn := by rw [htk]; exact twoToklen_gt hcb _
  have hop : ∀ k, c.length + n₁ < k → findOperator (tkn.take k) = some (.eq, c.length + n₁) := by
    intro k hk
    obtain ⟨g, rfl⟩ : ∃ g, k = (c.length + n₁) + (g + 1) := ⟨k - (c.length + n₁) - 1, by omega⟩
    have htake : tkn.take ((c.length + n₁) + (g + 1)) =
        (c ++ sp n₁) ++ '=' :: (sp n₂ ++ (v.chars ++ sp m)).take g := by
      rw [htk, ← hspot, List.take_append, List.take_of_length_le (by omega), Nat.add_sub_cancel_left]
      rfl
    rw [htake, findOperator_skip _ (name_no_op hc n₁), findOperator, if_pos rfl, Option.map_some,
      hspot, Nat.zero_add]
  have hname : revSkipSpaces (tkn.take (c.length + n₁ + 1 - Op.eq.len)) = c := by
    rw [show c.length + n₁ + 1 - Op.eq.len = (c ++ sp n₁).length by rw [hspot]; rfl, htk,
      List.take_left]
    exact revSkipSpaces_sp hne hc n₁
  have hstart : skipSpaces (tkn.drop (c.length + n₁ + 1)) = v.chars ++ sp m := by
    have : tkn.drop (c.length + n₁ + 1) = sp n₂ ++ (v.chars ++ sp m) := by
      rw [htk, ← hspot, ← List.drop_drop, List.drop_left]
      rfl
    rw [this, skipSpaces_sp, hd]
    exact skipSpaces_cons _ hdb
  have hsne : ¬ (v.chars ++ sp m = []) := by rw [hd]; simp
  have hhq : ((v.chars ++ sp m).head? == some '\'') = v.isTxt := by
    rw [hd, ← hdq]
    rfl
  obtain ⟨hkey, hfin⟩ := read_lit hv hvt hf
  refine ⟨{ col := i, op := .eq, iss := v.isTxt, key := some v.value }, _, ?_, ⟨i, t, hpif, rfl⟩,
    hfin⟩
  unfold parseKey
  simp only
  rw [hop _ htwo]
  simp only [bind, Option.bind, hname, hpif, hstart, hsne, if_false, hkey, hhq, pure]

/-! ## `col BETWEEN lo AND hi` -/

theorem startsWith_spells {kw : String} {k : Sds} (h : spells kw k) (z : Sds) :
    startsWith (kw.toList ++ [' ']) (k ++ ' ' :: z) = true := by
  rw [startsWith, Bool.and_eq_true]
  refine ⟨by simp [h.1], ?_⟩
  rw [List.all_eq_true]
  intro e he
  rw [List.zip_append h.1.symm] at he
  have symm : ∀ {a b : Char}, sameChar a b = true → sameChar b a = true := by
    intro a b hab
    have : a.toUpper = b.toUpper := by simpa [sameChar] using hab
    simp [sameChar, this]
  rcases List.mem_append.mp he with he | he
  · apply symm
    apply h.2 (e.2, e.1)
    obtain ⟨i, hi⟩ := List.mem_iff_getElem?.mp he
    rw [List.mem_iff_getElem?]
    obtain ⟨h1, h2⟩ := List.getElem?_zip_eq_some.mp hi
    exact ⟨i, List.getElem?_zip_eq_some.mpr ⟨h2, h1⟩⟩
  · simp only [List.zip_cons_cons, List.zip_nil_left, List.mem_singleton] at he
    rw [he]
    rfl

theorem spells_no_blank {kw : String} (hkw : kw ∈ keywords) {k : Sds} (h : spells kw k) :
    ∀ c ∈ k, c ≠ ' ' := by
  rintro c hc rfl
  have := spells_alpha h hkw ' ' hc
  cases this

/-- The bounds of a range. -/
theorem read_bounds {k : Sds} {n₃ n₄ m : Nat} {lo hi : Lit} {t : CType} (hlo : lo.Wf)
    (hhi : hi.Wf) (htl : lo.isTxt = true ↔ t = .text) (hth : hi.isTxt = true ↔ t = .text)
    (hlf : lo.Full) (hn3 : 0 < n₃) (hk : spells "AND" k) (hn4 : 0 < n₄) (hf : hi.Full ∨ m = 0) :
    ∃ fin, pRangeReply (lo.chars ++ (sp n₃ ++ (k ++ (sp n₄ ++ (hi.chars ++ sp m))))) t =
        some (lo.value, hi.value, fin) ∧ ∀ s, fin = some s → s = [] := by
  obtain ⟨d, z, hd, hdb, _⟩ := hhi.head
  set rest := k ++ (sp n₄ ++ (hi.chars ++ sp m)) with hrest
  have hfrst : nextTokenWcKey (lo.chars ++ (sp n₃ ++ rest)) t = some lo.chars.length := by
    cases lo with
    | num s =>
        have htt : t ≠ .text := fun he => by
          have := htl.mpr he
          cases this
        have hb : ∀ c ∈ s, c ≠ ' ' := no_blank_of hlo.1 (by decide)
        have hsp : strchr (sp n₃ ++ rest) ' ' = some 0 := by
          obtain ⟨g, rfl⟩ : ∃ g, n₃ = g + 1 := ⟨n₃ - 1, by omega⟩
          exact strchr_here ' ' _
        rw [nextTokenWcKey, if_neg htt, show (Lit.num s).chars = s from rfl, strchr_skip _ hb, hsp]
        rfl
    | txt body =>
        have htt : t = .text := htl.mp rfl
        have hh : ((Lit.txt body).chars ++ (sp n₃ ++ rest)).head? = some '\'' := rfl
        have hd1 : ((Lit.txt body).chars ++ (sp n₃ ++ rest)).drop 1 =
            body ++ '\'' :: (sp n₃ ++ rest) := by simp [Lit.chars]
        rw [nextTokenWcKey, if_pos htt, if_pos hh, hd1, Escaped.next hlo hlf]
        simp [Lit.chars]
  have hk0 : ∃ e g, k = e :: g ∧ isBlank e = false := by
    obtain ⟨e, g, rfl⟩ : ∃ e g, k = e :: g := by
      apply List.exists_cons_of_ne_nil
      rintro rfl
      cases hk.1
    refine ⟨e, g, rfl, ?_⟩
    have := spells_alpha hk (by decide) e List.mem_cons_self
    by_contra hb
    simp only [isBlank, Bool.not_eq_false, Bool.or_eq_true, beq_iff_eq] at hb
    rcases hb with rfl | rfl <;> cases this
  obtain ⟨e, g, hke, heb⟩ := hk0
  have hskip : skipSpaces ((lo.chars ++ (sp n₃ ++ rest)).drop lo.chars.length) = rest := by
    rw [List.drop_left, skipSpaces_sp, hrest, hke]
    exact skipSpaces_cons _ heb
  have hand : startsWith "AND ".toList rest = true := by
    obtain ⟨g, rfl⟩ : ∃ g, n₄ = g + 1 := ⟨n₄ - 1, by omega⟩
    exact startsWith_spells hk (sp g ++ (hi.chars ++ sp m))
  have hnext : (nextToken rest).map rest.drop = some (hi.chars ++ sp m) := by
    have : nextToken rest = some (k.length + n₄) := by
      rw [hrest, hd]
      exact nextToken_eq _ (spells_no_blank (by decide) hk) hn4 hdb
    rw [this, hrest, Option.map_some, ← List.append_assoc,
      show k.length + n₄ = (k ++ sp n₄).length by simp, List.drop_left]
  obtain ⟨hkey, hfin⟩ := read_lit hhi hth hf
  refine ⟨_, ?_, hfin⟩
  unfold pRangeReply
  simp only [bind, Option.bind, hfrst, hskip, hand, if_true, hnext, List.take_left,
    extract_lit hlo, hkey, pure]

theorem parse_between {c k₁ k₂ : Sds} {n₁ n₂ n₃ n₄ m : Nat} {lo hi : Lit}
    (hw : (Pred.between c n₁ k₁ n₂ lo n₃ k₂ n₄ hi).Wf)
    (ht : (Pred.between c n₁ k₁ n₂ lo n₃ k₂ n₄ hi).Typed w) (hlf : lo.Full)
    (hf : hi.Full ∨ m = 0) :
    Reads w (.between c n₁ k₁ n₂ lo n₃ k₂ n₄ hi)
      (parseRangeOrIn w ((Pred.between c n₁ k₁ n₂ lo n₃ k₂ n₄ hi).chars ++ sp m)) := by
  obtain ⟨hne, hc, hl, hn1, hk1, hn2, hn3, hk2, hn4⟩ := hw
  replace hc : ∀ d ∈ c, Pred.nameChar d = true := hc
  obtain ⟨i, t, hpif, hty⟩ := ht
  replace hpif : w.pif c = some (i, t) := hpif
  have hlo : lo.Wf := hl lo (by simp [Pred.lits])
  have hhi : hi.Wf := hl hi (by simp [Pred.lits])
  obtain ⟨d, z, hd, hdb, _⟩ := hlo.head
  set frst := lo.chars ++ (sp n₃ ++ (k₂ ++ (sp n₄ ++ (hi.chars ++ sp m)))) with hfr
  have htk : (Pred.between c n₁ k₁ n₂ lo n₃ k₂ n₄ hi).chars ++ sp m =
      c ++ (sp n₁ ++ (k₁ ++ (sp n₂ ++ frst))) := by
    simp [Pred.chars, hfr]
  obtain ⟨e, g, hke, hB⟩ := spells_head (w := "IN") hk1 (by decide) (by decide) (by decide)
  have heb : isBlank e = false := by
    have := spells_alpha hk1 (by decide) e (by rw [hke]; exact List.mem_cons_self)
    by_contra hb
    simp only [isBlank, Bool.not_eq_false, Bool.or_eq_true, beq_iff_eq] at hb
    rcases hb with rfl | rfl <;> cases this
  have hsp : strchr (c ++ (sp n₁ ++ (k₁ ++ (sp n₂ ++ frst)))) ' ' = some c.length := by
    obtain ⟨q, rfl⟩ : ∃ q, n₁ = q + 1 := ⟨n₁ - 1, by omega⟩
    rw [strchr_skip _ (no_blank_of hc (by decide)),
      show strchr (sp (q + 1) ++ (k₁ ++ (sp n₂ ++ frst))) ' ' = some 0 from strchr_here ' ' _]
    rfl
  have hskip : skipSpaces ((c ++ (sp n₁ ++ (k₁ ++ (sp n₂ ++ frst)))).drop c.length) =
      k₁ ++ (sp n₂ ++ frst) := by
    rw [List.drop_left, skipSpaces_sp, hke]
    exact skipSpaces_cons _ heb
  have hnin : startsWith "IN ".toList (k₁ ++ (sp n₂ ++ frst)) = false := by
    have hnb := hB 'I' (by decide)
    have : sameChar 'I' e = false := by
      have h' : e.toUpper ≠ 'I'.toUpper := by simpa [sameChar] using hnb
      simpa [sameChar] using fun he => h' he.symm
    rw [hke]
    simp [startsWith, this]
  have hbt : startsWith "BETWEEN ".toList (k₁ ++ (sp n₂ ++ frst)) = true := by
    obtain ⟨q, rfl⟩ : ∃ q, n₂ = q + 1 := ⟨n₂ - 1, by omega⟩
    exact startsWith_spells hk1 (sp q ++ frst)
  have hnt : nextToken (k₁ ++ (sp n₂ ++ frst)) = some (k₁.length + n₂) := by
    rw [hfr, hd]
    exact nextToken_eq _ (spells_no_blank (by decide) hk1) hn2 hdb
  have hdr : (k₁ ++ (sp n₂ ++ frst)).drop (k₁.length + n₂) = frst := by
    rw [← List.append_assoc, show k₁.length + n₂ = (k₁ ++ sp n₂).length by simp, List.drop_left]
  obtain ⟨fin, hrange, hfin⟩ := read_bounds hlo hhi (hty lo (by simp [Pred.lits]))
    (hty hi (by simp [Pred.lits])) hlf hn3 hk2 hn4 hf
  rw [← hfr] at hrange
  refine ⟨{ col := i, op := .rq, low := some lo.value, high := some hi.value }, fin, ?_,
    ⟨i, t, hpif, rfl⟩, hfin⟩
  rw [htk]
  unfold parseRangeOrIn
  simp only [bind, Option.bind, hsp, List.take_left, hpif, hskip, hnin, Bool.false_eq_true,
    if_false, hbt, if_true, hnt, hdr, hrange, pure]

/-! ## `col IN (..)` -/

/-- What stands behind a literal of a list: blanks, the other literals, the end. -/
def listTail (x : Item) (xs : List Item) (m : Nat) : Sds :=
  sp x.after ++ (xs.flatMap (fun y => ',' :: y.chars) ++ ')' :: sp m)

/-- The distance from a literal to the closing parenthesis. -/
def listLen (x : Item) (xs : List Item) : Nat :=
  x.lit.chars.length + x.after + (xs.flatMap (fun y => ',' :: y.chars)).length

theorem listTail_cons (x y : Item) (ys : List Item) (m : Nat) :
    listTail x (y :: ys) m =
      sp x.after ++ ',' :: (sp y.before ++ (y.lit.chars ++ listTail y ys m)) := by
  simp [listTail, Item.chars]

theorem listLen_cons (x y : Item) (ys : List Item) :
    listLen x (y :: ys) = x.lit.chars.length + x.after + (1 + y.before + listLen y ys) := by
  simp [listLen, Item.chars]
  omega

theorem sp_ne {n : Nat} {x : Char} (h : x ≠ ' ') : ∀ c ∈ sp n, c ≠ x := by
  intro c hc
  rw [List.eq_of_mem_replicate hc]
  exact h.symm

/-- The values of a list of literals. -/
def Values (xs : List Item) (l : List Sds) : Prop :=
  List.Forall₂ (fun y v => ∃ k, v = y.lit.value ++ sp k ∧ (y.lit.isTxt = true → k = 0)) xs l

theorem read_texts {m : Nat} : ∀ (xs : List Item) {x : Item} {n b : Nat},
    (∀ y ∈ x :: xs, y.lit.Wf ∧ y.lit.Full ∧ y.lit.isTxt = true) → xs.length < n →
      ∃ l, inTexts n (sp b ++ (x.lit.chars ++ listTail x xs m)) (b + listLen x xs) = some l ∧
        Values (x :: xs) l
  | _, _, 0, _, _, hn => absurd hn (Nat.not_lt_zero _)
  | xs, x, n + 1, b, hx, hn => by
      obtain ⟨hw, hf, htx⟩ := hx x List.mem_cons_self
      cases hl : x.lit with
      | num s => rw [hl] at htx; cases htx
      | txt body =>
          rw [hl] at hw hf
          have hb : (sp b ++ ((Lit.txt body).chars ++ listTail x xs m)).takeWhile isBlank = sp b :=
            takeWhile_sp _ (by decide)
          have hd : (sp b ++ ((Lit.txt body).chars ++ listTail x xs m)).drop b =
              (Lit.txt body).chars ++ listTail x xs m := drop_sp b _
          have hsend : nextTokenWcKey ((Lit.txt body).chars ++ listTail x xs m) .text =
              some (body.length + 2) := by
            have hd1 : ((Lit.txt body).chars ++ listTail x xs m).drop 1 =
                body ++ '\'' :: listTail x xs m := by simp [Lit.chars]
            have hh : ((Lit.txt body).chars ++ listTail x xs m).head? = some '\'' := rfl
            rw [nextTokenWcKey, if_pos rfl, if_pos hh, hd1, Escaped.next hw hf]
            rfl
          have hval : (((Lit.txt body).chars ++ listTail x xs m).drop 1).take
              (body.length + 2 - 2) = body := by
            simp [Lit.chars]
          have hrest : ((Lit.txt body).chars ++ listTail x xs m).drop (body.length + 2) =
              listTail x xs m := by
            rw [show body.length + 2 = (Lit.txt body).chars.length by simp [Lit.chars],
              List.drop_left]
          cases xs with
          | nil =>
              have hno : strchr (listTail x [] m) ',' = none := by
                have h1 : listTail x [] m = sp x.after ++ ([')'] ++ (sp m ++ [])) := by
                  simp [listTail]
                rw [h1, strchr_skip _ (sp_ne (by decide)), strchr_skip _ (by simp),
                  strchr_skip _ (sp_ne (by decide))]
                rfl
              refine ⟨[body], ?_, .cons ⟨0, by simp [hl, Lit.value, sp], fun _ => rfl⟩ .nil⟩
              rw [inTexts]
              simp only [hb, length_sp, hd, bind, Option.bind, hsend, hval, hrest, hno, pure]
          | cons y ys =>
              have hcom : strchr (listTail x (y :: ys) m) ',' = some x.after := by
                rw [listTail_cons, strchr_skip _ (sp_ne (by decide)), strchr_here]
                simp
              have hnext : ((Lit.txt body).chars ++ listTail x (y :: ys) m).drop
                  (body.length + 2 + x.after + 1) =
                    sp y.before ++ (y.lit.chars ++ listTail y ys m) := by
                rw [Nat.add_assoc (body.length + 2), ← List.drop_drop, hrest, listTail_cons,
                  List.drop_append, List.drop_eq_nil_of_le (by simp)]
                simp
              have hclen : x.lit.chars.length = body.length + 2 := by simp [hl, Lit.chars]
              have hlen := listLen_cons x y ys
              rw [hclen] at hlen
              obtain ⟨l, hrec, hvals⟩ := read_texts ys (x := y) (n := n) (b := y.before)
                (fun z hz => hx z (List.mem_cons_of_mem x hz)) (by simpa using hn)
              refine ⟨body :: l, ?_, .cons ⟨0, by simp [hl, Lit.value, sp], fun _ => rfl⟩ hvals⟩
              rw [inTexts]
              simp only [hb, length_sp, hd, bind, Option.bind, hsend, hval, hrest, hcom, pure, hnext]
              rw [if_neg (by omega), show b + listLen x (y :: ys) - (b + (body.length + 2) +
                x.after + 1) = y.before + listLen y ys by omega, hrec]

theorem read_numbers {m : Nat} : ∀ (xs : List Item) {x : Item} {n : Nat},
    (∀ y ∈ x :: xs, y.lit.Wf ∧ y.lit.isTxt = false) → xs.length < n →
      Values (x :: xs) (inNumbers n (x.lit.chars ++ listTail x xs m) (listLen x xs))
  | _, _, 0, _, hn => absurd hn (Nat.not_lt_zero _)
  | xs, x, n + 1, hx, hn => by
      obtain ⟨hw, htx⟩ := hx x List.mem_cons_self
      cases hl : x.lit with
      | txt body => rw [hl] at htx; cases htx
      | num s =>
          rw [hl] at hw
          have hclen : x.lit.chars.length = s.length := by rw [hl]; rfl
          have hne : s ≠ [] := by
            obtain ⟨_, c, r, hs, _⟩ := hw
            rw [hs]
            simp
          have hskip : ∀ c ∈ s ++ sp x.after, c ≠ ',' ∧ c ≠ '\\' := by
            intro c hc
            rcases List.mem_append.mp hc with hc | hc
            · have := hw.1 c hc
              constructor <;> (rintro rfl; cases this)
            · rw [List.eq_of_mem_replicate hc]
              decide
          have hblank : ∀ z, ((s ++ z).takeWhile isBlank).length = 0 := by
            intro z
            obtain ⟨c, r, hc, hcb, _⟩ := hw.head
            have hsc : s = c :: r := hc
            simp [hsc, hcb]
          show Values (x :: xs) (inNumbers (n + 1) (s ++ listTail x xs m) (listLen x xs))
          cases xs with
          | nil =>
              have hno : strNextUnescapedChr (s ++ listTail x [] m) ',' = none := by
                have h1 : s ++ listTail x [] m = (s ++ sp x.after) ++ ([')'] ++ (sp m ++ [])) := by
                  simp [listTail]
                rw [h1, strNextUnescapedChr_skip hskip (by simp [hne]),
                  unescaped_skip _ (by simp), unescaped_skip _ (fun c hc => by
                    rw [List.eq_of_mem_replicate hc]; decide)]
                rfl
              have hlen : listLen x [] = (s ++ sp x.after).length := by
                simp [listLen, hclen]
              have htake : (s ++ listTail x [] m).take (listLen x []) = s ++ sp x.after := by
                have h1 : s ++ listTail x [] m = (s ++ sp x.after) ++ (')' :: sp m) := by
                  simp [listTail]
                rw [h1, hlen, List.take_left]
              simp only [inNumbers, hno, htake]
              exact .cons ⟨x.after, by rw [hl]; rfl, fun h => by rw [hl] at h; cases h⟩ .nil
          | cons y ys =>
              have hcom : strNextUnescapedChr (s ++ listTail x (y :: ys) m) ',' =
                  some (s.length + x.after) := by
                have h1 : s ++ listTail x (y :: ys) m = (s ++ sp x.after) ++
                    ',' :: (sp y.before ++ (y.lit.chars ++ listTail y ys m)) := by
                  rw [listTail_cons]
                  simp
                rw [h1, strNextUnescapedChr_skip hskip (by simp [hne])]
                simp [unescaped]
              have htake : (s ++ listTail x (y :: ys) m).take (s.length + x.after) =
                  s ++ sp x.after := by
                rw [listTail_cons, ← List.append_assoc,
                  show s.length + x.after = (s ++ sp x.after).length by simp, List.take_left]
              have hnext : (s ++ listTail x (y :: ys) m).drop (s.length + x.after + 1) =
                  sp y.before ++ (y.lit.chars ++ listTail y ys m) := by
                rw [listTail_cons, ← List.append_assoc, ← List.drop_drop,
                  show s.length + x.after = (s ++ sp x.after).length by simp, List.drop_left]
                rfl
              have hyb : ((sp y.before ++ (y.lit.chars ++ listTail y ys m)).takeWhile
                  isBlank).length = y.before := by
                obtain ⟨c, r, hc, hcb, _⟩ :=
                  (hx y (List.mem_cons_of_mem x List.mem_cons_self)).1.head
                rw [hc, List.cons_append, takeWhile_sp _ hcb, length_sp]
              have hyd : (sp y.before ++ (y.lit.chars ++ listTail y ys m)).drop y.before =
                  y.lit.chars ++ listTail y ys m := drop_sp _ _
              have hlen := listLen_cons x y ys
              rw [hclen] at hlen
              have hrec := read_numbers ys (m := m) (x := y) (n := n)
                (fun z hz => hx z (List.mem_cons_of_mem x hz)) (by simpa using hn)
              simp only [inNumbers, hcom, hblank, hnext, hyb, hyd, List.drop_zero, Nat.sub_zero,
                htake]
              rw [if_neg (by omega), show listLen x (y :: ys) - (s.length + x.after + 1 + y.before) =
                listLen y ys by omega]
              exact .cons ⟨x.after, by rw [hl]; rfl, fun h => by rw [hl] at h; cases h⟩ hrec

theorem listChars_eq (x : Item) (xs : List Item) (m : Nat) :
    listChars x xs ++ sp m = '(' :: (sp x.before ++ (x.lit.chars ++ listTail x xs m)) := by
  simp [listChars, Item.chars, listTail]

theorem length_listChars (x : Item) (xs : List Item) :
    (listChars x xs).length = x.before + listLen x xs + 2 := by
  simp [listChars, Item.chars, listLen]
  omega

theorem read_list {x : Item} {xs : List Item} {t : CType} {m : Nat}
    (hx : ∀ y ∈ x :: xs, y.lit.Wf ∧ y.lit.Full ∧ (y.lit.isTxt = true ↔ t = .text))
    (hpar : strMatchingEndParen (listChars x xs) = some ((listChars x xs).length - 1))
    (hfirst : x.lit.isTxt = true ∨ (x.lit.chars.head?).any Char.isDigit = true) :
    ∃ l fin, pWCIN w (listChars x xs ++ sp m) t = some (l, fin) ∧ Values (x :: xs) l ∧
      ∀ s, fin = some s → s = [] := by
  have he := checkINClause_list hpar (sp m)
  have hlen := length_listChars x xs
  obtain ⟨c, r, hc, hcb, hcq⟩ := (hx x List.mem_cons_self).1.head
  have hdrop1 : (listChars x xs ++ sp m).drop 1 = sp x.before ++ (x.lit.chars ++ listTail x xs m) := by
    rw [listChars_eq]
    rfl
  have hb : (((listChars x xs ++ sp m).drop 1).takeWhile isBlank).length = x.before := by
    rw [hdrop1, hc, List.cons_append, takeWhile_sp _ hcb, length_sp]
  have hs : (listChars x xs ++ sp m).drop (1 + x.before) = x.lit.chars ++ listTail x xs m := by
    rw [← List.drop_drop, hdrop1]
    exact drop_sp _ _
  have hhead : ((x.lit.chars ++ listTail x xs m).head?).any (fun c => c = '\'' || c.isDigit) = true := by
    rw [hc]
    rw [hc] at hfirst
    rcases hfirst with h | h
    · rw [h] at hcq
      have : c = '\'' := by simpa using hcq
      simp [this]
    · have : c.isDigit = true := h
      simp [this]
  have hfin : (listChars x xs ++ sp m).drop ((listChars x xs).length - 1 + 1) = sp m := by
    rw [show (listChars x xs).length - 1 + 1 = (listChars x xs).length by omega, List.drop_left]
  have hend : (listChars x xs).length - 1 - (1 + x.before) = listLen x xs := by omega
  have hfuel : xs.length < (listChars x xs ++ sp m).length + 1 := by
    have : xs.length ≤ (xs.flatMap (fun y => ',' :: y.chars)).length := by
      clear hx hpar hfirst he hlen hc hdrop1 hb hs hhead hfin hend
      induction xs with
      | nil => simp
      | cons y ys ih =>
          rw [List.flatMap_cons, List.length_append, List.length_cons, List.length_cons]
          omega
    rw [List.length_append]
    have hll : listLen x xs = x.lit.chars.length + x.after +
      (xs.flatMap (fun y => ',' :: y.chars)).length := rfl
    omega
  obtain ⟨l, hl, hv⟩ : ∃ l, (if t = .text then
      inTexts ((listChars x xs ++ sp m).length + 1) (x.lit.chars ++ listTail x xs m) (listLen x xs)
      else some (inNumbers ((listChars x xs ++ sp m).length + 1) (x.lit.chars ++ listTail x xs m)
        (listLen x xs))) = some l ∧ Values (x :: xs) l := by
    by_cases ht : t = .text
    · rw [if_pos ht]
      have := read_texts (m := m) xs (x := x) (b := 0)
        (fun y hy => ⟨(hx y hy).1, (hx y hy).2.1, (hx y hy).2.2.mpr ht⟩) hfuel
      simpa [sp] using this
    · rw [if_neg ht]
      refine ⟨_, rfl, read_numbers xs (fun y hy => ⟨(hx y hy).1, ?_⟩) hfuel⟩
      cases hy' : y.lit.isTxt with
      | false => rfl
      | true => exact absurd ((hx y hy).2.2.mp hy') ht
  refine ⟨l, if sp m = [] then none else some (skipSpaces (sp m)), ?_, hv, ?_⟩
  · unfold pWCIN
    simp only [bind, Option.bind, he, hb, hs, hhead, if_true, hend, hfin, pure]
    split at hl
    · rename_i ht
      simp only [ht, if_true, hl]
    · rename_i ht
      simp only [ht, if_false]
      cases hl
      rfl
  · intro s' hs'
    rw [skipSpaces_blanks] at hs'
    split at hs'
    · cases hs'
    · exact (Option.some_inj.mp hs').symm

theorem parse_in {c k : Sds} {n₁ n₂ m : Nat} {x : Item} {xs : List Item} {last : Option Nat}
    (hw : (Pred.isIn c n₁ k n₂ x xs).Wf) (ht : (Pred.isIn c n₁ k n₂ x xs).Typed w)
    (hcl : (Pred.isIn c n₁ k n₂ x xs).Clean last) :
    Reads w (.isIn c n₁ k n₂ x xs)
      (parseRangeOrIn w ((Pred.isIn c n₁ k n₂ x xs).chars ++ sp m)) := by
  obtain ⟨hne, hc, hl, hn1, hk, hn2⟩ := hw
  replace hc : ∀ d ∈ c, Pred.nameChar d = true := hc
  obtain ⟨i, t, hpif, hty⟩ := ht
  replace hpif : w.pif c = some (i, t) := hpif
  obtain ⟨_, hfull, hpar, hfirst⟩ := hcl
  have hx : ∀ y ∈ x :: xs, y.lit.Wf ∧ y.lit.Full ∧ (y.lit.isTxt = true ↔ t = .text) :=
    fun y hy => ⟨hl y.lit (List.mem_map_of_mem hy), hfull y hy, hty y.lit (List.mem_map_of_mem hy)⟩
  set L := listChars x xs ++ sp m with hL
  have htk : (Pred.isIn c n₁ k n₂ x xs).chars ++ sp m = c ++ (sp n₁ ++ (k ++ (sp n₂ ++ L))) := by
    simp [Pred.chars, hL]
  obtain ⟨z, hz⟩ : ∃ z, L = '(' :: z := ⟨_, listChars_eq x xs m⟩
  have hk0 : ∃ e g, k = e :: g ∧ isBlank e = false := by
    obtain ⟨e, g, rfl⟩ : ∃ e g, k = e :: g := by
      apply List.exists_cons_of_ne_nil
      rintro rfl
      cases hk.1
    refine ⟨e, g, rfl, ?_⟩
    have := spells_alpha hk (by decide) e List.mem_cons_self
    by_contra hb
    simp only [isBlank, Bool.not_eq_false, Bool.or_eq_true, beq_iff_eq] at hb
    rcases hb with rfl | rfl <;> cases this
  obtain ⟨e, g, hke, heb⟩ := hk0
  have hsp : strchr (c ++ (sp n₁ ++ (k ++ (sp n₂ ++ L)))) ' ' = some c.length := by
    obtain ⟨q, rfl⟩ : ∃ q, n₁ = q + 1 := ⟨n₁ - 1, by omega⟩
    rw [strchr_skip _ (no_blank_of hc (by decide)),
      show strchr (sp (q + 1) ++ (k ++ (sp n₂ ++ L))) ' ' = some 0 from strchr_here ' ' _]
    rfl
  have hskip : skipSpaces ((c ++ (sp n₁ ++ (k ++ (sp n₂ ++ L)))).drop c.length) =
      k ++ (sp n₂ ++ L) := by
    rw [List.drop_left, skipSpaces_sp, hke]
    exact skipSpaces_cons _ heb
  have hin : startsWith "IN ".toList (k ++ (sp n₂ ++ L)) = true := by
    obtain ⟨q, rfl⟩ : ∃ q, n₂ = q + 1 := ⟨n₂ - 1, by omega⟩
    exact startsWith_spells hk (sp q ++ L)
  have hnt : nextToken (k ++ (sp n₂ ++ L)) = some (k.length + n₂) := by
    rw [hz]
    exact nextToken_eq _ (spells_no_blank (by decide) hk) hn2 (by decide)
  have hdr : (k ++ (sp n₂ ++ L)).drop (k.length + n₂) = L := by
    rw [← List.append_assoc, show k.length + n₂ = (k ++ sp n₂).length by simp, List.drop_left]
  obtain ⟨l, fin, hlist, hv, hfin⟩ := read_list (w := w) (m := m) hx hpar hfirst
  rw [← hL] at hlist
  refine ⟨{ col := i, op := .isIn, inl := l }, fin, ?_, ⟨i, t, hpif, l, rfl, hv⟩, hfin⟩
  rw [htk]
  unfold parseRangeOrIn
  simp only [bind, Option.bind, hsp, List.take_left, hpif, hskip, hin, if_true, hnt, hdr, hlist,
    pure]

/-! ## Clauses -/

/-- One predicate with what follows it: where it ends, and its filter. -/
theorem Pred.step {p : Pred} (hw : p.Wf) (ht : p.Typed w) {last : Option Nat} (hcl : p.Clean last)
    {r : Sds} {o : Option Nat} (hf : Follows r o) (hlast : ∀ t, last = some t → r = sp t) {m : Nat}
    (hm : ∀ t, last = some t → m = t) :
    ∃ ty, splitLine (p.chars ++ r) = some (o.map (p.chars.length + ·), ty) ∧
      Reads w p (parseWCTokRelation w (p.chars ++ sp m) ty) := by
  cases p with
  | eq c n₁ n₂ v =>
      have hfr : v.Full ∨ r = [] := by
        rcases hcl with h | h
        · exact .inl h
        · exact .inr (by simpa [sp] using hlast 0 h)
      have hfm : v.Full ∨ m = 0 := by
        rcases hcl with h | h
        · exact .inl h
        · exact .inr (hm 0 h)
      exact ⟨.key, split_eq hw hf hfr, parse_eq hw ht hfm⟩
  | between c n₁ k₁ n₂ lo n₃ k₂ n₄ hi =>
      have hfm : hi.Full ∨ m = 0 := by
        rcases hcl.2.2.2.1 with h | h
        · exact .inl h
        · exact .inr (hm 0 h)
      exact ⟨.range, split_between hw hcl hf hlast, parse_between hw ht hcl.2.2.1 hfm⟩
  | isIn c n₁ k n₂ x xs => exact ⟨.isIn, split_in hw hcl hf, parse_in hw ht hcl⟩

theorem Pred.Wf.head {p : Pred} (hw : p.Wf) (z : Sds) :
    skipSpaces (p.chars ++ z) = p.chars ++ z ∧ p.chars ++ z ≠ [] := by
  obtain ⟨hne, hc, _⟩ := hw
  obtain ⟨d, s, hd⟩ := List.exists_cons_of_ne_nil hne
  have hdb : isBlank d = false := by
    have := hc d (by rw [hd]; exact List.mem_cons_self)
    by_contra hb
    simp only [isBlank, Bool.not_eq_false, Bool.or_eq_true, beq_iff_eq] at hb
    rcases hb with rfl | rfl <;> cases this
  have hcons : ∃ y, p.chars ++ z = d :: y := by
    cases p with
    | eq c n₁ n₂ v => exact ⟨_, by rw [Pred.chars, show c = d :: s from hd]; rfl⟩
    | between c n₁ k₁ n₂ lo n₃ k₂ n₄ hi =>
        exact ⟨_, by rw [Pred.chars, show c = d :: s from hd]; rfl⟩
    | isIn c n₁ k n₂ x xs => exact ⟨_, by rw [Pred.chars, show c = d :: s from hd]; rfl⟩
  obtain ⟨y, hy⟩ := hcons
  rw [hy]
  exact ⟨skipSpaces_cons _ hdb, by simp⟩

theorem clause_head {p : Pred} (hw : p.Wf) (r : List (Sep × Pred)) (t : Nat) :
    skipSpaces (clause p r t) = clause p r t ∧ clause p r t ≠ [] := by
  cases r with
  | nil => exact hw.head _
  | cons e r => exact hw.head _

theorem loop_clause {t : Nat} : ∀ (r : List (Sep × Pred)) {p : Pred} {n : Nat},
    (∀ q ∈ p :: r.map (·.2), q.Wf ∧ q.Typed w) → (∀ e ∈ r, e.1.Wf) → ClauseClean p r t →
      r.length < n →
      ∃ fs, parseWCLoop w n (clause p r t) = some (fs, none) ∧
        List.Forall₂ (Pred.Gives w) (p :: r.map (·.2)) fs
  | _, _, 0, _, _, _, hn => absurd hn (Nat.not_lt_zero _)
  | [], p, n + 1, hp, _, hcl, _ => by
      obtain ⟨hw, ht⟩ := hp p List.mem_cons_self
      obtain ⟨ty, hsplit, f, fin, hread, hg, hfin⟩ := Pred.step hw ht hcl (.last t)
        (fun t' ht' => by rw [Option.some_inj.mp ht']) (m := t)
        (fun t' ht' => Option.some_inj.mp ht')
      refine ⟨[f], ?_, .cons hg .nil⟩
      have htake : (p.chars ++ sp t).take (Option.getD none (p.chars ++ sp t).length) =
          p.chars ++ sp t := List.take_length
      rw [clause, parseWCLoop]
      simp only [hsplit, bind, Option.bind, Option.map_none, htake, hread]
      cases fin with
      | none => rfl
      | some s =>
          have hs := hfin s rfl
          subst hs
          rfl
  | e :: r, p, n + 1, hp, hs, hcl, hn => by
      obtain ⟨hw, ht⟩ := hp p List.mem_cons_self
      obtain ⟨hb, hkw, ha⟩ := hs e List.mem_cons_self
      obtain ⟨hcl, hodd, hrest⟩ := hcl
      have hklen : e.1.kw.length = 3 := hkw.1
      obtain ⟨a, ha⟩ : ∃ a, e.1.after = a + 1 := ⟨e.1.after - 1, by omega⟩
      obtain ⟨b, hb⟩ : ∃ b, e.1.before = b + 1 := ⟨e.1.before - 1, by omega⟩
      have hline : clause p (e :: r) t =
          p.chars ++ (sp (b + 1) ++ (e.1.kw ++ ' ' :: (sp a ++ clause e.2 r t))) := by
        rw [clause, ha, hb]
        rfl
      have hfol : Follows (sp (b + 1) ++ (e.1.kw ++ ' ' :: (sp a ++ clause e.2 r t))) (some b) :=
        Follows.sep (n := b + 1) (by rw [← hb]; exact hodd) hkw
      obtain ⟨ty, hsplit, f, fin, hread, hg, _⟩ := Pred.step hw ht hcl hfol
        (fun t' ht' => by cases ht') (m := b) (fun t' ht' => by cases ht')
      obtain ⟨fs, hloop, hfs⟩ := loop_clause r (p := e.2) (n := n)
        (fun q hq => hp q (List.mem_cons_of_mem p hq)) (fun d hd => hs d (List.mem_cons_of_mem e hd))
        hrest (by simpa using hn)
      refine ⟨f :: fs, ?_, .cons hg hfs⟩
      have htake : (p.chars ++ (sp (b + 1) ++ (e.1.kw ++ ' ' :: (sp a ++ clause e.2 r t)))).take
          (p.chars.length + b) = p.chars ++ sp b := by
        have h1 : p.chars ++ (sp (b + 1) ++ (e.1.kw ++ ' ' :: (sp a ++ clause e.2 r t))) =
            (p.chars ++ sp b) ++ (' ' :: (e.1.kw ++ ' ' :: (sp a ++ clause e.2 r t))) := by
          rw [show sp (b + 1) = sp b ++ [' '] from List.replicate_succ']
          simp
        rw [h1, show p.chars.length + b = (p.chars ++ sp b).length by simp, List.take_left]
      have hdrop : skipSpaces ((p.chars ++ (sp (b + 1) ++ (e.1.kw ++ ' ' ::
          (sp a ++ clause e.2 r t)))).drop (p.chars.length + b + 5)) = clause e.2 r t := by
        have h1 : p.chars ++ (sp (b + 1) ++ (e.1.kw ++ ' ' :: (sp a ++ clause e.2 r t))) =
            (p.chars ++ (sp (b + 1) ++ (e.1.kw ++ [' ']))) ++ (sp a ++ clause e.2 r t) := by simp
        have h2 : p.chars.length + b + 5 = (p.chars ++ (sp (b + 1) ++ (e.1.kw ++ [' ']))).length := by
          simp only [List.length_append, length_sp, hklen, List.length_singleton]
          omega
        rw [h1, h2, List.drop_left, skipSpaces_sp]
        exact (clause_head (hp e.2 (by simp)).1 r t).1
      have hne := (clause_head (hp e.2 (by simp)).1 r t).2
      rw [hline, parseWCLoop]
      simp only [hsplit, bind, Option.bind, Option.map_some, Option.getD_some,
        htake, hread, hdrop, hne, if_false, hloop, pure]

theorem length_le_clause {t : Nat} : ∀ {r : List (Sep × Pred)} {p : Pred},
    (∀ e ∈ r, e.1.Wf) → r.length ≤ (clause p r t).length
  | [], _, _ => Nat.zero_le _
  | e :: r, p, h => by
      have ih := length_le_clause (t := t) (p := e.2) fun d hd => h d (List.mem_cons_of_mem e hd)
      have hb := (h e List.mem_cons_self).1
      simp only [clause, List.length_append, List.length_cons, length_sp]
      omega

/-- A clean clause gives one filter for each predicate, in order, and leaves nothing over. -/
theorem where_clause_splits {p : Pred} {r : List (Sep × Pred)} {t : Nat}
    (hp : ∀ q ∈ p :: r.map (·.2), q.Wf ∧ q.Typed w) (hs : ∀ e ∈ r, e.1.Wf)
    (hcl : ClauseClean p r t) :
    ∃ fs, parseWC w (clause p r t) = some (fs, none) ∧
      List.Forall₂ (Pred.Gives w) (p :: r.map (·.2)) fs :=
  loop_clause r hp hs hcl (Nat.lt_succ_of_le (length_le_clause hs))

/-! ## Two clauses -/

/-- A TEXT column `a` and an INT column `b`. -/
def twoCols : Wc where
  pif s := if s = ['a'] then some (0, .text) else if s = ['b'] then some (1, .int) else none
  lua _ := none
  cmd _ := none

def aIsText : Pred := .eq ['a'] 1 1 (.txt ['x', ' ', 'A', 'N', 'D', ' ', 'y'])

def bIsFive : Pred := .eq ['b'] 1 1 (.num ['5'])

theorem aIsText_ok : aIsText.Wf ∧ aIsText.Typed twoCols := by
  refine ⟨⟨by decide, List.forall_mem_singleton.2 (by decide), ?_, trivial⟩, 0, .text, rfl,
    by simp [aIsText, Pred.lits, Lit.isTxt]⟩
  intro l hl
  rw [List.mem_singleton.mp (show l ∈ [Lit.txt _] from hl)]
  have hc : ∀ c ∈ ['x', ' ', 'A', 'N', 'D', ' ', 'y'], c ≠ '\'' ∧ c ≠ '\\' := by simp
  have esc : ∀ s : Sds, (∀ c ∈ s, c ≠ '\'' ∧ c ≠ '\\') → Escaped s := by
    intro s
    induction s with
    | nil => exact fun _ => .nil
    | cons c s ih =>
        intro h
        exact .chr (h c List.mem_cons_self).1 (h c List.mem_cons_self).2
          (ih fun d hd => h d (List.mem_cons_of_mem c hd))
  exact esc _ hc

theorem bIsFive_ok : bIsFive.Wf ∧ bIsFive.Typed twoCols := by
  refine ⟨⟨by decide, List.forall_mem_singleton.2 (by decide), ?_, trivial⟩, 1, .int, rfl,
    by simp [bIsFive, Pred.lits, Lit.isTxt]⟩
  intro l hl
  rw [List.mem_singleton.mp (show l ∈ [Lit.num _] from hl)]
  exact ⟨List.forall_mem_singleton.2 (by decide), '5', [], rfl, by decide⟩

/-- `a = 'x AND y' and b = 5`. -/
theorem where_clause_splits_quoted :
    ∃ fs, parseWC twoCols "a = 'x AND y' and b = 5".toList = some (fs, none) ∧
      List.Forall₂ (Pred.Gives twoCols) [aIsText, bIsFive] fs := by
  have htext : clause aIsText [(⟨1, ['a', 'n', 'd'], 1⟩, bIsFive)] 0 =
      "a = 'x AND y' and b = 5".toList := by decide
  have hsep : spells "AND" ['a', 'n', 'd'] := ⟨by decide, by decide⟩
  rw [← htext]
  refine where_clause_splits ?_ ?_ ?_
  · intro q hq
    rcases List.mem_cons.mp hq with rfl | hq
    · exact aIsText_ok
    · rw [List.mem_singleton.mp hq]
      exact bIsFive_ok
  · intro e he
    rw [List.mem_singleton.mp he]
    exact ⟨by decide, hsep, by decide⟩
  · exact ⟨.inl (by simp [Lit.Full]), rfl, .inl trivial⟩

/-- With two blanks before the AND, `b = 5` is left over. -/
theorem where_clause_two_blanks :
    ∃ w p r t, (∀ q ∈ p :: r.map (fun e : Sep × Pred => e.2), q.Wf ∧ q.Typed w) ∧
      (∀ e ∈ r, e.1.Wf) ∧
      ¬ ∃ fs, parseWC w (clause p r t) = some (fs, none) ∧
        List.Forall₂ (Pred.Gives w) (p :: r.map (·.2)) fs := by
  refine ⟨twoCols, aIsText, [(⟨2, ['A', 'N', 'D'], 1⟩, bIsFive)], 0, ?_, ?_, ?_⟩
  · intro q hq
    rcases List.mem_cons.mp hq with rfl | hq
    · exact aIsText_ok
    · rw [List.mem_singleton.mp hq]
      exact bIsFive_ok
  · intro e he
    rw [List.mem_singleton.mp he]
    exact ⟨by decide, ⟨by decide, by decide⟩, by decide⟩
  · rintro ⟨fs, hfs, _⟩
    have hlvr : (parseWC twoCols
        (clause aIsText [(⟨2, ['A', 'N', 'D'], 1⟩, bIsFive)] 0)).map (·.2) =
        some (some "AND b = 5".toList) := by
      decide
    rw [hfs] at hlvr
    cases hlvr

end AlchemyDB.Text
