/-
# The columns of an expression

A name that the loop reads becomes a local of the function, bound to the argument of its
column.  It reads a name that stands between the right neighbours, unless a word before it
is still open: neither a quote nor `!=` ends a word.
-/
import AlchemyDB.Lua.Cache
import AlchemyDB.Lua.Translated

namespace AlchemyDB.Lua

open Catalog Text

/-! ## Names that are read -/

/-- A character of a word, for the loop. -/
def wordChar (c : Char) : Bool := c.isAlphanum || c == '.'

/-- What ends a word: the end of the text, or a character that does not go on with it. -/
def Ends (s : Sds) : Prop :=
  ∀ c r, s = c :: r → wordChar c = false ∧ c ≠ '\'' ∧ ¬ (c = '!' ∧ r.head? = some '=')

/-- Whether a word is open behind `c`. -/
def opens (p : Option Char) (o : Bool) (c : Char) : Bool :=
  if o then wordChar c else c.isAlpha && p.all luaDlms

/-- The name `n` is read in a text that stands behind `p`, where a word is open or not. -/
inductive ReadsName : Option Char → Bool → Sds → Sds → Prop
  | here {p : Option Char} {n b : Sds} : p.all luaDlms = true → n.head?.any Char.isAlpha = true →
      n.all wordChar = true → Ends b → ReadsName p false (n ++ b) n
  | unequal {p : Option Char} {o : Bool} {s n : Sds} : ReadsName (some '=') o s n →
      ReadsName p o ('!' :: '=' :: s) n
  | quoted {p : Option Char} {o : Bool} {s n : Sds} {d : Nat} : skips s = some d →
      ReadsName (some '\'') o (s.drop (d + 1)) n → ReadsName p o ('\'' :: s) n
  | char {p : Option Char} {o : Bool} {c : Char} {s n : Sds} : ¬ (c = '!' ∧ s.head? = some '=') →
      c ≠ '\'' → ReadsName (some c) (opens p o c) s n → ReadsName p o (c :: s) n

section Reads

variable {p : Option Char} {o : Bool} {c : Char} {s n : Sds}

/-- A name that is read where the text stands. -/
def Begins (p : Option Char) (o : Bool) (s n : Sds) : Prop :=
  o = false ∧ p.all luaDlms = true ∧ n.head?.any Char.isAlpha = true ∧ n.all wordChar = true ∧
    ∃ b, s = n ++ b ∧ Ends b

theorem Begins.cons (h : Begins p o (c :: s) n) : c.isAlpha = true ∧ ∃ x y, n = c :: x ∧ s = x ++ y ∧
    x.all wordChar = true ∧ Ends y := by
  obtain ⟨-, -, ha, hw, b, hs, hb⟩ := h
  cases n with
  | nil => simp at ha
  | cons d n =>
      rw [List.cons_append] at hs
      obtain ⟨rfl, rfl⟩ := List.cons.inj hs
      rw [List.all_cons, Bool.and_eq_true] at hw
      exact ⟨by simpa using ha, n, b, rfl, rfl, hw.2, hb⟩

theorem reads_cases (h : ReadsName p o s n) : Begins p o s n ∨
    (∃ r, s = '!' :: '=' :: r ∧ ReadsName (some '=') o r n) ∨
    (∃ r d, s = '\'' :: r ∧ skips r = some d ∧ ReadsName (some '\'') o (r.drop (d + 1)) n) ∨
    ∃ c r, s = c :: r ∧ ¬ (c = '!' ∧ r.head? = some '=') ∧ c ≠ '\'' ∧
      ReadsName (some c) (opens p o c) r n := by
  cases h with
  | @here _ _ b h1 h2 h3 h4 => exact .inl ⟨rfl, h1, h2, h3, b, rfl, h4⟩
  | @unequal _ _ r _ h => exact .inr (.inl ⟨r, rfl, h⟩)
  | @quoted _ _ r _ d hd h => exact .inr (.inr (.inl ⟨r, d, rfl, hd, h⟩))
  | @char _ _ c r _ hne hq h => exact .inr (.inr (.inr ⟨c, r, rfl, hne, hq, h⟩))

theorem reads_nil : ¬ ReadsName p o [] n := by
  intro h
  rcases reads_cases h with h | ⟨r, hs, -⟩ | ⟨r, d, hs, -⟩ | ⟨c, r, hs, -⟩
  · obtain ⟨-, -, ha, -, b, hs, -⟩ := h
    cases n with
    | nil => simp at ha
    | cons d n => cases hs
  all_goals cases hs

theorem reads_unequal : ReadsName p o ('!' :: '=' :: s) n ↔ ReadsName (some '=') o s n := by
  refine ⟨fun h => ?_, .unequal⟩
  rcases reads_cases h with h | ⟨r, hs, h⟩ | ⟨r, d, hs, -⟩ | ⟨c, r, hs, hne, -⟩
  · exact absurd h.cons.1 (by decide)
  · cases hs
    exact h
  · cases hs
  · cases hs
    exact absurd ⟨rfl, rfl⟩ hne

theorem reads_quote : ReadsName p o ('\'' :: s) n ↔
    ∃ d, skips s = some d ∧ ReadsName (some '\'') o (s.drop (d + 1)) n := by
  refine ⟨fun h => ?_, fun h => ?_⟩
  · rcases reads_cases h with h | ⟨r, hs, h⟩ | ⟨r, d, hs, hd, h⟩ | ⟨c, r, hs, hne, hq, -⟩
    · exact absurd h.cons.1 (by decide)
    · cases hs
    · cases hs
      exact ⟨d, hd, h⟩
    · cases hs
      exact absurd rfl hq
  · obtain ⟨d, hd, h⟩ := h
    exact .quoted hd h

theorem reads_char (hne : ¬ (c = '!' ∧ s.head? = some '=')) (hq : c ≠ '\'') :
    ReadsName p o (c :: s) n ↔ ReadsName (some c) (opens p o c) s n ∨ Begins p o (c :: s) n := by
  constructor
  · intro h
    rcases reads_cases h with h | ⟨r, hs, h⟩ | ⟨r, d, hs, -⟩ | ⟨c', r, hs, -, -, h⟩
    · exact .inr h
    · cases hs
      exact absurd ⟨rfl, rfl⟩ hne
    · cases hs
      exact absurd rfl hq
    · cases hs
      exact .inl h
  · rintro (h | ⟨rfl, h1, h2, h3, b, hs, h4⟩)
    · exact .char hne hq h
    · rw [hs]
      exact .here h1 h2 h3 h4

end Reads

/-- The rest of a word. -/
def Goes (s x : Sds) : Prop := ∃ y, s = x ++ y ∧ x.all wordChar = true ∧ Ends y

theorem goes_stop {c : Char} {s x : Sds} (hc : wordChar c = false) : Goes (c :: s) x → x = [] := by
  rintro ⟨y, hs, hx, -⟩
  cases x with
  | nil => rfl
  | cons d x =>
      rw [List.cons_append] at hs
      obtain ⟨rfl, -⟩ := List.cons.inj hs
      rw [List.all_cons, hc] at hx
      cases hx

theorem goes_nil {x : Sds} : Goes [] x ↔ x = [] := by
  constructor
  · rintro ⟨y, hs, -⟩
    exact (List.append_eq_nil_iff.1 hs.symm).1
  · rintro rfl
    exact ⟨[], rfl, rfl, fun c r h => by cases h⟩

/-- A character that ends a word. -/
theorem goes_end {c : Char} {s x : Sds} (hc : wordChar c = false) (hq : c ≠ '\'')
    (hne : ¬ (c = '!' ∧ s.head? = some '=')) : Goes (c :: s) x ↔ x = [] := by
  refine ⟨goes_stop hc, ?_⟩
  rintro rfl
  refine ⟨c :: s, rfl, rfl, fun c' r h => ?_⟩
  cases h
  exact ⟨hc, hq, hne⟩

theorem goes_on {c : Char} {s x : Sds} (hc : wordChar c = true) :
    Goes (c :: s) x ↔ ∃ x', x = c :: x' ∧ Goes s x' := by
  constructor
  · rintro ⟨y, hs, hx, hy⟩
    cases x with
    | nil =>
        have := (hy c s hs.symm).1
        rw [hc] at this
        cases this
    | cons d x =>
        rw [List.cons_append] at hs
        obtain ⟨rfl, rfl⟩ := List.cons.inj hs
        rw [List.all_cons, hc, Bool.true_and] at hx
        exact ⟨x, rfl, y, rfl, hx, hy⟩
  · rintro ⟨x', rfl, y, rfl, hx, hy⟩
    exact ⟨y, rfl, by rw [List.all_cons, hc, hx]; rfl, hy⟩

/-- A word does not end at `!=`, nor at a quote. -/
theorem not_goes_unequal {s x : Sds} : ¬ Goes ('!' :: '=' :: s) x := by
  intro h
  obtain rfl := goes_stop (by decide) h
  obtain ⟨y, hs, -, hy⟩ := h
  exact (hy _ _ hs.symm).2.2 ⟨rfl, rfl⟩

theorem not_goes_quote {s x : Sds} : ¬ Goes ('\'' :: s) x := by
  intro h
  obtain rfl := goes_stop (by decide) h
  obtain ⟨y, hs, -, hy⟩ := h
  exact (hy _ _ hs.symm).2.1 rfl

theorem begins_iff {p : Option Char} {c : Char} {s n : Sds} (hc : c.isAlpha = true ∧ p.all luaDlms = true) :
    Begins p false (c :: s) n ↔ ∃ x, n = [c] ++ x ∧ Goes s x := by
  constructor
  · intro h
    obtain ⟨-, x, y, hn, hs, hx, hy⟩ := h.cons
    exact ⟨x, hn, y, hs, hx, hy⟩
  · rintro ⟨x, rfl, y, rfl, hx, hy⟩
    have hw : wordChar c = true := by simp [wordChar, Char.isAlphanum, hc.1]
    exact ⟨rfl, hc.2, by simpa using hc.1, by simp [hw, hx], y, rfl, hy⟩

/-- The words without quotes and `!=` are the names that are read. -/
theorem mem_names {n : Sds} (hg : '\'' ∉ n ∧ '~' ∉ n) : ∀ (s : Sds) (p : Option Char)
    (cur : Option Sds), n ∈ names p cur s ↔
      ReadsName p cur.isSome s n ∨ ∃ w x, cur = some w ∧ n = w ++ x ∧ Goes s x
  | [], p, cur => by
      rw [names]
      cases cur with
      | none => simp [reads_nil]
      | some w => simp [reads_nil, goes_nil]
  | c :: s, p, cur => by
      by_cases hne : c = '!' ∧ s.head? = some '='
      · obtain ⟨rfl, hs⟩ := hne
        obtain ⟨s', hs'⟩ : ∃ s', s = '=' :: s' := by
          cases s with
          | nil => cases hs
          | cons d s => exact ⟨s, by rw [Option.some.inj hs]⟩
        have hlen : s'.length < s.length := by
          rw [hs']
          exact Nat.lt_succ_self _
        rw [hs', names_unequal, mem_names hg s', reads_unequal, Option.isSome_map]
        refine or_congr_right ⟨?_, ?_⟩
        · rintro ⟨w, x, hw, hn, -⟩
          obtain ⟨v, -, rfl⟩ := Option.map_eq_some_iff.1 hw
          exact absurd (by rw [hn]; simp) hg.2
        · rintro ⟨w, x, -, -, hx⟩
          exact absurd hx not_goes_unequal
      by_cases hq : c = '\''
      · subst hq
        rw [names_quote, reads_quote]
        cases hd : skips s with
        | none =>
            simp only [List.not_mem_nil, false_iff, not_or]
            refine ⟨by simp, ?_⟩
            rintro ⟨w, x, -, -, hx⟩
            exact not_goes_quote hx
        | some d =>
            have hlt := skips_lt hd
            dsimp only
            rw [skips_last hd, mem_names hg (s.drop (d + 1)), Option.isSome_map]
            constructor
            · rintro (h | ⟨w, x, hw, hn, -⟩)
              · exact .inl ⟨d, rfl, h⟩
              · obtain ⟨v, -, rfl⟩ := Option.map_eq_some_iff.1 hw
                exact absurd (by rw [hn]; simp) hg.1
            · rintro (⟨d', hd', h⟩ | ⟨w, x, -, -, hx⟩)
              · cases hd'
                exact .inl h
              · exact absurd hx not_goes_quote
      have hstop : ((!c.isAlphanum) = true ∧ c ≠ '.') ↔ wordChar c = false := by
        simp [wordChar]
      cases cur with
      | some w =>
          rw [names_open hne hq, reads_char hne hq]
          have hno : ¬ Begins p true (c :: s) n := fun h => by cases h.1
          simp only [Option.isSome_some, opens, if_true, hno, or_false, hstop]
          cases hw : wordChar c with
          | false =>
              rw [if_pos rfl, List.mem_cons, mem_names hg s]
              simp [goes_end hw hq hne, or_comm]
          | true =>
              rw [if_neg (by simp), mem_names hg s]
              simp [goes_on hw]
      | none =>
          rw [names_between hne hq, reads_char hne hq]
          by_cases hc : c.isAlpha = true ∧ p.all luaDlms = true
          · rw [if_pos hc, mem_names hg s, Option.isSome_none, begins_iff hc]
            simp [opens, hc]
          · rw [if_neg hc, mem_names hg s]
            have hno : ¬ Begins p false (c :: s) n := fun h => hc ⟨h.cons.1, h.2.1⟩
            have ho : opens p false c = false := by
              simpa [opens] using hc
            simp [ho, hno]
  termination_by s => s.length
  decreasing_by all_goals simp only [List.length_drop, List.length_cons]; omega

/-! ## Columns -/

/-- A character of an identifier. -/
def idChar (c : Char) : Bool := c.isAlphanum || c == '_'

/-- The local that is made for a name: of a path only the table. -/
def localName (f : Found) (n : Sds) : Sds := if f.nlo ≠ 0 then n.takeWhile (· != '.') else n

theorem localName_col (j : Nat) (n : Sds) : localName (.col ⟨j, []⟩) n = n := rfl

theorem localName_pos (i : Nat) (n : Sds) : localName (.pos i) n = n := rfl

theorem localName_path {lo : List Sds} (h : lo ≠ []) {j : Nat} (n : Sds) :
    localName (.col ⟨j, lo⟩) n = n.takeWhile (· != '.') :=
  if_pos (by simpa [Found.nlo] using h)

theorem dotted_chars : ∀ {s : Sds} {c : Char}, c ∈ s → c = '.' ∨ ∃ w ∈ dotted s, c ∈ w
  | [], _, h => by cases h
  | d :: s, c, h => by
      unfold dotted
      rcases List.mem_cons.1 h with rfl | h
      · by_cases hd : c = '.'
        · exact .inl hd
        · right
          rw [if_neg hd]
          cases dotted s with
          | nil => exact ⟨_, List.mem_cons_self, List.mem_cons_self⟩
          | cons w ws => exact ⟨_, List.mem_cons_self, List.mem_cons_self⟩
      · rcases dotted_chars h with h | ⟨w, hw, hc⟩
        · exact .inl h
        · right
          split_ifs
          · exact ⟨w, List.mem_cons_of_mem _ hw, hc⟩
          · cases hd : dotted s with
            | nil => rw [hd] at hw; cases hw
            | cons v ws =>
                rw [hd] at hw
                rcases List.mem_cons.1 hw with rfl | hw
                · exact ⟨_, List.mem_cons_self, List.mem_cons_of_mem _ hc⟩
                · exact ⟨w, List.mem_cons_of_mem _ hw, hc⟩

theorem take_strchr {n : Sds} {d : Nat} (h : strchr n '.' = some d) :
    n.take d = n.takeWhile (· != '.') := by
  rw [List.takeWhile_eq_take_findIdx_not]
  obtain ⟨-, hd⟩ := List.findIdx?_eq_some_iff_findIdx_eq.1 h
  rw [← hd]
  refine congrArg (fun p => n.take (List.findIdx p n)) (funext fun c => ?_)
  exact (Bool.not_not (c == '.')).symm

theorem mem_behind_dot {n : Sds} {d : Nat} {c : Char} (h : strchr n '.' = some d) (hc : c ∈ n.drop d)
    (hne : c ≠ '.') : c ∈ (n.drop d).drop 1 := by
  obtain ⟨hlt, hd⟩ := List.findIdx?_eq_some_iff_findIdx_eq.1 h
  have hdot : n[d] = '.' := by
    have hw : n.findIdx (· == '.') < n.length := by rw [hd]; exact hlt
    have := List.findIdx_getElem (w := hw)
    simpa [hd] using this
  rw [List.drop_eq_getElem_cons hlt, hdot] at hc ⊢
  exact (List.mem_cons.1 hc).resolve_left hne

theorem pathName_chars {v : Sds} {c : Char} (h : pathName v = true) (hc : c ∈ v) : idChar c = true := by
  cases v with
  | nil => cases hc
  | cons x v =>
      simp only [pathName, Bool.and_eq_true, Bool.or_eq_true, beq_iff_eq, List.all_eq_true] at h
      rcases List.mem_cons.1 hc with rfl | hc
      · rcases h.1 with ha | rfl
        · simp [idChar, Char.isAlphanum, ha]
        · decide
      · simpa [idChar] using h.2 c hc

/-- What a name can be found as. -/
theorem found_cases {w : World} {t : Nat} {n : Sds} {f : Found} (h : findColumnSds w t n = some f) :
    (∃ j, f = .col ⟨j, []⟩ ∧ w.cat.findColumn t (n, []) = some ⟨j, []⟩) ∨
    (∃ j lo, lo ≠ [] ∧ f = .col ⟨j, lo⟩ ∧
      w.cat.findColumn t (n.takeWhile (· != '.'), []) = some ⟨j, []⟩ ∧
      ∀ c ∈ n, c ∈ n.takeWhile (· != '.') ∨ c = '.' ∨ idChar c = true) ∨
    ∃ i, f = .pos i ∧ '(' ∈ n := by
  have hcol : ∀ {r : Sds} {lo : List Sds} {ic : Icol}, w.cat.findColumn t (r, lo) = some ic →
      ic.lo = lo ∧ w.cat.findColumn t (r, []) = some ⟨ic.cmatch, []⟩ := by
    intro r lo ic h
    obtain ⟨j, hj, rfl⟩ := Option.map_eq_some_iff.1 h
    exact ⟨rfl, by rw [Cat.findColumn, hj]; rfl⟩
  unfold findColumnSds at h
  cases hd : w.cat.findColumn t (n, []) with
  | some ic =>
      rw [hd] at h
      obtain ⟨hlo, -⟩ := hcol hd
      obtain ⟨j, lo⟩ := ic
      obtain rfl : lo = [] := hlo
      exact .inl ⟨j, (Option.some.inj h).symm, rfl⟩
  | none =>
      rw [hd] at h
      simp only [checkSpecialColumn] at h
      cases hdot : strchr n '.' with
      | none => rw [hdot] at h; cases h
      | some d =>
          rw [hdot] at h
          simp only at h
          have hsplit : n.take d = n.takeWhile (· != '.') := take_strchr hdot
          split_ifs at h with hpos hlo
          · right; right
            cases hm : w.cat.matchIndexName (n.take d) with
            | none => rw [hm] at h; cases h
            | some i =>
                rw [hm] at h
                simp only at h
                split_ifs at h
                refine ⟨i, (Option.some.inj h).symm, List.mem_of_mem_drop (i := d) ?_⟩
                rw [hpos]
                decide
          · right; left
            obtain ⟨ic, hic, rfl⟩ := Option.map_eq_some_iff.1 h
            obtain ⟨hl, hfind⟩ := hcol hic
            rw [hsplit] at hfind
            refine ⟨ic.cmatch, ic.lo, by rw [hl]; exact hlo.1, rfl, hfind, fun c hc => ?_⟩
            rw [← hsplit]
            rw [← List.take_append_drop d n, List.mem_append] at hc
            refine hc.imp_right fun hc => ?_
            by_cases hc0 : c = '.'
            · exact .inl hc0
            · have hc1 : c ∈ (n.drop d).drop 1 := mem_behind_dot hdot hc hc0
              obtain ⟨v, hv, hcv⟩ := (dotted_chars hc1).resolve_left hc0
              exact .inr (pathName_chars (List.all_eq_true.1 hlo.2 v hv) hcv)

/-! ## The dictionary of columns -/

/-- What an entry of `colD` comes from. -/
def Comes (w : World) (t : Nat) (x : Sds × Found) : Prop :=
  ∃ n, findColumnSds w t n = some x.2 ∧ localName x.2 n = x.1

section ColD

variable {w : World} {t : Nat} {colD colD' : ColD} {n b : Sds}

/-- A name that an entry already has is the name of a column. -/
theorem Comes.same {x : Sds × Found} {f : Found} (h : Comes w t x) (hx : x.1 = n)
    (hf : findColumnSds w t n = some f) : localName f n = n := by
  obtain ⟨m, hm, hl⟩ := h
  unfold localName at hl ⊢
  by_cases h0 : x.2.nlo ≠ 0
  · rw [if_pos h0] at hl
    split_ifs
    · rw [← hx, ← hl, List.takeWhile_takeWhile]
      simp only [and_self, Bool.decide_eq_true]
    · rfl
  · rw [if_neg h0, hx] at hl
    subst hl
    rw [hm] at hf
    obtain rfl := Option.some.inj hf
    rw [if_neg h0]

theorem addCol_new {f : Found} (hx : ¬ colD.any (fun e => e.1 == n) = true) :
    addCol colD n f = .ok (colD ++ [(n, f)]) := any_name_false hx f

theorem any_iff : colD.any (fun e => e.1 == n) = true ↔ n ∈ colD.map Prod.fst := by
  simp

/-- What the loop does with a name: its local is there afterwards. -/
theorem addWord_spec (hc : ∀ x ∈ colD, Comes w t x) (h : addWord w t colD n = .ok colD') :
    (∀ x ∈ colD', Comes w t x) ∧ ∀ b, b ∈ colD'.map Prod.fst ↔ b ∈ colD.map Prod.fst ∨
      ∃ f, findColumnSds w t n = some f ∧ localName f n = b := by
  unfold addWord at h
  cases hf : findColumnSds w t n with
  | none =>
      rw [hf] at h
      cases h
      exact ⟨hc, fun b => by simp⟩
  | some f =>
      rw [hf] at h
      dsimp only at h
      have old : localName f n ∈ colD.map Prod.fst → colD' = colD →
          (∀ x ∈ colD', Comes w t x) ∧ ∀ b, b ∈ colD'.map Prod.fst ↔ b ∈ colD.map Prod.fst ∨
            ∃ f', some f = some f' ∧ localName f' n = b := by
        rintro hm rfl
        refine ⟨hc, fun b => ⟨.inl, ?_⟩⟩
        rintro (hb | ⟨f', hf', rfl⟩)
        · exact hb
        · cases hf'
          exact hm
      have new : colD' = colD ++ [(localName f n, f)] →
          (∀ x ∈ colD', Comes w t x) ∧ ∀ b, b ∈ colD'.map Prod.fst ↔ b ∈ colD.map Prod.fst ∨
            ∃ f', some f = some f' ∧ localName f' n = b := by
        rintro rfl
        refine ⟨fun x hx => ?_, fun b => ?_⟩
        · rcases List.mem_append.1 hx with hx | hx
          · exact hc x hx
          · rw [List.mem_singleton.1 hx]
            exact ⟨n, hf, rfl⟩
        · rw [List.map_append, List.mem_append]
          refine or_congr_right ⟨fun hb => ⟨f, rfl, (List.mem_singleton.1 hb).symm⟩, ?_⟩
          rintro ⟨f', hf', rfl⟩
          cases hf'
          exact List.mem_singleton.2 rfl
      split_ifs at h with hn
      · obtain ⟨x, hx, hxn⟩ := List.mem_map.1 (any_iff.1 hn)
        refine old ?_ (Except.ok.inj h).symm
        rw [(hc x hx).same hxn hf]
        exact any_iff.1 hn
      · unfold addCnameToCdict at h
        split_ifs at h with h0
        · dsimp only at h
          have hl : localName f n = n.takeWhile (· != '.') := if_pos h0
          split_ifs at h with hcn
          · exact old (hl ▸ any_iff.1 hcn) (Except.ok.inj h).symm
          · rw [addCol_new hcn] at h
            exact new (hl ▸ (Except.ok.inj h).symm)
        · rw [addCol_new hn] at h
          refine new ?_
          rw [localName, if_neg h0]
          exact (Except.ok.inj h).symm

theorem addWords_spec : ∀ {ws : List Sds} {colD colD' : ColD}, (∀ x ∈ colD, Comes w t x) →
    addWords w t colD ws = .ok colD' → (∀ x ∈ colD', Comes w t x) ∧
      ∀ b, b ∈ colD'.map Prod.fst ↔ b ∈ colD.map Prod.fst ∨
        ∃ n ∈ ws, ∃ f, findColumnSds w t n = some f ∧ localName f n = b
  | [], colD, colD', hc, h => by
      cases h
      exact ⟨hc, fun b => by simp⟩
  | n :: ws, colD, colD', hc, h => by
      rw [addWords] at h
      cases h₁ : addWord w t colD n with
      | error f => rw [h₁] at h; cases h
      | ok colD₁ =>
          rw [h₁] at h
          obtain ⟨hc₁, hk₁⟩ := addWord_spec hc h₁
          obtain ⟨hc', hk'⟩ := addWords_spec hc₁ h
          refine ⟨hc', fun b => ?_⟩
          rw [hk', hk₁, or_assoc]
          refine or_congr_right ?_
          simp

/-- The column of an identifier. -/
theorem Comes.number {f : Found} {ic : Icol} (h : Comes w t (b, f)) (hb : b.all idChar = true)
    (hic : w.cat.findColumn t (b, []) = some ic) : f.number = .col ⟨ic.cmatch, []⟩ := by
  obtain ⟨n, hn, hl⟩ := h
  dsimp only at hn hl
  rcases found_cases hn with ⟨j, rfl, hj⟩ | ⟨j, lo, hlo, rfl, hj, -⟩ | ⟨i, rfl, hp⟩
  · rw [localName_col] at hl
    rw [hl, hic] at hj
    rw [Option.some.inj hj]
    rfl
  · rw [localName_path hlo] at hl
    rw [hl, hic] at hj
    rw [Option.some.inj hj]
    rfl
  · rw [localName_pos] at hl
    have := List.all_eq_true.1 hb _ (hl ▸ hp)
    exact absurd this (by decide)

/-- A name that stands for an identifier has no quote and no `~`. -/
theorem unglued {f : Found} (hn : findColumnSds w t n = some f) (hl : localName f n = b)
    (hb : b.all idChar = true) : '\'' ∉ n ∧ '~' ∉ n := by
  have hchars : ∀ c ∈ n, c = '.' ∨ idChar c = true := by
    intro c hc
    have hid : ∀ {m : Sds}, m = b → c ∈ m → c = '.' ∨ idChar c = true := by
      rintro m rfl hc
      exact .inr (List.all_eq_true.1 hb c hc)
    rcases found_cases hn with ⟨j, rfl, -⟩ | ⟨j, lo, hlo, rfl, -, hch⟩ | ⟨i, rfl, -⟩
    · exact hid ((localName_col j n).symm.trans hl) hc
    · rcases hch c hc with h | h
      · exact hid ((localName_path hlo n).symm.trans hl) h
      · exact h
    · exact hid ((localName_pos i n).symm.trans hl) hc
  constructor
  · intro h
    exact absurd (hchars _ h) (by decide)
  · intro h
    exact absurd (hchars _ h) (by decide)

end ColD

/-! ## Bound columns -/

/-- What is no name of a column behind one dot; `..` joins texts. -/
def field (a : Sds) : Bool := a.getLast? == some '.' && a.dropLast.getLast? != some '.'

/-- The identifier `b` stands somewhere in the expression, outside of quotes. -/
def Occurs (e b : Sds) : Prop :=
  b.head?.any Char.isAlpha = true ∧ b.all idChar = true ∧
    ∃ a c, e = a ++ b ++ c ∧ (plain e)[a.length]? = some true ∧ a.getLast?.any idChar = false ∧
      field a = false ∧ c.head?.any idChar = false

/-- Every column that stands in the expression is a local, and the argument at its place is that
column. -/
def Binds (w : World) (t : Nat) (e : Sds) (chunk : Chunk) (as : List Arg) : Prop :=
  ∀ b ic, Occurs e b → w.cat.findColumn t (b, []) = some ic →
    ∃ j : Nat, chunk.locals[j]? = some b ∧ as[j]? = some (Arg.cname (.col ⟨ic.cmatch, []⟩))

/-- Every column that stands in the expression is read somewhere, or a path below it. -/
def ColumnsRead (w : World) (t : Nat) (e : Sds) : Prop :=
  ∀ b ic, Occurs e b → w.cat.findColumn t (b, []) = some ic →
    ∃ n f, ReadsName none false e n ∧ findColumnSds w t n = some f ∧ localName f n = b

section Compiled

variable {h : Host} {w : World} {t : Nat} {e : Sds} {chunk : Chunk} {as : List Arg}

theorem compile_parts (hc : compile h w t e = .ok (chunk, as)) :
    chunk.body = body e ∧ ∃ colD, addWords w t [] (scanExpr e).words = .ok colD ∧
      chunk.locals = (h.order colD).map Prod.fst ∧
      as = (h.order colD).map fun x => .cname x.2.number := by
  obtain ⟨colD, hw⟩ := addWords_ok w t (scanExpr e).words []
  unfold compile at hc
  rw [hw] at hc
  change Except.ok _ = Except.ok _ at hc
  obtain ⟨hchunk, has⟩ := Prod.mk.inj (Except.ok.inj hc)
  subst hchunk has
  exact ⟨rfl, colD, hw, rfl, rfl⟩

theorem binds_iff (hp : ∀ d, (h.order d).Perm d) (hc : compile h w t e = .ok (chunk, as)) :
    Binds w t e chunk as ↔ ColumnsRead w t e := by
  obtain ⟨-, colD, hw, hlocals, rfl⟩ := compile_parts hc
  obtain ⟨hcomes, hkeys⟩ := addWords_spec (fun x hx => absurd hx List.not_mem_nil) hw
  have hperm := hp colD
  unfold Binds ColumnsRead
  refine forall_congr' fun b => forall_congr' fun ic => forall_congr' fun ho => forall_congr' fun hic => ?_
  have hread : b ∈ colD.map Prod.fst ↔
      ∃ n f, ReadsName none false e n ∧ findColumnSds w t n = some f ∧ localName f n = b := by
    rw [hkeys, scanExpr_words]
    constructor
    · rintro (hb | ⟨n, hn, f, hf, hl⟩)
      · exact absurd hb List.not_mem_nil
      · refine ⟨n, f, ?_, hf, hl⟩
        rcases (mem_names (unglued hf hl ho.2.1) e none none).1 hn with hr | ⟨w', x, hw', -⟩
        · exact hr
        · cases hw'
    · rintro ⟨n, f, hr, hf, hl⟩
      exact .inr ⟨n, (mem_names (unglued hf hl ho.2.1) e none none).2 (.inl hr), f, hf, hl⟩
  rw [← hread, ← (hperm.map Prod.fst).mem_iff, List.mem_iff_getElem?, hlocals]
  refine exists_congr fun j => ⟨fun hj => hj.1, fun hj => ⟨hj, ?_⟩⟩
  rw [List.getElem?_map] at hj ⊢
  obtain ⟨⟨b', f⟩, hx, hb'⟩ := Option.map_eq_some_iff.1 hj
  obtain rfl : b' = b := hb'
  have hmem := hperm.mem_iff.1 (List.mem_of_getElem? hx)
  rw [hx, Option.map_some, (hcomes _ hmem).number ho.2.1 hic]

end Compiled

/-- An expression that is no call and was not compiled before: Lua is given the right text with
every column bound if and only if the loop edits the right places and reads the columns. -/
theorem rewrite_iff (h : Host) (w : World) (t : Nat) (s : Cache) (e : Sds)
    (hp : ∀ d, (h.order d).Perm d) (hf : checkExprIsFunc w t e = .ok none) (miss : s.fetch e = none) :
    ∃ chunk as, checkOrCr8LFunc h w s (some t) e =
        (if h.loads chunk.text = true then
          .ok (some ⟨lufName (s.nfuncn + 1), as⟩, s.saved e (chunk, as))
        else .ok (none, { s with nfuncn := s.nfuncn + 1 })) ∧
      (chunk.body = translate e ∧ Binds w t e chunk as ↔ Rewritable e ∧ ColumnsRead w t e) := by
  obtain ⟨⟨chunk, as⟩, hc⟩ := compile_ok h w t e
  have hrun := check_miss hf miss hc
  refine ⟨chunk, as, hrun, ?_⟩
  rw [(compile_parts hc).1, body_translate_iff, binds_iff hp hc]

/-- A table of the columns `id` and `a`. -/
def oneTable : Cat :=
  ((Cat.init 4 4).step (.createTable ['t'] [(['i', 'd'], .int), (['a'], .int)]
    ⟨true, true, true⟩)).toOption.getD (Cat.init 4 4)

/-- `a=1` is compiled as `a==1`, and `a` is bound. -/
theorem rewrite_equals : ∃ chunk as,
    checkOrCr8LFunc plainHost ⟨oneTable, noIndex, noFunction⟩ Cache.init (some 0) ['a', '=', '1'] =
      .ok (some ⟨lufName 1, as⟩, Cache.init.saved ['a', '=', '1'] (chunk, as)) ∧
    chunk.body = ['a', '=', '=', '1'] ∧
    Binds ⟨oneTable, noIndex, noFunction⟩ 0 ['a', '=', '1'] chunk as := by
  obtain ⟨chunk, as, hrun, hiff⟩ := rewrite_iff plainHost ⟨oneTable, noIndex, noFunction⟩ 0 Cache.init
    ['a', '=', '1'] (fun d => .refl d) (by rfl) rfl
  have hwords : ∀ b, Occurs ['a', '=', '1'] b → b = ['a'] := by
    rintro b ⟨ha, hid, x, c, he, -⟩
    cases b with
    | nil => simp at ha
    | cons d b =>
        have ha : d.isAlpha = true := by simpa using ha
        cases x with
        | nil =>
            obtain ⟨hd, he⟩ := List.cons.inj he
            cases b with
            | nil => rw [hd]
            | cons d' b =>
                have hd' : '=' = d' := (List.cons.inj he).1
                rw [← hd'] at hid
                simp [idChar] at hid
        | cons y x =>
            have hd : d ∈ ['=', '1'] := by
              rw [(List.cons.inj he).2]
              simp
            simp only [List.mem_cons, List.not_mem_nil, or_false] at hd
            rcases hd with rfl | rfl
            · exact absurd ha (by decide)
            · exact absurd ha (by decide)
  have hread : ColumnsRead ⟨oneTable, noIndex, noFunction⟩ 0 ['a', '=', '1'] := by
    intro b ic hb _
    obtain rfl := hwords b hb
    refine ⟨['a'], .col ⟨1, []⟩, ?_, by decide, rfl⟩
    refine ReadsName.here (n := ['a']) (b := ['=', '1']) rfl rfl rfl ?_
    rintro c r ⟨⟩
    exact ⟨by decide, by decide, by decide⟩
  obtain ⟨hbody, hbinds⟩ := hiff.2 ⟨by decide, hread⟩
  exact ⟨chunk, as, hrun, hbody.trans (by decide), hbinds⟩

/-- `a<=1` is compiled as `a<==1`. -/
theorem rewrite_at_most : ¬ ∀ (h : Host) (w : World) (t : Nat) (s : Cache) (e : Sds),
    (∀ d, (h.order d).Perm d) → checkExprIsFunc w t e = .ok none → s.fetch e = none →
      ∃ chunk as, checkOrCr8LFunc h w s (some t) e =
          (if h.loads chunk.text = true then
            .ok (some ⟨lufName (s.nfuncn + 1), as⟩, s.saved e (chunk, as))
          else .ok (none, { s with nfuncn := s.nfuncn + 1 })) ∧
        chunk.body = translate e ∧ Binds w t e chunk as := by
  intro H
  obtain ⟨chunk, as, hrun, hbody, -⟩ := H plainHost ⟨oneTable, noIndex, noFunction⟩ 0 Cache.init
    ['a', '<', '=', '1'] (fun d => .refl d) (by rfl) rfl
  obtain ⟨⟨c, l⟩, hc⟩ := compile_ok plainHost ⟨oneTable, noIndex, noFunction⟩ 0 ['a', '<', '=', '1']
  have hrun' := check_miss (s := Cache.init) (by rfl) rfl hc
  have hb := (compile_parts hc).1
  have hl : ∀ x, plainHost.loads x = true := fun _ => rfl
  rw [if_pos (hl _)] at hrun hrun'
  have heq := hrun.symm.trans hrun'
  have hsaved := (Prod.mk.inj (Except.ok.inj heq)).2
  have hchunk : chunk = c := by
    have := congrArg Cache.globals hsaved
    simpa [Cache.saved] using this
  rw [hchunk, hb] at hbody
  exact absurd hbody (by decide)

end AlchemyDB.Lua
