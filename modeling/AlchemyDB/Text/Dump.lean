/-
# A row as it is put out, read as an INSERT

`write_output_row` puts the columns of a row between commas, a TEXT that is not empty
between quotes, and nothing is escaped.  `appendOnlyDumpTable` puts such a row between
parentheses behind INSERT INTO .. VALUES.  Read by `parseRowVals` the row comes out as
it was if no TEXT is empty and the scan passes exactly over each of them; the last one
need only keep the scan from stopping at a comma behind a quote.
-/
import AlchemyDB.Text.Rows

namespace AlchemyDB.Text

open Catalog

/-! ## The row -/

/-- A column as it is put out, `outs[i]`. -/
structure Cell where
  text : Bool
  s : Sds
  deriving DecidableEq, Repr

/-- `QUOTE_COL`. -/
def Cell.chars (c : Cell) : Sds := if c.text ∧ c.s ≠ [] then '\'' :: (c.s ++ ['\'']) else c.s

/-- `write_output_row`, with `FINAL_COMMA`. -/
def writeOutputRow : List Cell → Sds
  | [] => []
  | c :: cs => c.chars ++ if cs = [] then [] else ',' :: writeOutputRow cs

/-- `"(%s)"` in `appendOnlyDumpTable`. -/
def dumped (cs : List Cell) : Sds := '(' :: (writeOutputRow cs ++ [')'])

/-- The INSERT into a table of these columns, without a list of columns. -/
def insertOf (cs : List Cell) : Request := ⟨dumped cs, cs.length, cs.length, 0, fun _ => .err⟩

/-! ## What comes out right -/

/-- The scan stops in the last TEXT at no comma that stands behind a quote. -/
def Last (s : Sds) : Prop :=
  ∀ k, valueEnd (s ++ [')']) = some k → s[revSkipFrom s (k - 1)]? ≠ some '\''

/-- No TEXT is empty, and the scan passes over each one. -/
def Kept : List Cell → Prop
  | [] => True
  | c :: cs =>
      (c.text = true → c.s ≠ [] ∧ if cs = [] then Last c.chars else Flat c.chars) ∧ Kept cs

/-- The extent of a cell at `p`. -/
def Cell.extent (mvals p : Nat) (c : Cell) : Int × Int :=
  ((p : Int) - mvals, ((p + c.chars.length : Nat) : Int) - mvals)

/-- The extents of cells, the first of which stands at `p`. -/
def extents (mvals : Nat) : Nat → List Cell → List (Int × Int)
  | _, [] => []
  | p, c :: cs => c.extent mvals p :: extents mvals (p + c.chars.length + 1) cs

/-- The columns from number `k` on have the extents of the cells. -/
def Placed (mvals : Nat) (r : Parsed) : Nat → Nat → List Cell → Prop
  | _, _, [] => True
  | k, p, c :: cs =>
      r.cofsts[k]? = some (c.extent mvals p) ∧
        Placed mvals r (k + 1) (p + c.chars.length + 1) cs

/-- The column is stored with these characters, if it is written. -/
def Stored (v : Sds) (mvals : Nat) (r : Parsed) (k : Nat) (body : Sds) : Prop :=
  ∀ d, (createRow v mvals r.types r.cofsts)[k - 1]? = some d → d.text v = some body

/-- The TEXTs come out of the row as they are. -/
def Texts (v : Sds) (mvals : Nat) (r : Parsed) : Nat → List Cell → Prop
  | _, [] => True
  | k, c :: cs =>
      (c.text = true → if k = 0 then r.pk = some (.given c.s) else Stored v mvals r k c.s) ∧
        Texts v mvals r (k + 1) cs

/-- What is no TEXT is made of digits and bars. -/
def Cell.Plain (c : Cell) : Prop := c.text = false → ∀ d ∈ c.s, Literal.word d = true

/-! ## Cells in the text -/

variable {q : Request} {v w : Sds} {p k m : Nat} {c : Cell} {cs : List Cell} {s : Parsed}

theorem get_at {x : Sds} (h : v.drop p = x ++ w) (i : Nat) : v[p + i]? = (x ++ w)[i]? := by
  rw [← h, List.getElem?_drop]

theorem skipFrom_at {e : Char} {r : Sds} (h : v.drop p = e :: r) (he : isBlank e = false) :
    skipFrom v p = p := by
  have := skipFrom_blanks (b := []) (by simpa using h) (by simp) he
  simpa using this

/-- `REV_SKIP_SPACES` stays in a text whose first character is no blank. -/
theorem revSkipFrom_in {x : Sds} {e : Char} {r : Sds} (h : v.drop p = x ++ w) (hx : x = e :: r)
    (he : isBlank e = false) : ∀ {i : Nat}, i < x.length →
      revSkipFrom v (p + i) = p + revSkipFrom x i ∧ revSkipFrom x i ≤ i
  | 0, _ => by
      have hv : v[p]? = some e := by
        have := get_at h 0
        rwa [hx] at this
      exact ⟨by rw [Nat.add_zero, revSkipFrom_stop hv he]; rfl, Nat.le_refl _⟩
  | i + 1, hi => by
      have hget : v[p + i + 1]? = x[i + 1]? := by
        have := get_at h (i + 1)
        rwa [List.getElem?_append_left hi] at this
      obtain ⟨ih, hle⟩ := revSkipFrom_in h hx he (Nat.lt_of_succ_lt hi)
      rw [← Nat.add_assoc, revSkipFrom, revSkipFrom, hget]
      split
      · exact ⟨ih, Nat.le_succ_of_le hle⟩
      · exact ⟨rfl, Nat.le_refl _⟩

theorem revSkipFrom_last {x : Sds} {e : Char} (h : v.drop p = x ++ w) (he : x.getLast? = some e)
    (hb : isBlank e = false) : revSkipFrom v (p + x.length - 1) = p + x.length - 1 := by
  have hne : x ≠ [] := by
    rintro rfl
    cases he
  have hlen := List.length_pos_of_ne_nil hne
  have hv : v[p + x.length - 1]? = some e := by
    have := get_at h (x.length - 1)
    rw [List.getElem?_append_left (by omega), ← List.getLast?_eq_getElem?, he] at this
    rwa [Nat.add_sub_assoc hlen]
  exact revSkipFrom_stop hv hb

theorem Cell.chars_text (ht : c.text = true) (hs : c.s ≠ []) :
    c.chars = '\'' :: (c.s ++ ['\'']) := if_pos ⟨ht, hs⟩

theorem Cell.chars_plain (ht : c.text = false) : c.chars = c.s := by
  unfold chars
  rw [if_neg (by simp [ht])]

theorem Cell.chars_empty (hs : c.s = []) : c.chars = [] := by
  unfold chars
  rw [if_neg (by simp [hs]), hs]

/-- A cell begins and ends with no blank. -/
theorem Cell.Plain.edges (h : c.Plain) (hs : c.s ≠ []) : (∃ e r, c.chars = e :: r ∧
    isBlank e = false) ∧ ∃ e, c.chars.getLast? = some e ∧ isBlank e = false := by
  cases ht : c.text with
  | true =>
      rw [c.chars_text ht hs]
      exact ⟨⟨'\'', _, rfl, by decide⟩, '\'', by simp [List.getLast?_cons], by decide⟩
  | false =>
      rw [c.chars_plain ht]
      obtain ⟨e, r, hr⟩ := List.exists_cons_of_ne_nil hs
      refine ⟨⟨e, r, hr, (closing_word (h ht e (by rw [hr]; exact List.mem_cons_self))).2.2⟩,
        c.s.getLast hs, List.getLast?_eq_some_getLast hs, ?_⟩
      exact (closing_word (h ht _ (List.getLast_mem hs))).2.2

theorem Cell.Plain.quiet (h : c.Plain) (ht : c.text = false) : Quiet c.chars := by
  rw [c.chars_plain ht]
  intro d hd
  have := closing_word (h ht d hd)
  exact ⟨this.1, this.2.1⟩

/-- What may stand behind a cell. -/
structure Stop (w : Sds) (e : Char) (r : Sds) : Prop where
  eq : w = e :: r
  blank : isBlank e = false
  quote : e ≠ '\''

theorem stop_comma (r : Sds) : Stop (',' :: r) ',' r := ⟨rfl, by decide, by decide⟩

theorem stop_paren : Stop [')'] ')' [] := ⟨rfl, by decide, by decide⟩

section At

variable {e : Char} {r : Sds} {t : CType}

/-- No blank stands where a cell begins. -/
theorem skip_cell (h : q.vals.drop p = c.chars ++ w) (hp : c.Plain) (hw : Stop w e r) :
    skipFrom q.vals p = p := by
  by_cases hs : c.s = []
  · rw [c.chars_empty hs, List.nil_append, hw.eq] at h
    exact skipFrom_at h hw.blank
  · obtain ⟨⟨a, b, hab, hb⟩, -⟩ := hp.edges hs
    rw [hab, List.cons_append] at h
    exact skipFrom_at h hb

theorem next_cell (h : q.vals.drop p = c.chars ++ w) (hp : c.Plain) (hw : Stop w e r) :
    getNextInsertValueToken q.vals p = (valueEnd (c.chars ++ w)).map (p + ·) := by
  rw [getNextInsertValueToken, skip_cell h hp hw, h]
  rfl

/-- A TEXT that is not empty is accepted as far as it reaches. -/
theorem validate_cell (h : q.vals.drop p = c.chars ++ w) (hp : c.Plain) (hw : Stop w e r)
    (ht : t = .text ↔ c.text = true) (hs : c.text = true → c.s ≠ []) :
    validateParsedInsertVal q.vals t p (p + c.chars.length) = true := by
  unfold validateParsedInsertVal
  split
  · rename_i htt
    have htx := ht.1 htt
    have hne := hs htx
    obtain ⟨-, a, ha, hb⟩ := hp.edges hne
    have hlast : a = '\'' := by
      rw [c.chars_text htx hne] at ha
      simpa [List.getLast?_cons] using ha.symm
    have h0 : q.vals[p]? = some '\'' := by
      have := get_at h 0
      rwa [c.chars_text htx hne] at this
    have h1 : q.vals[p + c.chars.length - 1]? = some '\'' := by
      have hlen : 0 < c.chars.length := by
        rw [c.chars_text htx hne]
        simp
      have := get_at h (c.chars.length - 1)
      rw [List.getElem?_append_left (by omega), ← List.getLast?_eq_getElem?, ha, hlast] at this
      rwa [Nat.add_sub_assoc hlen]
    rw [skip_cell h hp hw, revSkipFrom_last h ha hb, h0, h1]
    rfl
  · rfl

/-- An empty TEXT is never accepted. -/
theorem validate_empty (h : q.vals.drop p = c.chars ++ w) (hp : c.Plain) (hw : Stop w e r)
    (hs : c.s = []) (i : Nat) : validateParsedInsertVal q.vals .text p i = false := by
  have h0 : q.vals[p]? = some e := by
    have := get_at h 0
    rwa [c.chars_empty hs, hw.eq] at this
  rw [validateParsedInsertVal, if_pos rfl, skip_cell h hp hw, h0]
  simp [hw.quote]

end At

/-! ## One round -/

/-- The state in front of the cells from number `k` on, the first of which stands at `p`. -/
structure Front (q : Request) (s : Parsed) (k p : Nat) (cs : List Cell) : Prop where
  vals : q.vals.drop p = writeOutputRow cs ++ [')']
  pcols : q.pcols = 0
  ncols : q.ncols = k + cs.length
  lncols : q.lncols = k + cs.length
  types : ∀ i c, cs[i]? = some c → ∃ t, s.types[k + i]? = some t ∧ (t = .text ↔ c.text = true)
  full : s.types.length = k + cs.length
  cofsts : s.cofsts.length = k + cs.length
  pk : k ≠ 0 → s.pk.isSome = true
  plain : ∀ c ∈ cs, c.Plain
  before : 0 < p ∧ ∃ e, q.vals[p - 1]? = some e ∧ isBlank e = false
  key : k = 0 → ∀ c, cs.head? = some c → c.text = false → c.s ≠ []

namespace Front

theorem cmatch (h : Front q s k p (c :: cs)) : cmatchOf q s k = .ok (k : Int) := by
  rw [cmatchOf, if_neg (by simp [h.pcols])]

/-- The type of the column. -/
theorem column (h : Front q s k p (c :: cs)) (nextc : Nat) : ∃ t, s.types[k]? = some t ∧
    (t = .text ↔ c.text = true) ∧ columnAt q s k nextc = .ok (some (s, k, t)) := by
  obtain ⟨t, ht, htx⟩ := h.types 0 c rfl
  rw [Nat.add_zero] at ht
  have hn := h.ncols
  rw [List.length_cons] at hn
  have h1 : ¬ ((k : Int) ≥ q.ncols ∨ (k : Int) < -1) := by omega
  have h2 : ¬ (k : Int) = -1 := by omega
  refine ⟨t, ht, htx, ?_⟩
  simp only [columnAt, h.cmatch, bind, Except.bind, pure, Except.pure, h1, h2, if_false,
    Int.toNat_natCast, ht]

theorem inner {c' : Cell} (h : Front q s k p (c :: c' :: cs)) :
    q.vals.drop p = c.chars ++ ',' :: (writeOutputRow (c' :: cs) ++ [')']) := by
  have := h.vals
  rw [writeOutputRow, if_neg (by simp)] at this
  simpa using this

theorem last (h : Front q s k p [c]) : q.vals.drop p = c.chars ++ [')'] := by
  have := h.vals
  rw [writeOutputRow, if_pos rfl] at this
  simpa using this

/-- The state in front of the next cell. -/
theorem next {c' : Cell} (h : Front q s k p (c :: c' :: cs)) (s' : Parsed) (ht : s'.types = s.types)
    (hc : s'.cofsts.length = s.cofsts.length) (hk : s'.pk.isSome = true) :
    Front q s' (k + 1) (p + c.chars.length + 1) (c' :: cs) where
  vals := by
    rw [← List.drop_drop, ← List.drop_drop, h.inner]
    simp
  pcols := h.pcols
  ncols := by
    have := h.ncols
    simp only [List.length_cons] at this ⊢
    omega
  lncols := by
    have := h.lncols
    simp only [List.length_cons] at this ⊢
    omega
  types := by
    intro i d hd
    obtain ⟨t, h1, h2⟩ := h.types (i + 1) d hd
    refine ⟨t, ?_, h2⟩
    rw [ht, Nat.add_assoc, Nat.add_comm 1 i]
    exact h1
  full := by
    have := h.full
    simp only [List.length_cons] at this ⊢
    rw [ht]
    omega
  cofsts := by
    have := h.cofsts
    simp only [List.length_cons] at this ⊢
    omega
  pk := fun _ => hk
  plain := fun d hd => h.plain d (List.mem_cons_of_mem c hd)
  before := by
    have := get_at h.inner c.chars.length
    rw [List.getElem?_append_right (Nat.le_refl _), Nat.sub_self] at this
    exact ⟨Nat.succ_pos _, ',', this, by decide⟩
  key := fun h0 => absurd h0 (Nat.succ_ne_zero k)

theorem skip (h : Front q s k p (c :: cs)) : skipFrom q.vals p = p := by
  have hp := h.plain c List.mem_cons_self
  cases cs with
  | nil => exact skip_cell h.last hp stop_paren
  | cons c' cs => exact skip_cell h.inner hp (stop_comma _)

/-- The column is passed when its extent is written. -/
theorem settled (h : Front q s k p (c :: cs)) {s' : Parsed} (ht : s'.types = s.types) (m nx : Nat) :
    Settled q (s'.extent m k p nx) (k + 1) k := by
  refine ⟨?_, fun hp => absurd h.pcols hp, fun _ => Nat.lt_succ_self k⟩
  show k < s'.types.length
  rw [ht, h.full]
  simp

/-- Where the last value ends. -/
theorem lastEnd (h : Front q s k p [c]) : lastEnd q.vals = p + c.chars.length := by
  obtain ⟨hpos, e, he, hb⟩ := h.before
  have hlen : q.vals.length = p + c.chars.length + 1 := by
    have := congrArg List.length h.last
    rw [List.length_drop, List.length_append, List.length_singleton] at this
    omega
  have hparen : q.vals[p + c.chars.length]? = some ')' := by
    have := get_at h.last c.chars.length
    rwa [List.getElem?_append_right (Nat.le_refl _), Nat.sub_self] at this
  have hrev : revSkipFrom q.vals (p + c.chars.length) = p + c.chars.length :=
    revSkipFrom_stop hparen (by decide)
  have hlast : revSkipFrom q.vals (p + c.chars.length - 1) = p + c.chars.length - 1 := by
    by_cases hs : c.s = []
    · rw [c.chars_empty hs, List.length_nil, Nat.add_zero]
      exact revSkipFrom_stop he hb
    · obtain ⟨-, a, ha, hab⟩ := (h.plain c List.mem_cons_self).edges hs
      exact revSkipFrom_last h.last ha hab
  rw [Text.lastEnd, hlen, Nat.add_sub_cancel]
  simp only [hrev, hparen, if_true, hlast]
  omega

end Front

/-! ## Rows that are kept -/

section Kept

variable {e : Char} {r : Sds} {t : CType}

/-- The key, when more values follow it. -/
theorem parsePk_cell (h : q.vals.drop p = c.chars ++ w) (hp : c.Plain) (hw : Stop w e r)
    (ht : t = .text ↔ c.text = true) (hs : c.s ≠ []) :
    parsePk q s t p (p + c.chars.length) = .ok (some (s.keyed (.given c.s))) := by
  obtain ⟨-, a, ha, hb⟩ := hp.edges hs
  have hlen : 0 < c.s.length := List.length_pos_of_ne_nil hs
  simp only [parsePk, skip_cell h hp hw, revSkipFrom_last h ha hb]
  cases htx : c.text with
  | true =>
      have hc := c.chars_text htx hs
      have hval := validate_cell h hp hw ht fun _ => hs
      rw [ht.2 htx, validateParsedInsertVal, if_pos rfl, skip_cell h hp hw, revSkipFrom_last h ha hb,
        Bool.and_eq_true, beq_iff_eq, beq_iff_eq] at hval
      have hn : c.chars.length = c.s.length + 2 := by
        rw [hc]
        simp
      have hpl : max 0 (((p + c.chars.length - 1 : Nat) : Int) - 1 - ((p : Int) + 1) + 1) =
          (c.s.length : Int) := by omega
      have hd : q.vals.drop (p + 1) = c.s ++ ('\'' :: w) := by
        rw [← List.drop_drop, h, hc]
        simp
      rw [if_pos (ht.2 htx), if_pos hval, hpl, assignPk, if_neg (by omega), if_neg (by omega), hd]
      simp [Parsed.keyed]
  | false =>
      have hc := c.chars_plain htx
      have hn : ¬ t = .text := fun he => by
        rw [ht.1 he] at htx
        cases htx
      have hpl : max 0 (((p + c.chars.length - 1 : Nat) : Int) - (p : Int) + 1) =
          (c.s.length : Int) := by
        rw [hc]
        omega
      rw [if_neg hn, hpl, assignPk, if_neg (by omega), if_neg (by omega), h, hc]
      simp [Parsed.keyed]

theorem takePk_cell (h : q.vals.drop p = c.chars ++ w) (hp : c.Plain) (hw : Stop w e r)
    (ht : t = .text ↔ c.text = true) (hs : k = 0 → c.s ≠ []) (hk : k ≠ 0 → s.pk.isSome = true) :
    ∃ s', takePk q s k t p (p + c.chars.length) = .ok (some s') ∧ s'.types = s.types ∧
      s'.cofsts = s.cofsts ∧ s'.pk.isSome = true ∧
      s'.pk = if k = 0 then some (.given c.s) else s.pk := by
  unfold takePk
  by_cases h0 : k = 0
  · rw [if_pos h0, parsePk_cell h hp hw ht (hs h0), if_pos h0]
    exact ⟨_, rfl, rfl, rfl, rfl, rfl⟩
  · rw [if_neg h0, if_neg h0]
    exact ⟨s, rfl, rfl, rfl, hk h0, rfl⟩

/-- The next comma is the one behind the cell. -/
theorem nextc_inner {c' : Cell} (h : Front q s k p (c :: c' :: cs)) (ht : t = .text ↔ c.text = true)
    (hc : c.text = true → c.s ≠ [] ∧ Flat c.chars) :
    parseInsertValListNextc q.vals p t = some (p + c.chars.length) := by
  have hp := h.plain c List.mem_cons_self
  have hflat : Flat c.chars := by
    cases htx : c.text with
    | true => exact (hc htx).2
    | false => exact (hp.quiet htx).flat
  have hw := stop_comma (writeOutputRow (c' :: cs) ++ [')'])
  rw [parseInsertValListNextc, next_cell h.inner hp hw, hflat.valueEnd, valueEnd_comma]
  simp only [Option.map_some, Nat.add_zero, Option.filter_some]
  rw [validate_cell h.inner hp hw ht fun htx => (hc htx).1, if_pos rfl]

/-- Where a comma stands that the scan stops at in the last cell. -/
theorem comma_in {x : Sds} {a : Char} {b : Sds} {j : Nat} (hx : x = a :: b) (ha : a ≠ ',')
    (hj : valueEnd (x ++ [')']) = some j) : 0 < j ∧ j < x.length := by
  have hchr := valueEnd_char _ (Nat.le_refl _) hj
  constructor
  · rcases Nat.eq_zero_or_pos j with rfl | hpos
    · rw [hx] at hchr
      exact absurd (Option.some.inj hchr) ha
    · exact hpos
  · by_contra hn
    rw [List.getElem?_append_right (by omega)] at hchr
    obtain ⟨hlt, hget⟩ := List.getElem?_eq_some_iff.1 hchr
    rw [List.length_singleton] at hlt
    have hz : j - x.length = 0 := by omega
    simp [hz] at hget

/-- Whether the last TEXT is accepted up to a comma. -/
theorem validate_last (h : Front q s k p [c]) (htx : c.text = true) (hs : c.s ≠ []) {j : Nat}
    (hj : valueEnd (c.chars ++ [')']) = some j) :
    validateParsedInsertVal q.vals .text p (p + j) = true ↔
      c.chars[revSkipFrom c.chars (j - 1)]? = some '\'' := by
  have hp := h.plain c List.mem_cons_self
  have hc := c.chars_text htx hs
  obtain ⟨hpos, hlt⟩ := comma_in hc (by decide) hj
  obtain ⟨hrev, hle⟩ := revSkipFrom_in h.last hc (by decide) (show j - 1 < c.chars.length by omega)
  have hidx : p + j - 1 = p + (j - 1) := by omega
  have h0 : q.vals[p]? = some '\'' := by
    have := get_at h.last 0
    rwa [hc] at this
  rw [validateParsedInsertVal, if_pos rfl, skip_cell h.last hp stop_paren, h0, hidx, hrev,
    get_at h.last, List.getElem?_append_left (by omega)]
  simp

theorem nextc_last (h : Front q s k p [c]) (ht : t = .text ↔ c.text = true)
    (hc : c.text = true → c.s ≠ [] ∧ Last c.chars) : parseInsertValListNextc q.vals p t = none := by
  have hp := h.plain c List.mem_cons_self
  rw [parseInsertValListNextc, next_cell h.last hp stop_paren]
  cases htx : c.text with
  | false =>
      have hq : Quiet (c.chars ++ [')']) := by
        intro d hd
        rcases List.mem_append.1 hd with hd | hd
        · exact hp.quiet htx d hd
        · rw [List.mem_singleton.1 hd]
          decide
      rw [hq.valueEnd]
      rfl
  | true =>
      obtain ⟨hs, hl⟩ := hc htx
      cases hv : valueEnd (c.chars ++ [')']) with
      | none => rfl
      | some j =>
          have hval : validateParsedInsertVal q.vals t p (p + j) = false := by
            rw [ht.2 htx, ← Bool.not_eq_true, validate_last h htx hs hv]
            exact hl j hv
          simp [hval]

/-- The last value. -/
theorem lastValue_cell (h : Front q s k p [c]) (ht : t = .text ↔ c.text = true)
    (htk : s.types[k]? = some t) (hs : c.text = true → c.s ≠ []) (hk : k = 0 → c.text = false) :
    ∃ s', lastValue q m k p s = .ok (some s') ∧ s'.types = s.types ∧
      s'.cofsts = s.cofsts.set k ((p : Int) - m, ((p + c.chars.length : Nat) : Int) - m) ∧
      s'.pk = if k = 0 then some (.given c.s) else s.pk := by
  have hp := h.plain c List.mem_cons_self
  have hl := h.lncols
  rw [List.length_singleton] at hl
  have htotal : k + 1 = q.total := by
    rw [Request.total, if_neg (by simp [h.pcols])]
    omega
  obtain ⟨s', hpk, h1, h2, h3⟩ : ∃ s', lastPk q (s.extent m k p (p + c.chars.length)) k p
      (p + c.chars.length) = .ok (some s') ∧ s'.types = s.types ∧
      s'.cofsts = s.cofsts.set k ((p : Int) - m, ((p + c.chars.length : Nat) : Int) - m) ∧
      s'.pk = if k = 0 then some (.given c.s) else s.pk := by
    unfold lastPk
    by_cases h0 : k = 0
    · have htx := hk h0
      have hne := h.key h0 c rfl htx
      have hlen := List.length_pos_of_ne_nil hne
      have hc := c.chars_plain htx
      have hpl : ((p + c.chars.length : Nat) : Int) - (p : Int) = (c.s.length : Int) := by
        rw [hc]
        omega
      have hd := h.last
      rw [hc] at hd
      rw [if_pos h0, hpl, assignPk, if_neg (by omega), if_neg (by omega), if_pos h0, hd]
      exact ⟨_, rfl, rfl, rfl, by simp⟩
    · have hsome := h.pk h0
      have hn : ¬ (s.extent m k p (p + c.chars.length)).pk = none := by
        intro hn
        rw [show s.pk = none from hn] at hsome
        cases hsome
      rw [if_neg h0, if_neg hn, if_neg h0]
      exact ⟨_, rfl, rfl, rfl, rfl⟩
  refine ⟨s', ?_, h1, h2, h3⟩
  unfold lastValue
  simp only [h.cmatch, bind, Except.bind, pure, Except.pure, Int.toNat_natCast, htk, h.lastEnd,
    validate_cell h.last hp stop_paren ht hs, if_true, hpk, Option.filter_some, htotal, decide_true]

/-- A row that is kept is read with each column at its place. -/
theorem loop_kept : ∀ {cs : List Cell} {c : Cell} {n k p : Nat} {s : Parsed},
    Front q s k p (c :: cs) → cs.length < n → Kept (c :: cs) →
    (k = 0 → cs = [] → c.text = false) →
      ∃ r, parseLoop q m n k p p s = .ok (some r) ∧ Placed m r k p (c :: cs) ∧
        r.types = s.types ∧ r.cofsts.length = s.cofsts.length ∧
        r.pk = if k = 0 then some (.given c.s) else s.pk
  | _, _, 0, _, _, _, _, hn, _, _ => absurd hn (Nat.not_lt_zero _)
  | [], c, n + 1, k, p, s, h, _, hk, hsingle => by
      obtain ⟨t, htk, ht, hcol⟩ := h.column p
      have hc : c.text = true → c.s ≠ [] ∧ Last c.chars := by
        have := hk.1
        rwa [if_pos rfl] at this
      obtain ⟨r, hr, h1, h2, h3⟩ := lastValue_cell (m := m) h ht htk (fun htx => (hc htx).1)
        fun h0 => hsingle h0 rfl
      have hlt : k < s.cofsts.length := by
        have := h.cofsts
        rw [List.length_singleton] at this
        omega
      refine ⟨r, ?_, ⟨?_, trivial⟩, h1, by rw [h2, List.length_set], h3⟩
      · rw [parseLoop_last hcol (nextc_last h ht hc), hr]
      · rw [h2, List.getElem?_set_self hlt]
        rfl
  | c' :: cs, c, n + 1, k, p, s, h, hn, hk, hsingle => by
      obtain ⟨t, htk, ht, hcol⟩ := h.column p
      have hp := h.plain c List.mem_cons_self
      have hc : c.text = true → c.s ≠ [] ∧ Flat c.chars := by
        have := hk.1
        rwa [if_neg (by simp)] at this
      have hw := stop_comma (writeOutputRow (c' :: cs) ++ [')'])
      have hne : k = 0 → c.s ≠ [] := by
        intro h0
        cases htx : c.text with
        | true => exact (hc htx).1
        | false => exact h.key h0 c rfl htx
      obtain ⟨s₂, htake, h1, h2, h3, h4⟩ := takePk_cell h.inner hp hw ht hne h.pk
      have hfront := h.next (s₂.extent m k p (p + c.chars.length)) h1
        (by rw [Parsed.extent, List.length_set, h2]) h3
      obtain ⟨r, hr, hplaced, hty, hco, hpk⟩ := loop_kept (n := n) hfront (by simpa using hn) hk.2
        fun h0 => absurd h0 (Nat.succ_ne_zero k)
      have hlt : k < s.cofsts.length := by
        have := h.cofsts
        simp only [List.length_cons] at this
        omega
      obtain ⟨hkeep, -, -⟩ := parseLoop_keeps hr (h.settled h1 m _)
      refine ⟨r, ?_, ⟨?_, hplaced⟩, hty.trans h1, ?_, ?_⟩
      · rw [parseLoop_next hcol (nextc_inner h ht hc) htake, hfront.skip]
        exact hr
      · rw [hkeep]
        show (s₂.cofsts.set k _)[k]? = _
        rw [h2, List.getElem?_set_self hlt]
        rfl
      · rw [hco, Parsed.extent, List.length_set, h2]
      · rw [hpk, if_neg (Nat.succ_ne_zero k)]
        exact h4

end Kept

/-! ## The columns of a row that is kept -/

theorem length_extents : ∀ {cs : List Cell} {p : Nat}, (extents m p cs).length = cs.length
  | [], _ => rfl
  | _ :: _, _ => congrArg (· + 1) length_extents

theorem placed_extents {r : Parsed} : ∀ {cs : List Cell} {k p : Nat}, Placed m r k p cs →
    r.cofsts.length = k + cs.length → r.cofsts.drop k = extents m p cs
  | [], k, p, _, hlen => List.drop_eq_nil_of_le (Nat.le_of_eq hlen)
  | c :: cs, k, p, h, hlen => by
      have hlt : k < r.cofsts.length := by
        rw [hlen, List.length_cons]
        omega
      have hget : r.cofsts[k] = c.extent m p := by
        have := h.1
        rwa [List.getElem?_eq_getElem hlt, Option.some.injEq] at this
      rw [List.drop_eq_getElem_cons hlt, hget, extents,
        placed_extents h.2 (by rw [hlen, List.length_cons]; omega)]

/-- No column of these is left empty at the end. -/
theorem filledCols_extents : ∀ {cs : List Cell} {p : Nat}, m ≤ p →
    filledCols (extents m p cs) = cs.length
  | [], _, _ => rfl
  | c :: cs, p, hm => by
      have hle : filledCols (extents m p (c :: cs)) ≤ (c :: cs).length := by
        rw [filledCols, length_extents]
        exact Nat.sub_le _ _
      obtain ⟨x, hx⟩ : ∃ x, (extents m p (c :: cs))[cs.length]? = some x := by
        have hlt : cs.length < (extents m p (c :: cs)).length := by
          rw [length_extents, List.length_cons]
          exact Nat.lt_succ_self _
        exact ⟨_, List.getElem?_eq_getElem hlt⟩
      have hne : ∀ {cs : List Cell} {p : Nat}, m ≤ p → ∀ x ∈ extents m p cs, x.1 ≠ -1 := by
        intro cs
        induction cs with
        | nil => exact fun _ x hx => absurd hx List.not_mem_nil
        | cons c cs ih =>
            intro p hm x hx
            rcases List.mem_cons.1 hx with rfl | hx
            · show (p : Int) - m ≠ -1
              omega
            · exact ih (by omega) x hx
      have := filled_of hx (hne hm x (List.mem_of_getElem? hx))
      rw [List.length_cons] at hle ⊢
      omega

theorem createRow_placed {r : Parsed} {types : List CType} (hp : Placed m r 0 p cs) (hm : m ≤ p)
    (ht : r.types = types) (hlen : r.cofsts.length = cs.length) (htl : types.length = cs.length) :
    createRow v m r.types r.cofsts =
      (List.zipWith (createCol v m) types (extents m p cs)).tail := by
  have hco : r.cofsts = extents m p cs := placed_extents hp (by rw [hlen, Nat.zero_add])
  have hzip : (types.zip (extents m p cs)).length ≤ cs.length := by
    rw [List.length_zip, length_extents, htl, Nat.min_self]
  rw [createRow, ht, hco, filledCols_extents hm, List.take_of_length_le hzip, List.map_tail,
    List.map_zip_eq_zipWith]
  rfl

/-- What `createRow` takes of a cell at `p`. -/
theorem createCol_cell {e : Char} {r : Sds} {t : CType} (h : v.drop p = c.chars ++ w) (hp : c.Plain)
    (hw : Stop w e r) (hm : m ≤ p) (ht : t = .text ↔ c.text = true) (hs : c.text = true → c.s ≠ []) :
    ∃ strs z, createCol v m t (c.extent m p) = ⟨false, strs, c.s.length⟩ ∧
      v.drop strs = c.s ++ z ∧ (c.text = false → z = w) := by
  have hskip : skipFrom v p = p := skip_cell (q := ⟨v, 0, 0, 0, fun _ => .err⟩) h hp hw
  have hne : ¬ ((p : Int) - m) = -1 := by omega
  have h1 : ((m : Int) + ((p : Int) - m)).toNat = p := by omega
  have h2 : ((m : Int) + (((p + c.chars.length : Nat) : Int) - m)).toNat = p + c.chars.length := by
    omega
  have hend : v[p + c.chars.length]? = some e := by
    have := get_at h c.chars.length
    rw [List.getElem?_append_right (Nat.le_refl _), Nat.sub_self, hw.eq] at this
    exact this
  cases htx : c.text with
  | true =>
      have hc := c.chars_text htx (hs htx)
      have hlen : c.chars.length = c.s.length + 2 := by
        rw [hc]
        simp
      refine ⟨p + 1, '\'' :: w, ?_, ?_, fun hf => by cases hf⟩
      · simp only [createCol, Cell.extent, hne, if_false, h1, h2, hskip, hend, Option.any_some,
          hw.blank, Bool.false_eq_true, ht.2 htx, if_true]
        congr 1
        omega
      · rw [← List.drop_drop, h, hc]
        simp
  | false =>
      have hc := c.chars_plain htx
      have hn : ¬ t = .text := fun he => by
        rw [ht.1 he] at htx
        cases htx
      refine ⟨p, w, ?_, by rw [h, hc], fun _ => rfl⟩
      rw [hc] at h2 hend
      simp only [createCol, Cell.extent, hc, hne, if_false, h1, h2, hskip, hend, Option.any_some,
        hw.blank, Bool.false_eq_true, hn]
      congr 1
      omega

end AlchemyDB.Text
