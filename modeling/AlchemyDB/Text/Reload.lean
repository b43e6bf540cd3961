/-
# What is read of a row that was put out

A row that comes out of `parseRowVals` with each TEXT as it was has been passed over as
`Kept` says: a comma that the scan stops at too early or too late gives a TEXT, or the
key, another length, or the row another number of values.
-/
import Mathlib.Data.List.Forall2
import AlchemyDB.Text.Dump

namespace AlchemyDB.Text

open Catalog

variable {q : Request} {v w : Sds} {p k m : Nat} {c : Cell} {cs : List Cell} {s : Parsed}

/-! ## Rows that are read -/

section Read

variable {e : Char} {r : Sds} {t : CType} {n nx : Nat} {out : Parsed}

/-- `REV_SKIP_SPACES` passes over blanks only. -/
theorem revSkipFrom_between : ∀ {i : Nat}, revSkipFrom v i ≤ i ∧
    ∀ j, revSkipFrom v i < j → j ≤ i → (v[j]?).all isBlank = true
  | 0 => ⟨Nat.le_refl 0, fun j h1 h2 => absurd h1 (by omega)⟩
  | i + 1 => by
      obtain ⟨ih, hb⟩ := revSkipFrom_between (i := i)
      rw [revSkipFrom]
      split
      · rename_i hc
        refine ⟨Nat.le_succ_of_le ih, fun j h1 h2 => ?_⟩
        rcases Nat.eq_or_lt_of_le h2 with rfl | h2
        · exact hc
        · exact hb j h1 (Nat.lt_succ_iff.1 h2)
      · exact ⟨Nat.le_refl _, fun j h1 h2 => absurd h1 (by omega)⟩

/-- A TEXT that is stored as it is reaches as far as it was read. -/
theorem stored_extent (hc : c.chars = '\'' :: (c.s ++ ['\'']))
    (hskip : skipFrom v p = p) (hm : m ≤ p) (hnx : v[nx]? = some ',') (hk : k ≠ 0)
    (hco : out.cofsts[k]? = some ((p : Int) - m, (nx : Int) - m))
    (ht : out.types[k]? = some .text) (hs : Stored v m out k c.s) : nx = p + c.chars.length := by
  have htext := hs _ (createRow_get v m hk hco (show ((p : Int) - m) ≠ -1 by omega) ht)
  have hcol : createCol v m .text ((p : Int) - m, (nx : Int) - m) =
      ⟨false, p + 1, (nx : Int) - p - 2⟩ := by
    have h1 : ((m : Int) + ((p : Int) - m)).toNat = p := by omega
    have h2 : ((m : Int) + ((nx : Int) - m)).toNat = nx := by omega
    simp only [createCol, show ¬ ((p : Int) - m) = -1 by omega, if_false, h1, h2, hskip, hnx,
      Option.any_some, show isBlank ',' = false from rfl, Bool.false_eq_true, if_true]
    congr 1
    omega
  rw [hcol, Crd.text] at htext
  split at htext
  · cases htext
  · rename_i hneg
    have hlen := congrArg List.length (Option.some.inj htext)
    obtain ⟨hlt, -⟩ := List.getElem?_eq_some_iff.1 hnx
    rw [List.length_take, List.length_drop] at hlen
    rw [hc]
    simp only [List.length_cons, List.length_append, List.length_nil]
    simp only at hneg hlen
    omega

/-- The key that is taken from a TEXT reaches as far as it was read. -/
theorem key_extent (h : q.vals.drop p = c.chars ++ ',' :: r)
    (hc : c.chars = '\'' :: (c.s ++ ['\''])) (hskip : skipFrom q.vals p = p)
    (hnx : q.vals[nx]? = some ',') (hnum : (s.types.head?).any CType.isNum = false)
    (hpk : parsePk q s .text p nx = .ok (some out)) (hout : out.pk = some (.given c.s)) :
    nx = p + c.chars.length := by
  have hcomma : q.vals[p + c.chars.length]? = some ',' := by
    have := get_at h c.chars.length
    rwa [List.getElem?_append_right (Nat.le_refl _), Nat.sub_self] at this
  have hlen : c.chars.length = c.s.length + 2 := by
    rw [hc]
    simp
  simp only [parsePk, if_true, hskip] at hpk
  split at hpk
  · rename_i hq
    obtain ⟨hle, hblank⟩ := revSkipFrom_between (v := q.vals) (i := nx - 1)
    generalize hce : revSkipFrom q.vals (nx - 1) = cend at hpk hq hle hblank
    obtain ⟨hlt, -⟩ := List.getElem?_eq_some_iff.1 hq.2
    have hcend : cend = p + 1 + c.s.length := by
      unfold assignPk at hpk
      split at hpk
      · rw [hnum] at hpk
        cases hpk
      · split at hpk
        · cases hpk
        · cases hpk
          have := congrArg List.length (Key.given.inj (Option.some.inj hout))
          rw [List.length_take, List.length_drop] at this
          omega
    rcases Nat.lt_or_ge (p + c.chars.length) nx with hgt | hge
    · have := hblank (p + c.chars.length) (by omega) (by omega)
      rw [hcomma] at this
      exact absurd this (by decide)
    · obtain ⟨hlt', -⟩ := List.getElem?_eq_some_iff.1 hnx
      rcases Nat.eq_zero_or_pos nx with rfl | hpos
      · omega
      · omega
  · cases hpk

/-- The key as the last value keeps its quotes. -/
theorem lastValue_key (h : Front q s 0 p [c]) (htx : c.text = true) (hs : c.s ≠ [])
    (hl : lastValue q m 0 p s = .ok (some out)) : out.pk ≠ some (.given c.s) := by
  obtain ⟨t, htk, ht, -⟩ := h.column p
  have hp := h.plain c List.mem_cons_self
  have hpl : ((p + c.chars.length : Nat) : Int) - (p : Int) = (c.chars.length : Int) := by omega
  have hlen : c.chars.length = c.s.length + 2 := by
    rw [c.chars_text htx hs]
    simp
  have hd := h.last
  unfold lastValue at hl
  simp only [h.cmatch, bind, Except.bind, pure, Except.pure, Int.toNat_natCast, htk, h.lastEnd,
    validate_cell h.last hp stop_paren ht fun _ => hs, if_true, lastPk, hpl, assignPk,
    show ¬ ((c.chars.length : Nat) : Int) = 0 by omega,
    show ¬ ((c.chars.length : Nat) : Int) < 0 by omega, if_false, Int.toNat_natCast, hd,
    List.take_left, Except.ok.injEq, Option.filter_eq_some_iff] at hl
  intro he
  rw [← Option.some.inj hl.1] at he
  have := congrArg List.length (Key.given.inj (Option.some.inj he))
  omega

theorem nextc_some (h : parseInsertValListNextc q.vals p t = some nx) :
    getNextInsertValueToken q.vals p = some nx ∧ validateParsedInsertVal q.vals t p nx = true :=
  Option.filter_eq_some_iff.1 h

/-- A cell with more behind it is passed over exactly when it comes out as it is. -/
theorem inner_cell {c' : Cell} (h : Front q s k p (c :: c' :: cs)) (hm : m ≤ p)
    (htk : s.types[k]? = some t) (ht : t = .text ↔ c.text = true)
    (hnext : parseInsertValListNextc q.vals p t = some nx) {s₂ : Parsed}
    (htake : takePk q s k t p nx = .ok (some s₂))
    (hr : parseLoop q m n (k + 1) (nx + 1) (skipFrom q.vals (nx + 1)) (s₂.extent m k p nx) =
      .ok (some out))
    (hx : c.text = true → if k = 0 then out.pk = some (.given c.s) else Stored q.vals m out k c.s) :
    nx = p + c.chars.length ∧ (c.text = true → c.s ≠ [] ∧ Flat c.chars) := by
  have hp := h.plain c List.mem_cons_self
  have hw := stop_comma (writeOutputRow (c' :: cs) ++ [')'])
  cases htx : c.text with
  | false =>
      have hinner := nextc_inner h ht fun hc => by
        rw [htx] at hc
        cases hc
      rw [hnext] at hinner
      exact ⟨Option.some.inj hinner, fun hc => by cases hc⟩
  | true =>
      obtain ⟨hnext, hval⟩ := nextc_some hnext
      have htt := ht.2 htx
      have hs : c.s ≠ [] := by
        intro hs
        rw [htt, validate_empty h.inner hp hw hs] at hval
        cases hval
      have hc := c.chars_text htx hs
      have hskip := skip_cell h.inner hp hw
      rw [next_cell h.inner hp hw] at hnext
      obtain ⟨j, hj, rfl⟩ := Option.map_eq_some_iff.1 hnext
      have hnx : q.vals[p + j]? = some ',' := by
        rw [get_at h.inner]
        exact valueEnd_char _ (Nat.le_refl _) hj
      obtain ⟨h1, -, h3, h4, h5⟩ := takePk_some htake
      obtain ⟨hco, hty, hpk⟩ := parseLoop_keeps hr (h.settled h1 m _)
      have hreach : p + j = p + c.chars.length := by
        by_cases h0 : k = 0
        · subst h0
          have hkey := hx htx
          rw [if_pos rfl, hpk rfl (h5 rfl)] at hkey
          rw [takePk, if_pos rfl, htt] at htake
          have hnum : (s.types.head?).any CType.isNum = false := by
            rw [List.head?_eq_getElem?, htk, htt]
            rfl
          exact key_extent h.inner hc hskip hnx hnum htake hkey
        · have hstored := hx htx
          rw [if_neg h0] at hstored
          have hlt : k < s₂.cofsts.length := by
            rw [h3, h.cofsts]
            simp
          have hco' : out.cofsts[k]? = some ((p : Int) - m, ((p + j : Nat) : Int) - m) := by
            rw [hco]
            exact List.getElem?_set_self hlt
          have hty' : out.types[k]? = some .text := by
            rw [hty]
            show s₂.types[k]? = _
            rw [h1, htk, htt]
          exact stored_extent hc hskip hm hnx h0 hco' hty' hstored
      refine ⟨hreach, fun _ => ⟨hs, ?_⟩⟩
      have hjl : j = c.chars.length := by omega
      rw [hjl] at hj
      exact flat_of_valueEnd _ (Nat.le_refl _) hj

/-- A row out of which the TEXTs come as they are is kept. -/
theorem loop_texts : ∀ {cs : List Cell} {c : Cell} {n k p : Nat} {s out : Parsed},
    Front q s k p (c :: cs) → m ≤ p → parseLoop q m n k p p s = .ok (some out) →
      Texts q.vals m out k (c :: cs) → Kept (c :: cs) ∧ (k = 0 → cs = [] → c.text = false)
  | _, _, 0, _, _, _, _, _, _, h, _ => by cases h
  | [], c, n + 1, k, p, s, out, h, _, hr, hx => by
      obtain ⟨t, htk, ht, hcol⟩ := h.column p
      obtain ⟨s₁, d, t', hcol', hrest⟩ := parseLoop_some hr
      rw [hcol] at hcol'
      cases hcol'
      have hp := h.plain c List.mem_cons_self
      rcases hrest with ⟨hnone, hl⟩ | ⟨nx, s₂, -, -, hr⟩
      · have hs : c.text = true → c.s ≠ [] := by
          intro htx hs
          unfold lastValue at hl
          simp only [h.cmatch, bind, Except.bind, pure, Except.pure, Int.toNat_natCast, htk, ht.2 htx,
            validate_empty h.last hp stop_paren hs, Bool.false_eq_true, if_false] at hl
          cases hl
        refine ⟨⟨fun htx => ⟨hs htx, ?_⟩, trivial⟩, fun h0 _ => ?_⟩
        · rw [if_pos rfl]
          intro j hj hquote
          have hval := (validate_last h htx (hs htx) hj).2 hquote
          rw [parseInsertValListNextc, next_cell h.last hp stop_paren, hj, ht.2 htx] at hnone
          simp [hval] at hnone
        · cases htx : c.text with
          | false => rfl
          | true =>
              subst h0
              have hkey := hx.1 htx
              rw [if_pos rfl] at hkey
              exact absurd hkey (lastValue_key h htx (hs htx) hl)
      · have hcount := parseLoop_count hr
        have hlc := h.lncols
        rw [Request.total, if_neg (by simp [h.pcols]), hlc, List.length_singleton] at hcount
        exact absurd hcount (Nat.lt_irrefl _)
  | c' :: cs, c, n + 1, k, p, s, out, h, hm, hr, hx => by
      obtain ⟨t, htk, ht, hcol⟩ := h.column p
      obtain ⟨s₁, d, t', hcol', hrest⟩ := parseLoop_some hr
      rw [hcol] at hcol'
      cases hcol'
      rcases hrest with ⟨-, hl⟩ | ⟨nx, s₂, hnext, htake, hr⟩
      · obtain ⟨_, _, _, _, _, _, htotal⟩ := lastValue_some hl
        have hlc := h.lncols
        rw [Request.total, if_neg (by simp [h.pcols]), hlc] at htotal
        simp only [List.length_cons] at htotal
        omega
      · obtain ⟨rfl, hc⟩ := inner_cell h hm htk ht hnext htake hr hx.1
        obtain ⟨h1, -, h3, h4, h5⟩ := takePk_some htake
        have hsome : s₂.pk.isSome = true := by
          by_cases h0 : k = 0
          · exact h5 h0
          · rw [h4 h0]
            exact h.pk h0
        have hfront := h.next (s₂.extent m k p (p + c.chars.length)) h1
          (by rw [Parsed.extent, List.length_set, h3]) hsome
        rw [hfront.skip] at hr
        obtain ⟨hkept, -⟩ := loop_texts hfront (by omega) hr hx.2
        exact ⟨⟨fun htx => by rw [if_neg (by simp)]; exact hc htx, hkept⟩, fun _ he => by cases he⟩

/-- A key that is a number is read as it was put out, whatever stands behind it. -/
theorem loop_key : ∀ {cs : List Cell} {n : Nat}, Front q s 0 p (c :: cs) → c.text = false →
    parseLoop q m n 0 p p s = .ok (some out) → out.pk = some (.given c.s)
  | _, 0, _, _, h => by cases h
  | [], n + 1, h, htx, hr => by
      obtain ⟨t, htk, ht, hcol⟩ := h.column p
      have hno : c.text = true → c.s ≠ [] ∧ Last c.chars := fun hc => by
        rw [htx] at hc
        cases hc
      obtain ⟨r, hl, -, -, hpk⟩ := lastValue_cell (m := m) h ht htk (fun hc => (hno hc).1) fun _ => htx
      rw [parseLoop_last hcol (nextc_last h ht hno), hl] at hr
      cases hr
      exact hpk
  | c' :: cs, n + 1, h, htx, hr => by
      obtain ⟨t, htk, ht, hcol⟩ := h.column p
      have hno : c.text = true → c.s ≠ [] ∧ Flat c.chars := fun hc => by
        rw [htx] at hc
        cases hc
      obtain ⟨s₂, htake, h1, -, h3, h4⟩ := takePk_cell h.inner (h.plain c List.mem_cons_self)
        (stop_comma _) ht (fun h0 => h.key h0 c rfl htx) h.pk
      rw [parseLoop_next hcol (nextc_inner h ht hno) htake] at hr
      obtain ⟨-, -, hkeep⟩ := parseLoop_keeps hr (h.settled h1 m _)
      rw [hkeep rfl h3]
      exact h4

end Read

/-! ## The INSERT -/

theorem length_le_output : ∀ cs : List Cell, cs.length ≤ (writeOutputRow cs).length + 1
  | [] => Nat.zero_le _
  | [_] => Nat.succ_le_succ (Nat.zero_le _)
  | c :: c' :: cs => by
      have ih := length_le_output (c' :: cs)
      rw [writeOutputRow, if_neg (by simp), List.length_append]
      simp only [List.length_cons] at ih ⊢
      omega

/-- The types of the columns are those of the cells. -/
def Matches (types : List CType) (cs : List Cell) : Prop :=
  List.Forall₂ (fun t c => t = .text ↔ c.text = true) types cs

theorem Matches.get {types : List CType} (h : Matches types cs) {i : Nat} (hi : cs[i]? = some c) :
    ∃ t, types[i]? = some t ∧ (t = .text ↔ c.text = true) := by
  induction h generalizing i with
  | nil => simp at hi
  | @cons t c types cs ht _ ih =>
      cases i with
      | zero =>
          obtain rfl := Option.some.inj hi
          exact ⟨t, rfl, ht⟩
      | succ i => exact ih hi

theorem front_dumped {types : List CType} (hty : Matches types (c :: cs))
    (hp : ∀ d ∈ c :: cs, d.Plain) (hk : c.text = false → c.s ≠ []) :
    Front (insertOf (c :: cs)) ⟨types, [], List.replicate (c :: cs).length (-1, -1), none⟩ 0 1
      (c :: cs) where
  vals := rfl
  pcols := rfl
  ncols := (Nat.zero_add _).symm
  lncols := (Nat.zero_add _).symm
  types := by
    intro i d hd
    rw [Nat.zero_add]
    exact hty.get hd
  full := by rw [Nat.zero_add, hty.length_eq]
  cofsts := by rw [Nat.zero_add, List.length_replicate]
  pk := fun h => absurd rfl h
  plain := hp
  before := ⟨Nat.one_pos, '(', rfl, by decide⟩
  key := by
    rintro - d hd
    obtain rfl := Option.some.inj hd
    exact hk

/-- The row stands between the parentheses. -/
theorem parseRowVals_dumped {types : List CType} (hty : Matches types (c :: cs))
    (hp : ∀ d ∈ c :: cs, d.Plain) (hk : c.text = false → c.s ≠ []) :
    parseRowVals (insertOf (c :: cs)) types [] =
      (parseLoop (insertOf (c :: cs)) 1 ((dumped (c :: cs)).length + 1) 0 1 1
        ⟨types, [], List.replicate (c :: cs).length (-1, -1), none⟩).map
          (fun o => o.map (1, ·)) := by
  have hfront := front_dumped hty hp hk
  have hskip : skipFrom (dumped (c :: cs)) 1 = 1 := hfront.skip
  have hopen : skipFrom (dumped (c :: cs)) 0 = 0 := skipFrom_at (e := '(') rfl (by decide)
  have hlen : (dumped (c :: cs)).length - 1 = (writeOutputRow (c :: cs)).length + 1 := by
    simp [dumped]
  have hclose : (dumped (c :: cs))[(writeOutputRow (c :: cs)).length + 1]? = some ')' := by
    rw [dumped, List.getElem?_cons_succ, List.getElem?_append_right (Nat.le_refl _), Nat.sub_self]
    rfl
  have hrev : revSkipFrom (dumped (c :: cs)) ((dumped (c :: cs)).length - 1) =
      (writeOutputRow (c :: cs)).length + 1 := by
    rw [hlen]
    exact revSkipFrom_stop hclose (by decide)
  have h0 : (dumped (c :: cs))[0]? = some '(' := rfl
  simp only [parseRowVals, insertOf, hopen, hrev, h0, hclose, true_and, if_true, Nat.zero_add, hskip,
    bind, Except.bind, pure, Except.pure, Except.map]

variable {types : List CType}

theorem loop_dumped (hty : Matches types (c :: cs)) (hp : ∀ d ∈ c :: cs, d.Plain)
    (hk : c.text = false → c.s ≠ []) {m : Nat} {r : Parsed}
    (h : parseRowVals (insertOf (c :: cs)) types [] = .ok (some (m, r))) :
    m = 1 ∧ parseLoop (insertOf (c :: cs)) 1 ((dumped (c :: cs)).length + 1) 0 1 1
      ⟨types, [], List.replicate (c :: cs).length (-1, -1), none⟩ = .ok (some r) := by
  rw [parseRowVals_dumped hty hp hk] at h
  cases hl : parseLoop (insertOf (c :: cs)) 1 ((dumped (c :: cs)).length + 1) 0 1 1
      ⟨types, [], List.replicate (c :: cs).length (-1, -1), none⟩ with
  | error e =>
      rw [hl] at h
      cases h
  | ok o =>
      rw [hl] at h
      cases o with
      | none => cases h
      | some r' =>
          cases h
          exact ⟨rfl, rfl⟩

/-- A row that is kept is read column by column. -/
theorem dumped_kept (hty : Matches types (c :: cs)) (hp : ∀ d ∈ c :: cs, d.Plain)
    (hk : c.text = false → c.s ≠ []) (hkept : Kept (c :: cs)) (hs : cs = [] → c.text = false) :
    ∃ r, parseRowVals (insertOf (c :: cs)) types [] = .ok (some (1, r)) ∧
      Placed 1 r 0 1 (c :: cs) ∧ r.types = types ∧ r.cofsts.length = (c :: cs).length ∧
      r.pk = some (.given c.s) := by
  have hfuel : cs.length < (dumped (c :: cs)).length + 1 := by
    have := length_le_output (c :: cs)
    simp only [dumped, List.length_cons, List.length_append] at this ⊢
    omega
  obtain ⟨r, hr, hplaced, h1, h2, h3⟩ := loop_kept (m := 1) (front_dumped hty hp hk) hfuel hkept
    fun _ => hs
  refine ⟨r, ?_, hplaced, h1, ?_, h3⟩
  · rw [parseRowVals_dumped hty hp hk, hr]
    rfl
  · rw [h2, List.length_replicate]

theorem dumped_key (hty : Matches types (c :: cs)) (hp : ∀ d ∈ c :: cs, d.Plain)
    (hk : c.text = false → c.s ≠ []) (htx : c.text = false) {m : Nat} {r : Parsed}
    (h : parseRowVals (insertOf (c :: cs)) types [] = .ok (some (m, r))) :
    r.pk = some (.given c.s) := by
  obtain ⟨rfl, hl⟩ := loop_dumped hty hp hk h
  exact loop_key (front_dumped hty hp hk) htx hl

/-- A row that is read with its TEXTs is kept. -/
theorem dumped_texts (hty : Matches types (c :: cs)) (hp : ∀ d ∈ c :: cs, d.Plain)
    (hk : c.text = false → c.s ≠ []) {m : Nat} {r : Parsed}
    (h : parseRowVals (insertOf (c :: cs)) types [] = .ok (some (m, r)))
    (hx : Texts (dumped (c :: cs)) m r 0 (c :: cs)) : Kept (c :: cs) ∧ (cs = [] → c.text = false) := by
  obtain ⟨rfl, hl⟩ := loop_dumped hty hp hk h
  obtain ⟨h1, h2⟩ := loop_texts (front_dumped hty hp hk) (Nat.le_refl 1) hl hx
  exact ⟨h1, h2 rfl⟩

end AlchemyDB.Text
