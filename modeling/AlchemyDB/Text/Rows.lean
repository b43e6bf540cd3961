/-
# Rows of an INSERT, value by value

The proof that `parseRowVals` and `createRow` treat a row right if and only if it is
`Clear`.  One value is followed through one round of the loop; what later rounds leave
alone then gives the whole row.
-/
import AlchemyDB.Text.Assigned

namespace AlchemyDB.Text

open Catalog

variable {q : Request} {v : Sds} {p : Nat} {x : Value} {w : Sds}

/-- `REV_SKIP_SPACES` from the end of a text that ends in `c` and blanks. -/
theorem rev_skip_end {v a post : Sds} {c : Char} (h : v = a ++ c :: post)
    (hc : isBlank c = false) (hp : post.all isBlank = true) :
    revSkipFrom v (v.length - 1) = a.length ∧ v[a.length]? = some c := by
  have hget : ∀ i, v[a.length + i]? = (c :: post)[i]? := by
    intro i
    rw [h, List.getElem?_append_right (Nat.le_add_right _ _)]
    simp
  have hchr : v[a.length]? = some c := by simpa using hget 0
  refine ⟨?_, hchr⟩
  have hlen : v.length - 1 = a.length + post.length := by
    rw [h]
    simp
  rw [hlen]
  apply revSkipFrom_blanks hchr hc
  intro i h1 h2
  obtain ⟨k, rfl⟩ := Nat.exists_eq_add_of_lt h1
  rw [Nat.add_assoc, hget, List.getElem?_cons_succ]
  cases hk : post[k]? with
  | none => rfl
  | some d => exact List.all_eq_true.mp hp d (List.mem_of_getElem? hk)

/-! ## One value in the text -/

/-- The value `x` stands at `p`, and `w` behind it. -/
def At (v : Sds) (p : Nat) (x : Value) (w : Sds) : Prop := v.drop p = x.chars ++ w

/-- Where the literal begins. -/
def Value.start (x : Value) (p : Nat) : Nat := p + x.before.length

/-- Where the literal ends. -/
def Value.stop (x : Value) (p : Nat) : Nat := x.start p + x.lit.chars.length

theorem Value.length_chars (x : Value) (p : Nat) :
    p + x.chars.length = x.stop p + x.after.length := by
  simp only [chars, stop, start, List.length_append]
  omega

theorem Value.start_lt (x : Value) (p : Nat) : x.start p < x.stop p := by
  obtain ⟨c, s, hc, _⟩ := x.wf.edges.1
  simp [stop, hc]

namespace At

theorem get (h : At v p x w) (i : Nat) : v[p + i]? = (x.chars ++ w)[i]? := by
  have h' : v.drop p = x.chars ++ w := h
  rw [← h', List.getElem?_drop]

theorem drop_start (h : At v p x w) : v.drop (x.start p) = x.lit.chars ++ (x.after ++ w) := by
  have h' : v.drop p = x.chars ++ w := h
  rw [Value.start, ← List.drop_drop, h', Value.chars, List.append_assoc, List.drop_append]
  simp

theorem get_lit (h : At v p x w) (i : Nat) :
    v[x.start p + i]? = (x.lit.chars ++ (x.after ++ w))[i]? := by
  rw [← h.drop_start, List.getElem?_drop]

theorem get_back (h : At v p x w) (i : Nat) : v[x.stop p + i]? = (x.after ++ w)[i]? := by
  rw [Value.stop, Nat.add_assoc, h.get_lit, List.getElem?_append_right (Nat.le_add_right _ _)]
  simp

/-- The characters between the literal and what follows are blanks. -/
theorem blank_back (h : At v p x w) {i : Nat} (h1 : x.stop p ≤ i) (h2 : i < p + x.chars.length) :
    ∃ c, v[i]? = some c ∧ isBlank c = true := by
  obtain ⟨k, rfl⟩ := Nat.exists_eq_add_of_le h1
  rw [x.length_chars] at h2
  have hk : k < x.after.length := by omega
  rw [h.get_back, List.getElem?_append_left hk, List.getElem?_eq_getElem hk]
  exact ⟨_, rfl, List.all_eq_true.mp x.blank_after _ (List.getElem_mem hk)⟩

theorem blank_front (h : At v p x w) {i : Nat} (h1 : p ≤ i) (h2 : i < x.start p) :
    ∃ c, v[i]? = some c ∧ isBlank c = true := by
  obtain ⟨k, rfl⟩ := Nat.exists_eq_add_of_le h1
  have hk : k < x.before.length := by
    rw [Value.start] at h2
    omega
  rw [h.get, Value.chars, List.append_assoc, List.getElem?_append_left hk,
    List.getElem?_eq_getElem hk]
  exact ⟨_, rfl, List.all_eq_true.mp x.blank_before _ (List.getElem_mem hk)⟩

/-- `SKIP_SPACES` from any blank in front reaches the literal. -/
theorem skip (h : At v p x w) {tok : Nat} (h1 : p ≤ tok) (h2 : tok ≤ x.start p) :
    skipFrom v tok = x.start p := by
  obtain ⟨k, rfl⟩ := Nat.exists_eq_add_of_le h1
  rw [Value.start] at h2
  have h' : v.drop p = x.chars ++ w := h
  obtain ⟨c, s, hc, hb, _⟩ := x.wf.edges.1
  have hd : v.drop (p + k) = x.before.drop k ++ c :: (s ++ (x.after ++ w)) := by
    rw [← List.drop_drop, h', Value.chars, List.append_assoc, List.drop_append, hc,
      show k - x.before.length = 0 by omega]
    simp
  have hall : (x.before.drop k).all isBlank = true := by
    rw [List.all_eq_true]
    intro c hc
    exact List.all_eq_true.mp x.blank_before c (List.mem_of_mem_drop hc)
  rw [skipFrom_blanks hd hall hb, List.length_drop, Value.start]
  omega

/-- `REV_SKIP_SPACES` from what follows, or from a blank behind the literal, reaches its end. -/
theorem rev_skip (h : At v p x w) {i : Nat} (h1 : x.stop p ≤ i + 1)
    (h2 : i < p + x.chars.length) : revSkipFrom v i = x.stop p - 1 := by
  have hlt := x.start_lt p
  obtain ⟨s, c, hs, hb⟩ := x.wf.edges.2
  have hc : v[x.stop p - 1]? = some c := by
    have he : x.stop p - 1 = x.start p + s.length := by
      rw [Value.stop, hs]
      simp
    rw [he, h.get_lit, hs]
    simp
  obtain ⟨k, hk⟩ : ∃ k, i = (x.stop p - 1) + k := ⟨i - (x.stop p - 1), by omega⟩
  rw [hk]
  apply revSkipFrom_blanks hc hb
  intro j hj1 hj2
  obtain ⟨d, hd, hdb⟩ := h.blank_back (show x.stop p ≤ j by omega) (by omega)
  rw [hd]
  exact hdb

/-- The scan starts at the literal. -/
theorem next (h : At v p x w) : getNextInsertValueToken v (x.start p) =
    (valueEnd (x.lit.chars ++ (x.after ++ w))).map (x.start p + ·) := by
  have hs : skipFrom v (x.start p) = x.start p := h.skip (Nat.le_add_right _ _) le_rfl
  rw [getNextInsertValueToken, hs, h.drop_start]
  rfl

theorem get_next (h : At v p x w) {nx : Nat}
    (hn : getNextInsertValueToken v (x.start p) = some nx) : v[nx]? = some ',' := by
  rw [h.next] at hn
  obtain ⟨k, hk, rfl⟩ := Option.map_eq_some_iff.mp hn
  rw [h.get_lit]
  exact valueEnd_char _ le_rfl hk

/-- A literal that is not the last is passed over exactly if and only if it is flat. -/
theorem next_iff {r : Sds} (h : At v p x (',' :: r)) :
    getNextInsertValueToken v (x.start p) = some (p + x.chars.length) ↔ Flat x.lit.chars := by
  have hb : Flat x.after := (quiet_blanks x.blank_after).flat
  rw [h.next, x.length_chars, Value.stop, Nat.add_assoc]
  constructor
  · intro hv
    obtain ⟨k, hk, he⟩ := Option.map_eq_some_iff.mp hv
    have hke : k = (x.lit.chars ++ x.after).length := by
      rw [List.length_append]
      omega
    rw [hke, ← List.append_assoc] at hk
    exact (flat_of_valueEnd _ le_rfl hk).of_append_blank rfl x.blank_after
  · intro hf
    rw [← List.append_assoc, (hf.append hb).valueEnd, valueEnd_comma]
    simp

/-- In the last literal no comma is met if and only if it ends. -/
theorem next_last_iff {post : Sds} (h : At v p x (')' :: post)) (hp : post.all isBlank = true) :
    getNextInsertValueToken v (x.start p) = none ↔ Ends x.lit.chars := by
  have hq : Quiet (x.after ++ ')' :: post) := by
    intro c hc
    rcases List.mem_append.mp hc with hc | hc
    · exact quiet_blanks x.blank_after c hc
    · rcases List.mem_cons.mp hc with rfl | hc
      · decide
      · exact quiet_blanks hp c hc
  rw [h.next, Option.map_eq_none_iff]
  exact ends_iff _ le_rfl hq

/-- `validate_parsed_insert_val` accepts a TEXT for a TEXT column. -/
theorem validate (h : At v p x w) {t : CType} (ht : t = .text → x.lit.isText = true)
    {tok i : Nat} (h1 : p ≤ tok) (h2 : tok ≤ x.start p) (h3 : x.stop p ≤ i)
    (h4 : i ≤ p + x.chars.length) : validateParsedInsertVal v t tok i = true := by
  unfold validateParsedInsertVal
  split
  · rename_i htt
    have hlt := x.start_lt p
    rw [h.skip h1 h2, h.rev_skip (by omega) (by omega)]
    obtain ⟨body, hl⟩ := Literal.isText_iff.mp (ht htt)
    have hs : v[x.start p]? = some '\'' := by
      have := h.get_lit 0
      rw [hl] at this
      exact this
    have he : v[x.stop p - 1]? = some '\'' := by
      have hst : x.stop p - 1 = x.start p + (body.length + 1) := by
        rw [Value.stop, hl]
        simp [Literal.chars]
      rw [hst, h.get_lit, hl]
      simp [Literal.chars]
    simp [hs, he]
  · rfl

/-- Where the last value ends. -/
theorem last_end {post : Sds} (h : At v p x (')' :: post)) (hp : post.all isBlank = true) :
    lastEnd v = x.stop p := by
  have hlt := x.start_lt p
  have h' : v.drop p = x.chars ++ ')' :: post := h
  have hpl : p ≤ v.length := by
    by_contra hn
    rw [List.drop_eq_nil_of_le (by omega)] at h'
    simp at h'
  have hv : v = (v.take p ++ x.chars) ++ ')' :: post := by
    rw [List.append_assoc, ← h', List.take_append_drop]
  have hal : (v.take p ++ x.chars).length = p + x.chars.length := by
    rw [List.length_append, List.length_take, Nat.min_eq_left hpl]
  obtain ⟨hrev, hpar⟩ := rev_skip_end hv (by decide) hp
  rw [hal] at hrev hpar
  simp only [lastEnd, hrev, hpar, if_true]
  have hst := x.length_chars p
  rw [h.rev_skip (by omega) (by omega)]
  omega

/-- The text of a literal between its ends. -/
theorem take_body (h : At v p x w) {body : Sds} (hl : x.lit = .text body) :
    v.drop (x.start p + 1) = body ++ '\'' :: (x.after ++ w) := by
  rw [← List.drop_drop, h.drop_start, hl]
  simp [Literal.chars]

/-! ## The key -/

/-- The key of a row with values behind it. -/
theorem parse_pk (h : At v p x w) (hv : q.vals = v) (s : Parsed) {t : CType}
    (ht : t = .text ↔ x.lit.isText = true) {tok : Nat} (h1 : p ≤ tok) (h2 : tok ≤ x.start p) :
    (x.lit.isText = true ∧ x.lit.chars = ['\'', '\''] ∧
        parsePk q s t tok (p + x.chars.length) = assignPk q s (x.start p + 1) 0) ∨
      ∃ k, parsePk q s t tok (p + x.chars.length) = .ok (some (s.keyed (.given k))) ∧
        KeyOf x.lit (some (.given k)) ∧ (x.lit.isText = true → x.lit.chars ≠ ['\'', '\'']) := by
  have hlt := x.start_lt p
  have hlc := x.length_chars p
  have hstop : x.stop p = x.start p + x.lit.chars.length := rfl
  have hrev : revSkipFrom v (p + x.chars.length - 1) = x.stop p - 1 :=
    h.rev_skip (by omega) (by omega)
  simp only [parsePk, hv, h.skip h1 h2, hrev]
  cases htx : x.lit.isText with
  | true =>
      obtain ⟨body, hl⟩ := Literal.isText_iff.mp htx
      have hval := h.validate (t := .text) (fun _ => htx) (Nat.le_add_right p x.before.length)
        le_rfl le_rfl (by omega)
      have hlen : x.lit.chars.length = body.length + 2 := by simp [hl, Literal.chars]
      have hq : v[x.start p]? = some '\'' ∧ v[x.stop p - 1]? = some '\'' := by
        simpa [validateParsedInsertVal, h.skip (Nat.le_add_right p x.before.length) le_rfl,
          h.rev_skip (show x.stop p ≤ x.stop p - 1 + 1 by omega) (by omega)] using hval
      have hpl : max 0 (((x.stop p - 1 : Nat) : Int) - 1 - ((x.start p : Int) + 1) + 1)
          = (body.length : Int) := by omega
      rw [if_pos (ht.mpr htx), if_pos hq, hpl]
      cases body with
      | nil => exact .inl ⟨rfl, by rw [hl]; rfl, rfl⟩
      | cons c body =>
          refine .inr ⟨c :: body, ?_, ⟨_, rfl, by rw [hl]⟩, fun _ he => ?_⟩
          · have hpos : ¬ (((c :: body).length : Nat) : Int) = 0 := by simp; omega
            have hneg : ¬ (((c :: body).length : Nat) : Int) < 0 := by omega
            rw [assignPk, if_neg hpos, if_neg hneg, hv, h.take_body hl]
            simp [Parsed.keyed]
          · rw [he] at hlen
            simp at hlen
  | false =>
      have htt : t ≠ .text := fun he => by
        rw [ht.mp he] at htx
        cases htx
      have hpl : max 0 (((x.stop p - 1 : Nat) : Int) - (x.start p : Int) + 1)
          = (x.lit.chars.length : Int) := by omega
      have hpos : ¬ ((x.lit.chars.length : Nat) : Int) = 0 := by omega
      have hneg : ¬ ((x.lit.chars.length : Nat) : Int) < 0 := by omega
      refine .inr ⟨x.lit.chars, ?_, ⟨_, rfl, ?_⟩, fun he => by cases he⟩
      · rw [if_neg htt, hpl, assignPk, if_neg hpos, if_neg hneg, hv, h.drop_start]
        simp [Parsed.keyed]
      · obtain ⟨c, s, hc, hb, _⟩ := x.wf.edges.1
        have : skipSpaces x.lit.chars = x.lit.chars := by simp [skipSpaces, hc, hb]
        cases hx : x.lit with
        | text body => rw [hx] at htx; cases htx
        | number s => rw [hx] at this; exact this
        | call f a => rw [hx] at this; exact this
        | object f => rw [hx] at this; exact this

/-- The key as the last value, which keeps the quotes of a TEXT. -/
theorem last_pk (h : At v p x w) (hv : q.vals = v) (s : Parsed) {tok : Nat} (h1 : p ≤ tok)
    (h2 : tok ≤ x.start p) :
    ∃ k, lastPk q s 0 tok (x.stop p) = .ok (some (s.keyed (.given k))) ∧
      (KeyOf x.lit (some (.given k)) ↔ x.lit.isText = false) := by
  have hlt := x.start_lt p
  have hstop : x.stop p = x.start p + x.lit.chars.length := rfl
  have hpos : ¬ (((x.stop p : Nat) : Int) - (tok : Nat)) = 0 := by omega
  have hneg : ¬ (((x.stop p : Nat) : Int) - (tok : Nat)) < 0 := by omega
  obtain ⟨b, hb, hd⟩ : ∃ b : Sds, b.all isBlank = true ∧
      (v.drop tok).take (x.stop p - tok) = b ++ x.lit.chars := by
    obtain ⟨k, rfl⟩ := Nat.exists_eq_add_of_le h1
    have h' : v.drop p = x.chars ++ w := h
    rw [Value.start] at h2 hstop
    refine ⟨x.before.drop k, ?_, ?_⟩
    · rw [List.all_eq_true]
      intro c hc
      exact List.all_eq_true.mp x.blank_before c (List.mem_of_mem_drop hc)
    · rw [← List.drop_drop, h', Value.chars, List.append_assoc, List.drop_append,
        show k - x.before.length = 0 by omega, List.drop_zero, List.append_assoc,
        ← List.append_assoc (x.before.drop k), List.take_append]
      have hl : (x.before.drop k ++ x.lit.chars).length = x.stop p - (p + k) := by
        rw [List.length_append, List.length_drop]
        omega
      rw [List.take_of_length_le (by omega), hl, Nat.sub_self, List.take_zero, List.append_nil]
  refine ⟨b ++ x.lit.chars, ?_, ?_⟩
  · have hn : (((x.stop p : Nat) : Int) - (tok : Nat)).toNat = x.stop p - tok := by omega
    simp only [lastPk, if_true, assignPk, if_neg hpos, if_neg hneg, hv, hn, hd]
    rfl
  · obtain ⟨c, s', hc, hcb, _⟩ := x.wf.edges.1
    have hsk : skipSpaces (b ++ x.lit.chars) = x.lit.chars := by
      rw [skipSpaces, List.dropWhile_append_of_pos (List.all_eq_true.mp hb), hc]
      simp [hcb]
    unfold KeyOf
    cases hx : x.lit with
    | text body =>
        simp only [Option.some.injEq, Key.given.injEq, exists_eq_left', Literal.isText,
          Bool.true_eq_false, iff_false]
        intro he
        have := congrArg List.length he
        simp [Literal.chars] at this
        omega
    | number s => rw [hx] at hsk; simp [hsk, Literal.isText]
    | call f a => rw [hx] at hsk; simp [hsk, Literal.isText]
    | object f => rw [hx] at hsk; simp [hsk, Literal.isText]

end At

/-! ## The columns stored -/

theorem filled_of {cofsts : List (Int × Int)} {c : Nat} {e : Int × Int}
    (h : cofsts[c]? = some e) (he : e.1 ≠ -1) : c < filledCols cofsts := by
  by_contra hn
  obtain ⟨hc, hce⟩ := List.getElem?_eq_some_iff.mp h
  have hpre := List.takeWhile_prefix (fun e : Int × Int => e.1 == -1) (l := cofsts.reverse)
  have hlt : cofsts.length - 1 - c <
      (cofsts.reverse.takeWhile (fun e => e.1 == -1)).length := by
    rw [filledCols] at hn
    omega
  have hg := hpre.getElem hlt
  have hm := List.mem_takeWhile_imp (List.getElem_mem hlt)
  rw [hg, List.getElem_reverse] at hm
  have hi : cofsts.length - 1 - (cofsts.length - 1 - c) = c := by omega
  simp only [hi, hce] at hm
  exact he (by simpa using hm)

theorem createRow_get (v : Sds) (mvals : Nat) {c : Nat} {r : Parsed} {e : Int × Int} {t : CType}
    (hc : c ≠ 0) (hco : r.cofsts[c]? = some e) (he : e.1 ≠ -1) (ht : r.types[c]? = some t) :
    (createRow v mvals r.types r.cofsts)[c - 1]? = some (createCol v mvals t e) := by
  have hf := filled_of hco he
  have hz : (r.types.zip r.cofsts)[c]? = some (t, e) := List.getElem?_zip_eq_some.mpr ⟨ht, hco⟩
  rw [createRow, List.getElem?_map, List.getElem?_tail, Nat.sub_add_cancel (Nat.pos_of_ne_zero hc),
    List.getElem?_take, if_pos hf, hz]
  rfl

/-- A TEXT is stored as written if and only if nothing stands between it and what follows. -/
theorem At.stored_iff (h : At v p x w) {c : Char} {w' : Sds} (hw : w = c :: w')
    (hc : isBlank c = false) {r : Parsed} {mvals col : Nat} (hcol : col ≠ 0) {tok e : Nat}
    (hm : mvals ≤ tok) (h1 : p ≤ tok) (h2 : tok ≤ x.start p)
    (he : e = p + x.chars.length ∨ e = x.stop p)
    (hco : r.cofsts[col]? = some ((tok : Int) - mvals, (e : Int) - mvals))
    (ht : r.types[col]? = some .text) {body : Sds} (hl : x.lit = .text body) :
    StoredAs v mvals r col body ↔ x.after = [] := by
  have hlt := x.start_lt p
  have hlc := x.length_chars p
  have hstop : x.stop p = x.start p + x.lit.chars.length := rfl
  have hlen : x.lit.chars.length = body.length + 2 := by simp [hl, Literal.chars]
  have hne : ((tok : Int) - mvals, (e : Int) - mvals).1 ≠ -1 := by simp only; omega
  have hrow := createRow_get v mvals hcol hco hne ht
  have hd := h.take_body hl
  -- the length that is stored
  obtain ⟨n, hn, hcr⟩ : ∃ n : Int, (n = body.length ↔ x.after = []) ∧
      n ≤ body.length + x.after.length ∧
      createCol v mvals .text ((tok : Int) - mvals, (e : Int) - mvals)
        = ⟨false, x.start p + 1, n⟩ := by
    have hst : ((mvals : Int) + ((tok : Int) - mvals)).toNat = tok := by omega
    have hen : ((mvals : Int) + ((e : Int) - mvals)).toNat = e := by omega
    simp only [createCol, if_neg hne, hst, hen, h.skip h1 h2, if_true]
    by_cases ha : x.after = []
    · -- nothing between: the character behind the extent is no blank
      have hee : e = x.stop p := by
        rcases he with he | he
        · rw [he, hlc, ha]; rfl
        · exact he
      have hg : v[e]? = some c := by
        have := h.get_back 0
        rw [ha, hw] at this
        rw [hee]
        simpa using this
      refine ⟨_, ?_, ?_, rfl⟩ <;>
        simp only [hg, Option.any_some, hc, if_false, ha, Bool.false_eq_true] <;>
        simp <;> omega
    · have hal : 0 < x.after.length := List.length_pos_of_ne_nil ha
      rcases he with he | he
      · have hg : v[e]? = some c := by
          have := h.get_back x.after.length
          rw [hw] at this
          rw [he, hlc]
          simpa using this
        refine ⟨_, ?_, ?_, rfl⟩ <;>
          simp only [hg, Option.any_some, hc, if_false, ha, Bool.false_eq_true, iff_false] <;> omega
      · obtain ⟨d, hg, hb⟩ := h.blank_back (i := e) (by omega) (by omega)
        have hr : revSkipFrom v e = x.stop p - 1 := h.rev_skip (by omega) (by omega)
        refine ⟨_, ?_, ?_, rfl⟩ <;>
          simp only [hg, Option.any_some, hb, if_true, hr, ha, iff_false] <;> omega
  obtain ⟨hn2, hcr⟩ := hcr
  unfold StoredAs
  rw [hrow, hcr]
  simp only [Option.some.injEq, exists_eq_left', Crd.text, Bool.false_eq_true, if_false]
  rw [← hn]
  constructor
  · intro hs
    split at hs
    · cases hs
    · have hle := congrArg List.length (Option.some_inj.mp hs)
      rw [List.length_take, hd] at hle
      simp only [List.length_append, List.length_cons] at hle
      omega
  · intro hnb
    rw [if_neg (by omega), hd, hnb]
    simp

/-! ## The columns still to come -/

/-- Before value number `numc`, with the values `xs` for the columns `cs` still to come. -/
structure Cols (q : Request) (s : Parsed) (numc : Nat) (xs : List Value) (cs : List Int) :
    Prop where
  rest : (columns q s.ics).drop numc = cs
  count : cs.length = xs.length
  total : numc + xs.length = q.total
  types : s.types ≠ []
  known : ∀ c ∈ cs, -1 ≤ c ∧ c < s.types.length
  room : q.ncols = s.types.length + (cs.filter (· = -1)).length
  cofsts : s.cofsts.length = q.ncols
  once : (cs.filter (· ≠ -1)).Nodup
  fits : ∀ e ∈ cs.zip xs, e.1 ≠ -1 →
    (s.types[e.1.toNat]? = some .text ↔ e.2.lit.isText = true)

/-- The next value is for column `d` of type `t`, which leaves the state `s₁`. -/
structure Taken (q : Request) (s s₁ : Parsed) (numc nextc : Nat) (x : Value) (xs : List Value)
    (c : Int) (cs : List Int) (d : Nat) (t : CType) : Prop where
  column : columnAt q s numc nextc = .ok (some (s₁, d, t))
  typed : c = -1 → (determineColType q nextc).isSome
  targets : targets s.types.length (c :: cs) = d :: targets s₁.types.length cs
  text : t = .text ↔ x.lit.isText = true
  cols : Cols q s₁ (numc + 1) xs cs
  settled : Settled q s₁ (numc + 1) d
  cofsts : s₁.cofsts = s.cofsts
  pk : s₁.pk = s.pk
  head : s₁.types.head? = s.types.head?
  cmatch : cmatchOf q s₁ numc = .ok d
  type : s₁.types[d]? = some t
  zero : d = 0 ↔ c = 0
  lt : d < q.ncols

variable {s : Parsed} {numc nextc : Nat} {xs : List Value} {c : Int} {cs : List Int}

theorem Cols.get (h : Cols q s numc xs (c :: cs)) : (columns q s.ics)[numc]? = some c := by
  have := congrArg (·[0]?) h.rest
  simpa using this

theorem Cols.cmatch (h : Cols q s numc xs (c :: cs)) : cmatchOf q s numc = .ok c := by
  have hg := h.get
  unfold columns at hg
  unfold cmatchOf
  split at hg
  · rename_i hp
    rw [if_pos hp, hg]
  · rename_i hp
    rw [if_neg hp]
    rw [List.getElem?_map] at hg
    obtain ⟨i, hi, rfl⟩ := Option.map_eq_some_iff.mp hg
    obtain ⟨_, rfl⟩ := List.getElem?_eq_some_iff.mp hi
    rw [List.getElem_range]
    rfl

theorem Cols.listed (h : Cols q s numc xs (c :: cs)) (hc : c = -1) : q.pcols ≠ 0 := by
  rcases cmatchOf_cases h.cmatch with ⟨hp, _⟩ | ⟨_, he⟩
  · exact hp
  · omega

theorem Cols.next (h : Cols q s numc (x :: xs) (c :: cs)) :
    (columns q s.ics).drop (numc + 1) = cs := by
  rw [← List.drop_drop, h.rest]
  rfl

/-- A column that the table has. -/
theorem Cols.known_column (h : Cols q s numc (x :: xs) (c :: cs)) (hc : c ≠ -1) :
    ∃ t, Taken q s s numc nextc x xs c cs c.toNat t := by
  obtain ⟨hk1, hk2⟩ := h.known c List.mem_cons_self
  have hcn : ((c.toNat : Nat) : Int) = c := Int.toNat_of_nonneg (by omega)
  have hlt : c.toNat < s.types.length := by omega
  have hroom := h.room
  have hf : (c :: cs).filter (· ≠ -1) = c :: cs.filter (· ≠ -1) := by
    rw [List.filter_cons_of_pos (by simpa using hc)]
  have hf' : (c :: cs).filter (· = -1) = cs.filter (· = -1) := by
    rw [List.filter_cons_of_neg (by simpa using hc)]
  have honce := h.once
  rw [hf, List.nodup_cons] at honce
  have hnot : c ∉ cs := fun hm => honce.1 (List.mem_filter.mpr ⟨hm, by simpa using hc⟩)
  have hty : s.types[c.toNat]? = some s.types[c.toNat] := List.getElem?_eq_getElem hlt
  have hcol : columnAt q s numc nextc = .ok (some (s, c.toNat, s.types[c.toNat])) := by
    have hr : ¬ (c ≥ (q.ncols : Int) ∨ c < -1) := by omega
    simp only [columnAt, h.cmatch, bind, Except.bind, pure, Except.pure, hr, hc, if_false, hty]
  refine ⟨s.types[c.toNat], ?_⟩
  exact {
    column := hcol
    typed := fun he => absurd he hc
    targets := by simp only [Text.targets, hc, if_false]
    text := by
      rw [← h.fits (c, x) (by simp) hc, hty, Option.some.injEq]
    cols := {
      rest := h.next
      count := by simpa using h.count
      total := by have := h.total; simp only [List.length_cons] at this; omega
      types := h.types
      known := fun d hd => h.known d (List.mem_cons_of_mem c hd)
      room := by rw [← hf']; exact hroom
      cofsts := h.cofsts
      once := honce.2
      fits := fun e he => h.fits e (by simp [he]) }
    settled := {
      lt := hlt
      listed := by
        intro hp
        have := h.next
        rw [columns, if_pos hp] at this
        rw [this, hcn]
        exact hnot
      counted := by
        intro hp
        rcases cmatchOf_cases h.cmatch with ⟨hp', _⟩ | ⟨_, he⟩
        · exact absurd hp hp'
        · omega }
    cofsts := rfl
    pk := rfl
    head := rfl
    cmatch := by rw [hcn]; exact h.cmatch
    type := hty
    zero := by omega
    lt := by omega }

/-- A column that is new. -/
theorem Cols.new_column (h : Cols q s numc (x :: xs) (-1 :: cs)) {t : CType}
    (ht : determineColType q nextc = some t) (htx : t = .text ↔ x.lit.isText = true) :
    Taken q s { s with types := s.types ++ [t], ics := s.ics.set numc s.types.length } numc nextc
      x xs (-1) cs s.types.length t := by
  have hp : q.pcols ≠ 0 := h.listed rfl
  have hics : columns q s.ics = s.ics := if_pos hp
  have hi : numc < s.ics.length := by
    have := h.get
    rw [hics] at this
    exact (List.getElem?_eq_some_iff.mp this).1
  have hf : (-1 :: cs).filter (· = -1) = -1 :: cs.filter (· = -1) := rfl
  have hroom := h.room
  rw [hf, List.length_cons] at hroom
  have hpos : 0 < s.types.length := List.length_pos_of_ne_nil h.types
  have hdrop : (s.ics.set numc (s.types.length : Int)).drop (numc + 1) = cs := by
    rw [List.drop_set_of_lt (by omega), ← hics]
    exact h.next
  have hnot : (s.types.length : Int) ∉ cs := fun hm => by
    have := (h.known _ (List.mem_cons_of_mem _ hm)).2
    omega
  exact {
    column := by
      have hr : ¬ ((-1 : Int) ≥ (q.ncols : Int) ∨ (-1 : Int) < -1) := by omega
      simp only [columnAt, h.cmatch, bind, Except.bind, pure, Except.pure, hr, if_false, if_true, ht]
    typed := fun _ => by rw [ht]; rfl
    targets := by simp only [Text.targets, if_true, List.length_append, List.length_singleton]
    text := htx
    cols := {
      rest := by rw [columns, if_pos hp]; exact hdrop
      count := by simpa using h.count
      total := by have := h.total; simp only [List.length_cons] at this; omega
      types := by simp
      known := by
        intro d hd
        have := h.known d (List.mem_cons_of_mem _ hd)
        simp only [List.length_append, List.length_singleton]
        omega
      room := by simp only [List.length_append, List.length_singleton]; omega
      cofsts := h.cofsts
      once := h.once
      fits := by
        intro e he hne
        rw [← h.fits e (by simp [he]) hne]
        have hk := h.known e.1 (List.mem_cons_of_mem _ (List.of_mem_zip he).1)
        rw [List.getElem?_append_left (by omega)] }
    settled := {
      lt := by simp
      listed := by
        intro _
        rw [hdrop]
        exact hnot
      counted := fun hp' => absurd hp' hp }
    cofsts := rfl
    pk := rfl
    head := List.head?_append_of_ne_nil _ h.types
    cmatch := by simp [cmatchOf, hp, hi]
    type := by simp
    zero := by omega
    lt := by omega }

/-- The type of a new column agrees with its value. -/
theorem determineColType_text {t : CType} {w : Sds} (hx : q.vals.drop nextc = x.lit.chars ++ w)
    (ht : determineColType q nextc = some t) : t = .text ↔ x.lit.isText = true := by
  obtain ⟨c, s, hc, _, hq⟩ := x.wf.edges.1
  rw [hc] at hx
  simp only [determineColType, hx, List.cons_append, List.head?_cons, Option.some.injEq] at ht
  rw [← hq]
  split at ht
  · rename_i he
    cases ht
    simp [he]
  · rename_i he
    simp only [he, iff_false]
    rintro rfl
    split at ht <;> cases ht

theorem Cols.column (h : Cols q s numc (x :: xs) (c :: cs)) {w : Sds}
    (hx : q.vals.drop nextc = x.lit.chars ++ w) :
    (c = -1 ∧ determineColType q nextc = none ∧ columnAt q s numc nextc = .ok none) ∨
      ∃ s₁ d t, Taken q s s₁ numc nextc x xs c cs d t := by
  by_cases hc : c = -1
  · subst hc
    cases ht : determineColType q nextc with
    | none =>
        refine .inl ⟨rfl, rfl, ?_⟩
        have hr : ¬ ((-1 : Int) ≥ (q.ncols : Int) ∨ (-1 : Int) < -1) := by omega
        simp only [columnAt, h.cmatch, bind, Except.bind, pure, Except.pure, hr, if_false, if_true, ht]
    | some t => exact .inr ⟨_, _, t, h.new_column ht (determineColType_text hx ht)⟩
  · obtain ⟨t, ht⟩ := h.known_column hc
    exact .inr ⟨_, _, t, ht⟩

/-! ## Extents -/

theorem At.own (h : At v p x w) {m tok e : Nat} (h1 : p ≤ tok) (h2 : tok ≤ x.start p)
    (h3 : x.stop p ≤ e) (h4 : e ≤ p + x.chars.length) :
    Own v m ((tok : Int) - m, (e : Int) - m) (x.start p) x.lit.chars.length := by
  have hstop : x.stop p = x.start p + x.lit.chars.length := rfl
  refine ⟨by simp only; omega, by simp only; omega, ?_, ?_⟩
  · intro i hi1 hi2
    obtain ⟨c, hc, hb⟩ := h.blank_front (i := i) (by simp only at hi1; omega) hi2
    rw [hc]
    exact hb
  · intro i hi1 hi2
    obtain ⟨c, hc, hb⟩ := h.blank_back (i := i) (by omega) (by simp only at hi2; omega)
    rw [hc]
    exact hb

/-- The only comma that ends the extent of a literal is the one behind it. -/
theorem At.own_end {r : Sds} (h : At v p x (',' :: r)) {mvals nx : Nat} {i : Int}
    (ho : Own v mvals (i, (nx : Int) - mvals) (x.start p) x.lit.chars.length)
    (hnx : v[nx]? = some ',') : nx = p + x.chars.length := by
  have hstop : x.stop p = x.start p + x.lit.chars.length := rfl
  have hlc := x.length_chars p
  have hge : x.stop p ≤ nx := by
    have := ho.reaches
    simp only at this
    omega
  rcases Nat.lt_trichotomy nx (p + x.chars.length) with hlt | he | hgt
  · obtain ⟨c, hc, hb⟩ := h.blank_back hge hlt
    rw [hnx] at hc
    cases hc
    cases hb
  · exact he
  · have hcomma : v[p + x.chars.length]? = some ',' := by
      rw [h.get, List.getElem?_append_right le_rfl]
      simp
    have := ho.back (p + x.chars.length) (by omega) (by simp only; omega)
    rw [hcomma] at this
    cases this

/-! ## The last value -/

theorem lastPk_other {d tok e : Nat} (hd : d ≠ 0)
    (hk : s.pk.isSome = true ∨ (s.types.head?).any CType.isNum = true) :
    ∃ s', lastPk q s d tok e = .ok (some s') ∧ s'.types = s.types ∧ s'.cofsts = s.cofsts := by
  unfold lastPk
  rw [if_neg hd]
  by_cases hp : s.pk = none
  · have hn : (s.types.head?).any CType.isNum = true := by
      rcases hk with hk | hk
      · rw [hp] at hk; cases hk
      · exact hk
    refine ⟨{ s with pk := some .auto }, ?_, rfl, rfl⟩
    simp [hp, assignPk, hn]
  · exact ⟨s, by rw [if_neg hp], rfl, rfl⟩

variable {s₁ : Parsed} {d : Nat} {t : CType} {mvals tok : Nat}

theorem lastValue_eq (h : Taken q s s₁ numc nextc x [] c cs d t) {e : Nat}
    (he : lastEnd q.vals = e) (hv : validateParsedInsertVal q.vals t tok e = true)
    {s' : Parsed} (hk : lastPk q (s₁.extent mvals d tok e) d tok e = .ok (some s')) :
    lastValue q mvals numc tok s₁ = .ok (some s') := by
  have ht := h.cols.total
  simp only [List.length_nil, Nat.add_zero] at ht
  simp only [lastValue, h.cmatch, bind, Except.bind, Int.toNat_natCast, h.type, he, hv, if_true, hk,
    pure, Except.pure, Option.filter_some, ht, decide_true]

/-- The last value comes out right. -/
theorem last_iff (h : Taken q s s₁ numc nextc x [] c cs d t) {post : Sds}
    (ha : At q.vals p x (')' :: post)) (hp : post.all isBlank = true) (hm : mvals ≤ tok)
    (h1 : p ≤ tok) (h2 : tok ≤ x.start p)
    (hk : s.pk.isSome = true ∨ c = 0 ∨ (s.types.head?).any CType.isNum = true) :
    (∃ r, lastValue q mvals numc tok s₁ = .ok (some r) ∧
        Assigned q.vals mvals r p [x] (d :: targets s₁.types.length cs)) ↔
      (x.lit.isText = true → if c = 0 then False else x.after = []) := by
  have hlt := x.start_lt p
  have hlc := x.length_chars p
  have hval := ha.validate (fun he => h.text.mp he) h1 h2 le_rfl
    (show x.stop p ≤ p + x.chars.length by omega)
  have hown := ha.own (m := mvals) h1 h2 le_rfl (show x.stop p ≤ p + x.chars.length by omega)
  have hget : (s₁.extent mvals d tok (x.stop p)).cofsts[d]? =
      some ((tok : Int) - mvals, (x.stop p : Int) - mvals) := by
    have hl : d < s₁.cofsts.length := by rw [h.cols.cofsts]; exact h.lt
    simp [Parsed.extent, hl]
  by_cases hd : d = 0
  · -- the primary key: quotes are kept
    subst hd
    obtain ⟨k, hlast, hkey⟩ := ha.last_pk rfl (s₁.extent mvals 0 tok (x.stop p)) h1 h2
    have hr := lastValue_eq h (ha.last_end hp) hval hlast
    rw [hr, if_pos (h.zero.mp rfl)]
    constructor
    · rintro ⟨r, hr, has⟩
      cases hr
      have hko : KeyOf x.lit (some (.given k)) := has.2.1
      intro ht
      rw [hkey.mp hko] at ht
      cases ht
    · intro ht
      refine ⟨_, rfl, ⟨_, hget, hown⟩, ?_, by simp [Assigned]⟩
      rw [if_pos rfl]
      exact hkey.mpr (by simpa using ht)
  · have hc : c ≠ 0 := fun he => hd (h.zero.mpr he)
    have hk' : (s₁.extent mvals d tok (x.stop p)).pk.isSome = true ∨
        ((s₁.extent mvals d tok (x.stop p)).types.head?).any CType.isNum = true := by
      show s₁.pk.isSome = true ∨ (s₁.types.head?).any CType.isNum = true
      rw [h.pk, h.head]
      rcases hk with hk | hk | hk
      · exact .inl hk
      · exact absurd hk hc
      · exact .inr hk
    obtain ⟨s', hlast, hty, hco⟩ := lastPk_other hd hk'
    have hr := lastValue_eq h (ha.last_end hp) hval hlast
    have hst : ∀ body, x.lit = .text body →
        (StoredAs q.vals mvals s' d body ↔ x.after = []) := by
      intro body hl
      have htx : t = .text := h.text.mpr (Literal.isText_iff.mpr ⟨body, hl⟩)
      exact ha.stored_iff rfl (by decide) hd hm h1 h2 (.inr rfl) (by rw [hco]; exact hget)
        (by rw [hty, ← htx]; exact h.type) hl
    rw [hr, if_neg hc]
    constructor
    · rintro ⟨r, hr, has⟩ ht
      cases hr
      obtain ⟨body, hl⟩ := Literal.isText_iff.mp ht
      have hs := has.2.1
      rw [if_neg hd] at hs
      exact (hst body hl).mp (hs body hl)
    · intro ht
      refine ⟨_, rfl, ⟨_, by rw [hco]; exact hget, hown⟩, ?_, by simp [Assigned]⟩
      rw [if_neg hd]
      intro body hl
      exact (hst body hl).mpr (ht (Literal.isText_iff.mpr ⟨body, hl⟩))

/-! ## The loop -/

theorem parseLoop_last {n : Nat} (hc : columnAt q s numc nextc = .ok (some (s₁, d, t)))
    (hn : parseInsertValListNextc q.vals nextc t = none) :
    parseLoop q mvals (n + 1) numc tok nextc s = lastValue q mvals numc tok s₁ := by
  simp only [parseLoop, hc, bind, Except.bind, hn]

theorem parseLoop_next {n nx : Nat} (hc : columnAt q s numc nextc = .ok (some (s₁, d, t)))
    (hn : parseInsertValListNextc q.vals nextc t = some nx) {o : Option Parsed}
    (hk : takePk q s₁ d t tok nx = .ok o) :
    parseLoop q mvals (n + 1) numc tok nextc s =
      match o with
      | none => .ok none
      | some s₂ => parseLoop q mvals n (numc + 1) (nx + 1) (skipFrom q.vals (nx + 1))
          (s₂.extent mvals d tok nx) := by
  simp only [parseLoop, hc, bind, Except.bind, hn, hk]
  cases o <;> rfl

/-- In the last value a comma makes one value too many. -/
theorem last_round {n : Nat} (h : Taken q s s₁ numc (x.start p) x [] c cs d t) {post : Sds}
    (ha : At q.vals p x (')' :: post)) (hp : post.all isBlank = true) {r : Parsed}
    (hr : parseLoop q mvals (n + 1) numc tok (x.start p) s = .ok (some r)) :
    Ends x.lit.chars := by
  by_contra hne
  have hnx : getNextInsertValueToken q.vals (x.start p) ≠ none := fun hn =>
    hne ((ha.next_last_iff hp).mp hn)
  have ht : t ≠ .text := by
    intro ht
    obtain ⟨body, hl⟩ := Literal.isText_iff.mp (h.text.mp ht)
    have hw := x.wf
    rw [hl] at hne hw
    exact hne (flat_text hw).ends
  obtain ⟨nx, hnx⟩ := Option.ne_none_iff_exists'.mp hnx
  have hpn : parseInsertValListNextc q.vals (x.start p) t = some nx := by
    simp [parseInsertValListNextc, hnx, validateParsedInsertVal, ht]
  have htot := h.cols.total
  simp only [List.length_nil, Nat.add_zero] at htot
  obtain ⟨s₁', d', t', hc, hcase⟩ := parseLoop_some hr
  rw [h.column] at hc
  cases hc
  rcases hcase with ⟨hn, _⟩ | ⟨nx', s₂, _, _, hl⟩
  · rw [hpn] at hn
    cases hn
  · have := parseLoop_count hl
    omega

/-- A value that is not the last is cut at the comma behind it. -/
theorem inner_round {n : Nat} {y : Value} {ys : List Value}
    (h : Taken q s s₁ numc (x.start p) x (y :: ys) c cs d t) {r' : Sds}
    (ha : At q.vals p x (',' :: r')) {r : Parsed} {tgts : List Nat}
    (hr : parseLoop q mvals (n + 1) numc tok (x.start p) s = .ok (some r))
    (has : Assigned q.vals mvals r p (x :: y :: ys) (d :: tgts)) :
    Flat x.lit.chars := by
  have htot := h.cols.total
  simp only [List.length_cons] at htot
  obtain ⟨s₁', d', t', hc, hcase⟩ := parseLoop_some hr
  rw [h.column] at hc
  cases hc
  rcases hcase with ⟨_, hl⟩ | ⟨nx, s₂, hn, hk, hl⟩
  · obtain ⟨_, _, _, _, _, _, ht⟩ := lastValue_some hl
    omega
  · have hnx : getNextInsertValueToken q.vals (x.start p) = some nx :=
      (Option.filter_eq_some_iff.mp hn).1
    obtain ⟨k1, k2, k3, _, _⟩ := takePk_some hk
    have hset : Settled q (s₂.extent mvals d tok nx) (numc + 1) d :=
      ⟨by show d < s₂.types.length; rw [k1]; exact h.settled.lt,
        by show _ → (d : Int) ∉ s₂.ics.drop _; rw [k2]; exact h.settled.listed, h.settled.counted⟩
    have hlt : d < s₂.cofsts.length := by rw [k3, h.cols.cofsts]; exact h.lt
    obtain ⟨hco, _, _⟩ := parseLoop_keeps hl hset
    obtain ⟨⟨e, he, hown⟩, _⟩ := has
    have hee : e = ((tok : Int) - mvals, (nx : Int) - mvals) := by
      rw [hco] at he
      simpa [Parsed.extent, hlt] using he.symm
    rw [hee] at hown
    have hend := ha.own_end hown (ha.get_next hnx)
    rw [hend] at hnx
    exact ha.next_iff.mp hnx

/-- One value that is not the last, flat, and what the rest of the row has to be. -/
theorem step_iff {n : Nat} {y : Value} {ys : List Value}
    (h : Taken q s s₁ numc (x.start p) x (y :: ys) c cs d t) {r' : Sds}
    (ha : At q.vals p x (',' :: r')) (hf : Flat x.lit.chars) (hm : mvals ≤ tok)
    (h1 : p ≤ tok) (h2 : tok ≤ x.start p) {good : Prop}
    (ih : ∀ s₂ : Parsed, s₂.types = s₁.types → s₂.ics = s₁.ics →
      s₂.cofsts.length = s₁.cofsts.length → (d = 0 → s₂.pk.isSome = true) →
      (d ≠ 0 → s₂.pk = s₁.pk) →
      ((∃ r, parseLoop q mvals n (numc + 1) (p + x.chars.length + 1)
          (skipFrom q.vals (p + x.chars.length + 1)) s₂ = .ok (some r) ∧
          Assigned q.vals mvals r (p + x.chars.length + 1) (y :: ys)
            (targets s₁.types.length cs)) ↔ good)) :
    (∃ r, parseLoop q mvals (n + 1) numc tok (x.start p) s = .ok (some r) ∧
        Assigned q.vals mvals r p (x :: y :: ys) (d :: targets s₁.types.length cs)) ↔
      (x.lit.isText = true → if c = 0 then x.lit.chars ≠ ['\'', '\''] else x.after = []) ∧
        good := by
  have hlt := x.start_lt p
  have hlc := x.length_chars p
  set nx := p + x.chars.length with hnx
  have hval := ha.validate (fun he => h.text.mp he) (Nat.le_add_right p x.before.length) le_rfl
    (show x.stop p ≤ nx by omega) le_rfl
  have hpn : parseInsertValListNextc q.vals (x.start p) t = some nx := by
    rw [parseInsertValListNextc, ha.next_iff.mpr hf]
    simp only [Option.filter_some]
    rw [if_pos (show validateParsedInsertVal q.vals t (x.start p) nx = true from hval)]
  have hown := ha.own (m := mvals) h1 h2 (show x.stop p ≤ nx by omega) le_rfl
  -- what a state keeps of this value
  have keeps : ∀ (s₂ : Parsed) {r : Parsed}, s₂.types = s₁.types → s₂.ics = s₁.ics →
      s₂.cofsts = s₁.cofsts →
      parseLoop q mvals n (numc + 1) (nx + 1) (skipFrom q.vals (nx + 1))
        (s₂.extent mvals d tok nx) = .ok (some r) →
      r.cofsts[d]? = some ((tok : Int) - mvals, (nx : Int) - mvals) ∧ r.types[d]? = some t ∧
        (d = 0 → s₂.pk.isSome → r.pk = s₂.pk) := by
    intro s₂ r k1 k2 k3 hl
    have hset : Settled q (s₂.extent mvals d tok nx) (numc + 1) d :=
      ⟨by show d < s₂.types.length; rw [k1]; exact h.settled.lt,
        by show _ → (d : Int) ∉ s₂.ics.drop _; rw [k2]; exact h.settled.listed, h.settled.counted⟩
    obtain ⟨hco, hty, hpk⟩ := parseLoop_keeps hl hset
    have hl' : d < s₂.cofsts.length := by rw [k3, h.cols.cofsts]; exact h.lt
    refine ⟨by rw [hco]; simp [Parsed.extent, hl'], ?_, hpk⟩
    rw [hty]
    show s₂.types[d]? = _
    rw [k1]
    exact h.type
  by_cases hd : d = 0
  · subst hd
    have hc : c = 0 := h.zero.mp rfl
    rcases ha.parse_pk rfl s₁ h.text h1 h2 with ⟨htx, hemp, hpk⟩ | ⟨k, hpk, hkey, hne⟩
    · -- an empty TEXT is no key
      have htt : t = .text := h.text.mpr htx
      have hnum : (s₁.types.head?).any CType.isNum = false := by
        rw [List.head?_eq_getElem?, h.type, htt]
        rfl
      have hnone : takePk q s₁ 0 t tok nx = .ok none := by
        rw [takePk, if_pos rfl, hpk, assignPk, if_pos rfl, hnum]
        rfl
      rw [parseLoop_next h.column hpn hnone]
      constructor
      · rintro ⟨r, hr, _⟩
        cases hr
      · rintro ⟨hx, _⟩
        have := hx htx
        rw [if_pos hc] at this
        exact absurd hemp this
    · have hsome : takePk q s₁ 0 t tok nx = .ok (some (s₁.keyed (.given k))) := by
        rw [takePk, if_pos rfl]
        exact hpk
      rw [parseLoop_next h.column hpn hsome]
      have ih' := ih ((s₁.keyed (.given k)).extent mvals 0 tok nx) rfl rfl
        (by simp [Parsed.extent, Parsed.keyed]) (fun _ => rfl) (fun hn => absurd rfl hn)
      rw [← ih']
      simp only
      constructor
      · rintro ⟨r, hr, _, _, has⟩
        refine ⟨fun htx => ?_, r, hr, has⟩
        rw [if_pos hc]
        exact hne htx
      · rintro ⟨_, r, hr, has⟩
        obtain ⟨hco, _, hpk'⟩ := keeps (s₁.keyed (.given k)) rfl rfl rfl hr
        refine ⟨r, hr, ⟨_, hco, hown⟩, ?_, has⟩
        rw [if_pos rfl, hpk' rfl rfl]
        exact hkey
  · have hc : c ≠ 0 := fun he => hd (h.zero.mpr he)
    have hsome : takePk q s₁ d t tok nx = .ok (some s₁) := by rw [takePk, if_neg hd]
    rw [parseLoop_next h.column hpn hsome]
    have ih' := ih (s₁.extent mvals d tok nx) rfl rfl (by simp [Parsed.extent])
      (fun he => absurd he hd) (fun _ => rfl)
    rw [← ih', if_neg hc]
    simp only
    have hst : ∀ {r : Parsed}, r.cofsts[d]? = some ((tok : Int) - mvals, (nx : Int) - mvals) →
        r.types[d]? = some t → ∀ body, x.lit = .text body →
          (StoredAs q.vals mvals r d body ↔ x.after = []) := by
      intro r hco hty body hl
      have htx : t = .text := h.text.mpr (Literal.isText_iff.mpr ⟨body, hl⟩)
      exact ha.stored_iff rfl (by decide) hd hm h1 h2 (.inl rfl) hco (by rw [← htx]; exact hty) hl
    constructor
    · rintro ⟨r, hr, _, hs, has⟩
      obtain ⟨hco, hty, _⟩ := keeps s₁ rfl rfl rfl hr
      refine ⟨fun htx => ?_, r, hr, has⟩
      obtain ⟨body, hl⟩ := Literal.isText_iff.mp htx
      rw [if_neg hd] at hs
      exact (hst hco hty body hl).mp (hs body hl)
    · rintro ⟨htx, r, hr, has⟩
      obtain ⟨hco, hty, _⟩ := keeps s₁ rfl rfl rfl hr
      refine ⟨r, hr, ⟨_, hco, hown⟩, ?_, has⟩
      rw [if_neg hd]
      intro body hl
      exact (hst hco hty body hl).mpr (htx (Literal.isText_iff.mpr ⟨body, hl⟩))

theorem At.of_listed {y : Value} {ys : List Value} {z : Sds}
    (h : q.vals.drop p = listed (x :: y :: ys) ++ z) :
    At q.vals p x (',' :: (listed (y :: ys) ++ z)) ∧
      q.vals.drop (p + x.chars.length + 1) = listed (y :: ys) ++ z := by
  have ha : At q.vals p x (',' :: (listed (y :: ys) ++ z)) := by
    rw [At, h, listed, if_neg (by simp)]
    simp
  refine ⟨ha, ?_⟩
  have hd : q.vals.drop p = x.chars ++ ',' :: (listed (y :: ys) ++ z) := ha
  rw [Nat.add_assoc, ← List.drop_drop, hd, List.drop_append]
  simp

/-- From any value on, the row comes out right if and only if it is clear. -/
theorem parseLoop_iff {m : Nat} {post : Sds} (hpost : post.all isBlank = true) :
    ∀ (xs : List Value) {x : Value} {n numc p tok : Nat} {s : Parsed} {c : Int} {cs : List Int},
      Cols q s numc (x :: xs) (c :: cs) → xs.length < n → m ≤ tok → p ≤ tok →
      tok ≤ x.start p → q.vals.drop p = listed (x :: xs) ++ ')' :: post →
      (s.pk.isSome = true ∨ 0 ∈ c :: cs ∨ (s.types.head?).any CType.isNum = true) →
      ((∃ r, parseLoop q m n numc tok (x.start p) s = .ok (some r) ∧
          Assigned q.vals m r p (x :: xs) (targets s.types.length (c :: cs))) ↔
        Clear q p (x :: xs) (c :: cs))
  | _, _, 0, _, _, _, _, _, _, _, hn, _, _, _, _, _ => absurd hn (Nat.not_lt_zero _)
  | [], x, n + 1, numc, p, tok, s, c, cs, hcols, _, hm, h1, h2, hv, hk => by
      have ha : At q.vals p x (')' :: post) := by
        rw [At, hv, listed, if_pos rfl, List.append_nil]
      have hcs : cs = [] := by
        have := hcols.count
        simpa using this
      subst hcs
      have hk' : s.pk.isSome = true ∨ c = 0 ∨ (s.types.head?).any CType.isNum = true := by
        rcases hk with hk | hk | hk
        · exact .inl hk
        · exact .inr (.inl (List.mem_singleton.mp hk).symm)
        · exact .inr (.inr hk)
      rcases hcols.column ha.drop_start with ⟨rfl, hnone, hcol⟩ | ⟨s₁, d, t, hT⟩
      · have hl : parseLoop q m (n + 1) numc tok (x.start p) s = .ok none := by
          simp only [parseLoop, hcol, bind, Except.bind, pure, Except.pure]
        rw [hl]
        constructor
        · rintro ⟨r, hr, _⟩
          cases hr
        · rintro ⟨_, _, hcl, _⟩
          have := hcl rfl
          rw [show p + x.before.length = x.start p from rfl, hnone] at this
          cases this
      · rw [hT.targets]
        constructor
        · rintro ⟨r, hr, has⟩
          have he := last_round hT ha hpost hr
          rw [parseLoop_last hT.column (by
            rw [parseInsertValListNextc, (ha.next_last_iff hpost).mpr he]; rfl)] at hr
          have := (last_iff hT ha hpost hm h1 h2 hk').mp ⟨r, hr, has⟩
          refine ⟨by rw [if_pos rfl]; exact he, fun htx => ?_, hT.typed, by simp [Clear]⟩
          simpa using this htx
        · rintro ⟨he, htx, _, _⟩
          rw [if_pos rfl] at he
          rw [parseLoop_last hT.column (by
            rw [parseInsertValListNextc, (ha.next_last_iff hpost).mpr he]; rfl)]
          exact (last_iff hT ha hpost hm h1 h2 hk').mpr fun h => by simpa using htx h
  | y :: ys, x, n + 1, numc, p, tok, s, c, cs, hcols, hn, hm, h1, h2, hv, hk => by
      obtain ⟨ha, hv'⟩ := At.of_listed hv
      have hlc := x.length_chars p
      have hlt := x.start_lt p
      rcases hcols.column ha.drop_start with ⟨rfl, hnone, hcol⟩ | ⟨s₁, d, t, hT⟩
      · have hl : parseLoop q m (n + 1) numc tok (x.start p) s = .ok none := by
          simp only [parseLoop, hcol, bind, Except.bind, pure, Except.pure]
        rw [hl]
        constructor
        · rintro ⟨r, hr, _⟩
          cases hr
        · rintro ⟨_, _, hcl, _⟩
          have := hcl rfl
          rw [show p + x.before.length = x.start p from rfl, hnone] at this
          cases this
      · obtain ⟨c', cs', rfl⟩ : ∃ c' cs', cs = c' :: cs' := by
          apply List.exists_cons_of_ne_nil
          rintro rfl
          have := hT.cols.count
          simp at this
        have hay : ∃ z, At q.vals (p + x.chars.length + 1) y z := by
          refine ⟨(if ys = [] then [] else ',' :: listed ys) ++ ')' :: post, ?_⟩
          rw [At, hv', listed, List.append_assoc]
        obtain ⟨z, hay⟩ := hay
        have hskip : skipFrom q.vals (p + x.chars.length + 1) = y.start (p + x.chars.length + 1) :=
          hay.skip le_rfl (Nat.le_add_right _ _)
        have ih : ∀ s₂ : Parsed, s₂.types = s₁.types → s₂.ics = s₁.ics →
            s₂.cofsts.length = s₁.cofsts.length → (d = 0 → s₂.pk.isSome = true) →
            (d ≠ 0 → s₂.pk = s₁.pk) →
            ((∃ r, parseLoop q m n (numc + 1) (p + x.chars.length + 1)
                (skipFrom q.vals (p + x.chars.length + 1)) s₂ = .ok (some r) ∧
                Assigned q.vals m r (p + x.chars.length + 1) (y :: ys)
                  (targets s₁.types.length (c' :: cs'))) ↔
              Clear q (p + x.chars.length + 1) (y :: ys) (c' :: cs')) := by
          intro s₂ k1 k2 k3 k4 k5
          have hC := hT.cols
          have hcols₂ : Cols q s₂ (numc + 1) (y :: ys) (c' :: cs') :=
            ⟨by rw [k2]; exact hC.rest, hC.count, hC.total, by rw [k1]; exact hC.types,
              by rw [k1]; exact hC.known, by rw [k1]; exact hC.room, by rw [k3]; exact hC.cofsts,
              hC.once, by rw [k1]; exact hC.fits⟩
          have hk₂ : s₂.pk.isSome = true ∨ 0 ∈ c' :: cs' ∨
              (s₂.types.head?).any CType.isNum = true := by
            by_cases hd : d = 0
            · exact .inl (k4 hd)
            · rw [k5 hd, hT.pk, k1, hT.head]
              rcases hk with hk | hk | hk
              · exact .inl hk
              · rcases List.mem_cons.mp hk with h0 | h0
                · exact absurd (hT.zero.mpr h0.symm) hd
                · exact .inr (.inl h0)
              · exact .inr (.inr hk)
          rw [hskip, ← k1]
          exact parseLoop_iff hpost ys hcols₂ (by simpa using hn) (by omega) le_rfl
            (Nat.le_add_right _ _) hv' hk₂
        rw [hT.targets]
        constructor
        · rintro ⟨r, hr, has⟩
          have hf := inner_round hT ha hr has
          obtain ⟨htx, hcl⟩ := (step_iff hT ha hf hm h1 h2 ih).mp ⟨r, hr, has⟩
          refine ⟨by rw [if_neg (by simp)]; exact hf, fun h => ?_, hT.typed, hcl⟩
          have := htx h
          split at this
          · rename_i hc
            rw [if_pos hc]
            exact ⟨by simp, this⟩
          · rename_i hc
            rw [if_neg hc]
            exact this
        · rintro ⟨hf, htx, _, hcl⟩
          rw [if_neg (by simp)] at hf
          refine (step_iff hT ha hf hm h1 h2 ih).mpr ⟨fun h => ?_, hcl⟩
          have := htx h
          split at this
          · rename_i hc
            rw [if_pos hc]
            exact this.2
          · rename_i hc
            rw [if_neg hc]
            exact this

theorem length_le_listed : ∀ xs : List Value, xs.length ≤ (listed xs).length
  | [] => le_rfl
  | x :: xs => by
      have ih := length_le_listed xs
      have hx : 0 < x.chars.length := by
        have := x.length_chars 0
        have := x.start_lt 0
        omega
      rw [listed, List.length_append, List.length_cons]
      split
      · rename_i he
        subst he
        simpa [Nat.succ_le_iff] using hx
      · rw [List.length_cons]
        omega

/-- An INSERT comes out right if and only if its row is clear. -/
theorem insert_splits_iff {types : List CType} {ics : List Int} {pre post : Sds}
    (h : Inserts q types ics pre xs post) :
    Splits q types ics pre xs ↔ Clear q (pre.length + 1) xs (columns q ics) := by
  obtain ⟨x, xs, rfl⟩ := List.exists_cons_of_ne_nil h.some_value
  obtain ⟨c, cs, hcs⟩ : ∃ c cs, columns q ics = c :: cs := by
    apply List.exists_cons_of_ne_nil
    intro he
    have := h.count
    rw [he] at this
    simp at this
  have hopen : skipFrom q.vals 0 = pre.length := by
    have := skipFrom_blanks (v := q.vals) (p := 0) (by rw [List.drop_zero]; exact h.vals)
      h.blank_pre (by decide)
    simpa using this
  have hparen : q.vals[pre.length]? = some '(' := by
    rw [h.vals]
    simp
  have hdrop : q.vals.drop (pre.length + 1) = listed (x :: xs) ++ ')' :: post := by
    rw [h.vals, List.drop_append]
    simp
  have hclose : q.vals = (pre ++ '(' :: listed (x :: xs)) ++ ')' :: post := by
    rw [h.vals]
    simp
  obtain ⟨hrev, hpar⟩ := rev_skip_end hclose (by decide) h.blank_post
  have hat : ∃ w, At q.vals (pre.length + 1) x w := by
    refine ⟨(if xs = [] then [] else ',' :: listed xs) ++ ')' :: post, ?_⟩
    rw [At, hdrop, listed, List.append_assoc]
  obtain ⟨w, hat⟩ := hat
  have hmv : skipFrom q.vals (pre.length + 1) = x.start (pre.length + 1) :=
    hat.skip le_rfl (Nat.le_add_right _ _)
  have hfuel : xs.length < q.vals.length + 1 := by
    have := length_le_listed (x :: xs)
    have hl := congrArg List.length hclose
    simp only [List.length_append, List.length_cons] at hl this
    omega
  have htypes : types ≠ [] := by
    rintro rfl
    rcases h.key with hk | hk
    · have := (h.known 0 hk).2
      simp at this
    · cases hk
  have htotal : 0 + (x :: xs).length = q.total := by
    rw [← h.count, columns, Request.total]
    split
    · rename_i hp
      rw [h.pcols hp]
      omega
    · simp
  have hcols : Cols q ⟨types, ics, List.replicate q.ncols (-1, -1), none⟩ 0 (x :: xs) (c :: cs) :=
    ⟨by rw [List.drop_zero]; exact hcs, by rw [← hcs]; exact h.count, htotal, htypes,
      by rw [← hcs]; exact h.known, by rw [← hcs]; exact h.room, by simp,
      by rw [← hcs]; exact h.once, by rw [← hcs]; exact h.fits⟩
  have hloop := parseLoop_iff (m := x.start (pre.length + 1)) h.blank_post xs hcols hfuel le_rfl
    (Nat.le_add_right _ _) le_rfl hdrop (by
      rcases h.key with hk | hk
      · exact .inr (.inl (by rw [← hcs]; exact hk))
      · exact .inr (.inr hk))
  rw [hcs, ← hloop, Splits, hcs]
  have hparse : parseRowVals q types ics =
      (parseLoop q (x.start (pre.length + 1)) (q.vals.length + 1) 0 (x.start (pre.length + 1))
        (x.start (pre.length + 1)) ⟨types, ics, List.replicate q.ncols (-1, -1), none⟩).map
        (fun o => o.map (x.start (pre.length + 1), ·)) := by
    simp only [parseRowVals, hopen, hparen, hrev, hpar, hmv, true_and, if_true, bind, Except.bind,
      pure, Except.pure, Except.map]
  rw [hparse]
  constructor
  · rintro ⟨mvals, r, hr, has⟩
    cases hl : parseLoop q (x.start (pre.length + 1)) (q.vals.length + 1) 0
        (x.start (pre.length + 1)) (x.start (pre.length + 1))
        ⟨types, ics, List.replicate q.ncols (-1, -1), none⟩ with
    | error e => rw [hl] at hr; cases hr
    | ok o =>
        rw [hl] at hr
        cases o with
        | none => cases hr
        | some r' =>
            obtain ⟨rfl, rfl⟩ : x.start (pre.length + 1) = mvals ∧ r' = r := by
              simpa [Except.map] using hr
            exact ⟨_, rfl, has⟩
  · rintro ⟨r, hr, has⟩
    exact ⟨_, r, by rw [hr]; rfl, has⟩

/-! ## Two rows -/

/-- A table with an INT key, a LUATABLE and a TEXT. -/
def threeCols : List CType := [.int, .luatable, .text]

def threeValues (vals : String) : Request := ⟨vals.toList, 3, 3, 0, fun _ => .err⟩

def plainValue (l : Literal) (h : l.Wf) : Value := ⟨[], l, [], rfl, rfl, h⟩

/-- The values `7`, a call of `f` and `'it'`. -/
def callRow (args : String) : List Value :=
  [plainValue (.number ['7']) ⟨by simp, List.forall_mem_singleton.2 (by decide)⟩,
    plainValue (.call ['f'] args.toList) ⟨by simp, List.forall_mem_singleton.2 (by decide)⟩,
    plainValue (.text ['i', 't'])
      (.chr (by decide) (by decide) (.chr (by decide) (by decide) .nil))]

theorem columns_three (vals : String) : columns (threeValues vals) [] = [0, 1, 2] := rfl

theorem callRow_inserts {vals args : String}
    (h : vals.toList = '(' :: (listed (callRow args) ++ [')'])) :
    Inserts (threeValues vals) threeCols [] [] (callRow args) [] where
  vals := h
  blank_pre := rfl
  blank_post := rfl
  some_value := by simp [callRow]
  pcols := fun h => absurd rfl h
  count := rfl
  known := by rw [columns_three]; decide
  room := rfl
  once := by rw [columns_three]; decide
  fits := by
    rw [columns_three]
    simp [callRow, plainValue, threeCols, Literal.isText]
  key := .inl (by rw [columns_three]; decide)

theorem insert_splits_call :
    Splits (threeValues "(7,f(1,2),'it')") threeCols [] [] (callRow "1,2") := by
  refine (insert_splits_iff (callRow_inserts (by decide))).mpr ?_
  rw [columns_three]
  refine ⟨?_, ?_, by decide, ?_, ?_, by decide, ?_, ?_, by decide, trivial⟩
  · exact .chr (by decide) (by decide) .nil
  · intro h; cases h
  · exact .chr (by decide) (by decide) (.stretch (b := ['1', ',', '2']) (s := []) rfl rfl .nil)
  · intro h; cases h
  · exact (flat_text (.chr (by decide) (by decide) (.chr (by decide) (by decide) .nil))).ends
  · intro _; rfl

/-- Of `f(g(2),3)` the inner parenthesis is taken for the end of the call. -/
theorem insert_splits_nested :
    ∃ q types xs, Inserts q types [] [] xs [] ∧ ¬ Splits q types [] [] xs := by
  refine ⟨threeValues "(7,f(g(2),3),'it')", threeCols, callRow "g(2),3",
    callRow_inserts (by decide), ?_⟩
  rintro ⟨mvals, r, hr, _⟩
  have hnull : parseRowVals (threeValues "(7,f(g(2),3),'it')") threeCols [] = .ok none := by
    decide
  rw [hnull] at hr
  cases hr

end AlchemyDB.Text
