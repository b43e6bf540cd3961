/-
# Each column its own value

A row of values as a user writes it, the extents `parseRowVals` gives its columns and
what `createRow` stores of them.  The rows that come out right are those of `Clear`:
nothing nested confuses the scan, no blank follows a TEXT that is stored, and a TEXT
key is neither empty nor last.
-/
import AlchemyDB.Text.Splitting
import AlchemyDB.Catalog.Slots

namespace AlchemyDB.Text

open Catalog

/-! ## Rows of values -/

inductive Literal where
  | number (s : Sds)
  | text (body : Sds)
  | call (fname args : Sds)
  | object (fields : Sds)

namespace Literal

def chars : Literal → Sds
  | number s => s
  | text body => '\'' :: (body ++ ['\''])
  | call fname args => fname ++ '(' :: (args ++ [')'])
  | object fields => '{' :: (fields ++ ['}'])

def isText : Literal → Bool
  | text _ => true
  | _ => false

theorem isText_iff {l : Literal} : l.isText = true ↔ ∃ body, l = .text body := by
  cases l <;> simp [isText]

/-- Characters of numbers and of names. -/
def word (c : Char) : Bool := c.isAlphanum || c ∈ ['+', '-', '.', '|', '_', ':']

/-- What stands between parentheses or braces is open. -/
def Wf : Literal → Prop
  | number s => s ≠ [] ∧ ∀ c ∈ s, word c = true
  | text body => Escaped body
  | call fname _ => fname ≠ [] ∧ ∀ c ∈ fname, word c = true
  | object _ => True

end Literal

/-- A value and the blanks around it. -/
structure Value where
  before : Sds
  lit : Literal
  after : Sds
  blank_before : before.all isBlank = true
  blank_after : after.all isBlank = true
  wf : lit.Wf

def Value.chars (x : Value) : Sds := x.before ++ (x.lit.chars ++ x.after)

/-- The values with commas between them. -/
def listed : List Value → Sds
  | [] => []
  | x :: xs => x.chars ++ if xs = [] then [] else ',' :: listed xs

/-- The columns that the values are for, by number; `-1` for one the table does not have. -/
def columns (q : Request) (ics : List Int) : List Int :=
  if q.pcols ≠ 0 then ics else (List.range q.lncols).map Int.ofNat

/-- The numbers that the columns get in a table of `n` columns. -/
def targets : Nat → List Int → List Nat
  | _, [] => []
  | n, c :: cs => if c = -1 then n :: targets (n + 1) cs else c.toNat :: targets n cs

/-- An INSERT of the values `xs` in parentheses, one for each column, each column once.  A TEXT is
for a TEXT column and for no other, and the primary key is there or is a number. -/
structure Inserts (q : Request) (types : List CType) (ics : List Int) (pre : Sds)
    (xs : List Value) (post : Sds) : Prop where
  vals : q.vals = pre ++ '(' :: (listed xs ++ ')' :: post)
  blank_pre : pre.all isBlank = true
  blank_post : post.all isBlank = true
  some_value : xs ≠ []
  pcols : q.pcols ≠ 0 → q.pcols = ics.length
  count : (columns q ics).length = xs.length
  known : ∀ c ∈ columns q ics, -1 ≤ c ∧ c < types.length
  room : q.ncols = types.length + ((columns q ics).filter (· = -1)).length
  once : ((columns q ics).filter (· ≠ -1)).Nodup
  fits : ∀ e ∈ (columns q ics).zip xs, e.1 ≠ -1 →
    (types[e.1.toNat]? = some .text ↔ e.2.lit.isText = true)
  key : 0 ∈ columns q ics ∨ (types.head?).any CType.isNum = true

/-! ## What is wanted -/

/-- The extent `e` holds the text at `start` of length `len`, and blanks. -/
structure Own (v : Sds) (mvals : Nat) (e : Int × Int) (start len : Nat) : Prop where
  starts : (mvals : Int) + e.1 ≤ start
  reaches : (start : Int) + len ≤ mvals + e.2
  front : ∀ i : Nat, (mvals : Int) + e.1 ≤ i → i < start → (v[i]?).any isBlank = true
  back : ∀ i : Nat, start + len ≤ i → (i : Int) < mvals + e.2 → (v[i]?).any isBlank = true

/-- The key is the text between the quotes, or the literal up to blanks in front of it. -/
def KeyOf (l : Literal) (pk : Option Key) : Prop :=
  ∃ s, pk = some (.given s) ∧ match l with
    | .text body => s = body
    | l => skipSpaces s = l.chars

/-- The column is stored with the characters between the quotes. -/
def StoredAs (v : Sds) (mvals : Nat) (r : Parsed) (c : Nat) (body : Sds) : Prop :=
  ∃ d, (createRow v mvals r.types r.cofsts)[c - 1]? = some d ∧ d.text v = some body

/-- Each column has the extent of its own literal, the first of which is the value at `p`, and a
TEXT column is stored as it was written. -/
def Assigned (v : Sds) (mvals : Nat) (r : Parsed) : Nat → List Value → List Nat → Prop
  | p, x :: xs, c :: cs =>
      (∃ e, r.cofsts[c]? = some e ∧ Own v mvals e (p + x.before.length) x.lit.chars.length) ∧
      (if c = 0 then KeyOf x.lit r.pk
        else ∀ body, x.lit = .text body → StoredAs v mvals r c body) ∧
      Assigned v mvals r (p + x.chars.length + 1) xs cs
  | _, _, _ => True

/-- `parseRowVals` and `createRow` do so. -/
def Splits (q : Request) (types : List CType) (ics : List Int) (pre : Sds) (xs : List Value) :
    Prop :=
  ∃ mvals r, parseRowVals q types ics = .ok (some (mvals, r)) ∧
    Assigned q.vals mvals r (pre.length + 1) xs (targets types.length (columns q ics))

/-- The rows that come out right, from the value at `p` on. -/
def Clear (q : Request) : Nat → List Value → List Int → Prop
  | p, x :: xs, c :: cs =>
      (if xs = [] then Ends x.lit.chars else Flat x.lit.chars) ∧
      (x.lit.isText = true →
        if c = 0 then xs ≠ [] ∧ x.lit.chars ≠ ['\'', '\''] else x.after = []) ∧
      (c = -1 → (determineColType q (p + x.before.length)).isSome) ∧
      Clear q (p + x.chars.length + 1) xs cs
  | _, _, _ => True

/-! ## Literals -/

theorem closing_word {c : Char} (h : Literal.word c = true) :
    closing c = none ∧ c ≠ ',' ∧ isBlank c = false := by
  have hc : ∀ d : Char, Literal.word d = false → c ≠ d := by
    intro d hd he
    rw [he, hd] at h
    cases h
  have h1 := hc '\'' (by decide)
  have h2 := hc '(' (by decide)
  have h3 := hc '{' (by decide)
  have h4 := hc ',' (by decide)
  have h5 := hc ' ' (by decide)
  have h6 := hc '\t' (by decide)
  simp [closing, isBlank, h1, h2, h3, h4, h5, h6]

/-- A literal begins and ends with characters that are no blanks. -/
theorem Literal.Wf.edges {l : Literal} (h : l.Wf) :
    (∃ c s, l.chars = c :: s ∧ isBlank c = false ∧ (c = '\'' ↔ l.isText = true)) ∧
      ∃ s c, l.chars = s ++ [c] ∧ isBlank c = false := by
  cases l with
  | number s =>
      obtain ⟨hs, hw⟩ := h
      constructor
      · obtain ⟨c, s', rfl⟩ := List.exists_cons_of_ne_nil hs
        have hc := closing_word (hw c List.mem_cons_self)
        refine ⟨c, s', rfl, hc.2.2, ?_⟩
        constructor
        · rintro rfl
          cases hc.1
        · intro ht
          cases ht
      · refine ⟨s.dropLast, s.getLast hs, (List.dropLast_append_getLast hs).symm, ?_⟩
        exact (closing_word (hw _ (List.getLast_mem hs))).2.2
  | text body =>
      exact ⟨⟨'\'', _, rfl, by decide, by simp [isText]⟩, ⟨'\'' :: body, '\'', by simp [chars],
        by decide⟩⟩
  | call fname args =>
      obtain ⟨hs, hw⟩ := h
      constructor
      · obtain ⟨c, s', rfl⟩ := List.exists_cons_of_ne_nil hs
        have hc := closing_word (hw c List.mem_cons_self)
        refine ⟨c, s' ++ '(' :: (args ++ [')']), rfl, hc.2.2, ?_⟩
        constructor
        · rintro rfl
          cases hc.1
        · intro ht
          cases ht
      · exact ⟨fname ++ '(' :: args, ')', by simp [chars], by decide⟩
  | object fields =>
      exact ⟨⟨'{', _, rfl, by decide, by simp [isText]⟩, ⟨'{' :: fields, '}', by simp [chars],
        by decide⟩⟩

theorem flat_text {body : Sds} (h : Escaped body) : Flat (Literal.text body).chars :=
  Flat.stretch (b := body) (s := []) rfl h.closed .nil

/-! ## Pointers -/

theorem skipFrom_blanks {v b r : Sds} {p : Nat} {c : Char} (h : v.drop p = b ++ c :: r)
    (hb : b.all isBlank = true) (hc : isBlank c = false) : skipFrom v p = p + b.length := by
  rw [skipFrom, h, List.takeWhile_append_of_pos (List.all_eq_true.mp hb)]
  simp [hc]

theorem revSkipFrom_stop {v : Sds} {p : Nat} {c : Char} (h : v[p]? = some c)
    (hc : isBlank c = false) : revSkipFrom v p = p := by
  cases p with
  | zero => rfl
  | succ p => simp [revSkipFrom, h, hc]

theorem revSkipFrom_blanks {v : Sds} {p : Nat} {c : Char} (hc : v[p]? = some c)
    (hb : isBlank c = false) : ∀ {n : Nat},
    (∀ i, p < i → i ≤ p + n → (v[i]?).all isBlank = true) → revSkipFrom v (p + n) = p
  | 0, _ => revSkipFrom_stop hc hb
  | n + 1, h => by
      rw [← Nat.add_assoc, revSkipFrom, if_pos (h _ (by omega) (by omega))]
      exact revSkipFrom_blanks hc hb fun i hi hn => h i hi (by omega)

/-! ## One round of the loop -/

variable {q : Request}

/-- The key alone is changed. -/
def Parsed.keyed (s : Parsed) (k : Key) : Parsed := { s with pk := some k }

theorem assignPk_some {s s' : Parsed} {p : Nat} {l : Int} (h : assignPk q s p l = .ok (some s')) :
    ∃ k, s' = s.keyed k := by
  unfold assignPk at h
  split at h
  · split at h
    · cases h; exact ⟨_, rfl⟩
    · cases h
  · split at h
    · cases h
    · cases h; exact ⟨_, rfl⟩

theorem parsePk_some {s s' : Parsed} {ctype : CType} {token nextc : Nat}
    (h : parsePk q s ctype token nextc = .ok (some s')) : ∃ k, s' = s.keyed k := by
  simp only [parsePk] at h
  split at h
  · split at h
    · exact assignPk_some h
    · cases h
  · exact assignPk_some h

theorem lastPk_some {s s' : Parsed} {c token nextc : Nat}
    (h : lastPk q s c token nextc = .ok (some s')) :
    s'.types = s.types ∧ s'.cofsts = s.cofsts ∧ (c ≠ 0 → s.pk.isSome → s'.pk = s.pk) := by
  unfold lastPk at h
  split at h
  · obtain ⟨k, rfl⟩ := assignPk_some h
    rename_i hc
    exact ⟨rfl, rfl, fun hn => absurd hc hn⟩
  · split at h
    · rename_i hp
      obtain ⟨k, rfl⟩ := assignPk_some h
      refine ⟨rfl, rfl, fun _ hs => ?_⟩
      rw [hp] at hs
      cases hs
    · cases h
      exact ⟨rfl, rfl, fun _ _ => rfl⟩

theorem lastValue_some {mvals numc token : Nat} {s r : Parsed}
    (h : lastValue q mvals numc token s = .ok (some r)) :
    ∃ (c : Int) (e : Int × Int), cmatchOf q s numc = .ok c ∧ r.types = s.types ∧
      r.cofsts = s.cofsts.set c.toNat e ∧ (c.toNat ≠ 0 → s.pk.isSome → r.pk = s.pk) ∧
      numc + 1 = q.total := by
  unfold lastValue at h
  obtain ⟨c, hc, h⟩ := bind_ok h
  simp only at h
  split at h
  · cases h
  · split at h
    · obtain ⟨s', hs', h⟩ := bind_ok h
      cases s' with
      | none => cases h
      | some s' =>
          simp only [pure, Except.pure, Except.ok.injEq, Option.filter_eq_some_iff,
            Option.some.injEq, decide_eq_true_eq] at h
          obtain ⟨rfl, ht⟩ := h
          obtain ⟨h1, h2, h3⟩ := lastPk_some hs'
          exact ⟨c, _, hc, h1, h2, h3, ht⟩
    · cases h

/-- A round of the loop that ends with a row: the last one, or one with another after it. -/
theorem parseLoop_some {mvals n numc token nextc : Nat} {s r : Parsed}
    (h : parseLoop q mvals (n + 1) numc token nextc s = .ok (some r)) :
    ∃ s₁ c t, columnAt q s numc nextc = .ok (some (s₁, c, t)) ∧
      ((parseInsertValListNextc q.vals nextc t = none ∧
          lastValue q mvals numc token s₁ = .ok (some r)) ∨
        ∃ nx s₂, parseInsertValListNextc q.vals nextc t = some nx ∧
          takePk q s₁ c t token nx = .ok (some s₂) ∧
          parseLoop q mvals n (numc + 1) (nx + 1) (skipFrom q.vals (nx + 1))
            (s₂.extent mvals c token nx) = .ok (some r)) := by
  rw [parseLoop] at h
  obtain ⟨o, ho, h⟩ := bind_ok h
  cases o with
  | none => cases h
  | some o =>
      obtain ⟨s₁, c, t⟩ := o
      refine ⟨s₁, c, t, ho, ?_⟩
      simp only at h
      split at h
      · rename_i hp
        exact .inl ⟨hp, h⟩
      · rename_i nx hp
        obtain ⟨s₂, hs₂, h⟩ := bind_ok h
        cases s₂ with
        | none => cases h
        | some s₂ => exact .inr ⟨nx, s₂, hp, hs₂, h⟩

/-- The number of the next column, and its type. -/
theorem columnAt_some {s s₁ : Parsed} {numc nextc c : Nat} {t : CType}
    (h : columnAt q s numc nextc = .ok (some (s₁, c, t))) :
    (cmatchOf q s numc = .ok (-1) ∧ determineColType q nextc = some t ∧ c = s.types.length ∧
        s₁ = { s with types := s.types ++ [t], ics := s.ics.set numc s.types.length }) ∨
      (cmatchOf q s numc = .ok c ∧ c < q.ncols ∧ s.types[c]? = some t ∧ s₁ = s) := by
  unfold columnAt at h
  obtain ⟨m, hm, h⟩ := bind_ok h
  simp only [pure, Except.pure] at h
  split at h
  · cases h
  · rename_i hr
    obtain ⟨hr1, hr2⟩ := not_or.mp hr
    split at h
    · rename_i he
      split at h
      · cases h
      · rename_i t' ht
        cases h
        subst he
        exact .inl ⟨hm, ht, rfl, rfl⟩
    · rename_i he
      split at h
      · cases h
      · rename_i t' ht
        cases h
        have hn : ((m.toNat : Nat) : Int) = m := Int.toNat_of_nonneg (by omega)
        exact .inr ⟨by rw [hm, hn], by omega, ht, rfl⟩

theorem takePk_some {s s' : Parsed} {c token nextc : Nat} {t : CType}
    (h : takePk q s c t token nextc = .ok (some s')) :
    s'.types = s.types ∧ s'.ics = s.ics ∧ s'.cofsts = s.cofsts ∧
      (c ≠ 0 → s' = s) ∧ (c = 0 → s'.pk.isSome) := by
  unfold takePk at h
  split at h
  · rename_i hc
    obtain ⟨k, rfl⟩ := parsePk_some h
    exact ⟨rfl, rfl, rfl, fun hn => absurd hc hn, fun _ => rfl⟩
  · rename_i hc
    cases h
    exact ⟨rfl, rfl, rfl, fun _ => rfl, fun he => absurd he hc⟩

/-! ## What later rounds leave alone -/

/-- No later value is for column `c`. -/
structure Settled (q : Request) (s : Parsed) (numc c : Nat) : Prop where
  lt : c < s.types.length
  listed : q.pcols ≠ 0 → (c : Int) ∉ s.ics.drop numc
  counted : q.pcols = 0 → c < numc

theorem cmatchOf_cases {s : Parsed} {numc : Nat} {c : Int} (h : cmatchOf q s numc = .ok c) :
    (q.pcols ≠ 0 ∧ s.ics[numc]? = some c) ∨ (q.pcols = 0 ∧ c = numc) := by
  unfold cmatchOf at h
  split at h
  · rename_i hp
    split at h
    · rename_i c' hc
      cases h
      exact .inl ⟨hp, hc⟩
    · cases h
  · rename_i hp
    cases h
    exact .inr ⟨by simpa using hp, rfl⟩

theorem Settled.ne {s : Parsed} {numc c : Nat} {m : Int} (h : Settled q s numc c)
    (hm : cmatchOf q s numc = .ok m) : m ≠ c := by
  rcases cmatchOf_cases hm with ⟨hp, hi⟩ | ⟨hp, rfl⟩
  · rintro rfl
    apply h.listed hp
    rw [List.mem_drop_iff_getElem]
    obtain ⟨hl, he⟩ := List.getElem?_eq_some_iff.mp hi
    exact ⟨0, by simpa using hl, by simpa using he⟩
  · have := h.counted hp
    omega

theorem not_mem_drop_succ {l : List Int} {n : Nat} {c : Int} (h : c ∉ l.drop n) :
    c ∉ l.drop (n + 1) := fun hm => h (List.mem_of_mem_drop (by rwa [List.drop_drop]))

theorem Settled.column {s s₁ : Parsed} {numc nextc c d : Nat} {t : CType}
    (h : Settled q s numc d) (hc : columnAt q s numc nextc = .ok (some (s₁, c, t))) :
    c ≠ d ∧ Settled q s₁ (numc + 1) d ∧ s₁.cofsts = s.cofsts ∧ s₁.pk = s.pk ∧
      s₁.types[d]? = s.types[d]? ∧ cmatchOf q s₁ numc = .ok c := by
  rcases columnAt_some hc with ⟨hm, _, rfl, rfl⟩ | ⟨hm, _, _, rfl⟩
  · have hlt := h.lt
    have hp : q.pcols ≠ 0 := by
      rcases cmatchOf_cases hm with ⟨hp, _⟩ | ⟨_, he⟩
      · exact hp
      · omega
    have hi : numc < s.ics.length := by
      rcases cmatchOf_cases hm with ⟨_, hi⟩ | ⟨hp', _⟩
      · exact (List.getElem?_eq_some_iff.mp hi).1
      · exact absurd hp' hp
    refine ⟨by omega, ⟨by simp; omega, fun _ => ?_, fun hp' => absurd hp' hp⟩, rfl, rfl, ?_, ?_⟩
    · show (d : Int) ∉ (s.ics.set numc _).drop (numc + 1)
      rw [List.drop_set_of_lt (by omega)]
      exact not_mem_drop_succ (h.listed hp)
    · exact List.getElem?_append_left hlt
    · simp [cmatchOf, hp, hi]
  · refine ⟨fun he => h.ne hm (by rw [he]), ⟨h.lt, fun hp => not_mem_drop_succ (h.listed hp), fun hp => ?_⟩,
      rfl, rfl, rfl, hm⟩
    have := h.counted hp
    omega

/-- What a row holds for a column that no later value is for. -/
theorem parseLoop_keeps {mvals c : Nat} : ∀ {n numc token nextc : Nat} {s r : Parsed},
    parseLoop q mvals n numc token nextc s = .ok (some r) → Settled q s numc c →
      r.cofsts[c]? = s.cofsts[c]? ∧ r.types[c]? = s.types[c]? ∧
        (c = 0 → s.pk.isSome → r.pk = s.pk)
  | 0, _, _, _, _, _, h, _ => by cases h
  | n + 1, numc, token, nextc, s, r, h, hs => by
      obtain ⟨s₁, d, t, hc, h⟩ := parseLoop_some h
      obtain ⟨hne, hs₁, hco, hpk, hty, hm⟩ := hs.column hc
      rcases h with ⟨_, h⟩ | ⟨nx, s₂, _, hk, h⟩
      · obtain ⟨m, e, hm', h1, h2, h3, _⟩ := lastValue_some h
        have hmd : m = d := by
          rw [hm] at hm'
          exact (Except.ok.inj hm').symm
        subst hmd
        refine ⟨?_, by rw [h1, hty], fun hc0 hp => ?_⟩
        · rw [h2, hco, List.getElem?_set_ne (by simpa using hne)]
        · rw [h3 (by simpa using (fun he : d = 0 => hne (he.trans hc0.symm))) (by rwa [hpk]), hpk]
      · obtain ⟨k1, k2, k3, k4, _⟩ := takePk_some hk
        have hs₂ : Settled q (s₂.extent mvals d token nx) (numc + 1) c :=
          ⟨by show c < s₂.types.length; rw [k1]; exact hs₁.lt,
            by show _ → (c : Int) ∉ s₂.ics.drop _; rw [k2]; exact hs₁.listed, hs₁.counted⟩
        obtain ⟨i1, i2, i3⟩ := parseLoop_keeps h hs₂
        refine ⟨?_, ?_, fun hc0 hp => ?_⟩
        · rw [i1]
          show (s₂.cofsts.set d _)[c]? = _
          rw [List.getElem?_set_ne hne, k3, hco]
        · rw [i2]
          show s₂.types[c]? = _
          rw [k1, hty]
        · have h2 : s₂ = s₁ := k4 (fun he => hne (he.trans hc0.symm))
          rw [i3 hc0 (by show s₂.pk.isSome; rw [h2, hpk]; exact hp)]
          show s₂.pk = _
          rw [h2, hpk]

/-- A row comes out only if there are values left to read. -/
theorem parseLoop_count {mvals : Nat} : ∀ {n numc token nextc : Nat} {s r : Parsed},
    parseLoop q mvals n numc token nextc s = .ok (some r) → numc < q.total
  | 0, _, _, _, _, _, h => by cases h
  | n + 1, numc, token, nextc, s, r, h => by
      obtain ⟨s₁, d, t, _, h⟩ := parseLoop_some h
      rcases h with ⟨_, h⟩ | ⟨nx, s₂, _, _, h⟩
      · obtain ⟨_, _, _, _, _, _, ht⟩ := lastValue_some h
        omega
      · have := parseLoop_count h
        omega

end AlchemyDB.Text
