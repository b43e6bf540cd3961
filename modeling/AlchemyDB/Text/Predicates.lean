/-
# Predicates of a WHERE clause

The clauses a user may write, with the blanks and the case of the keywords, and those
among them that `parseWC` takes apart rightly (`Clean`): an odd run of blanks before
every keyword; no empty text, except as the very end; no second bound of a BETWEEN
right behind its ` AND `; parentheses that pair up in the texts of an IN.
-/
import AlchemyDB.Text.Keyword

namespace AlchemyDB.Text

open Catalog

/-! ## Clauses -/

inductive Lit where
  | num (s : Sds)
  | txt (body : Sds)

namespace Lit

def chars : Lit → Sds
  | num s => s
  | txt body => '\'' :: (body ++ ['\''])

/-- What a filter holds of a literal. -/
def value : Lit → Sds
  | num s => s
  | txt body => body

def isTxt : Lit → Bool
  | num _ => false
  | txt _ => true

def numeric (c : Char) : Bool := c.isDigit || c ∈ ['+', '-', '.', '|', 'e', 'E']

/-- A number begins with no letter; in a text quotes and backslashes are escaped. -/
def Wf : Lit → Prop
  | num s => (∀ c ∈ s, numeric c = true) ∧ ∃ c r, s = c :: r ∧ c.isAlpha = false
  | txt body => Escaped body

/-- Not the empty text. -/
def Full : Lit → Prop
  | num _ => True
  | txt body => body ≠ []

end Lit

/-- A literal of an IN list, with the blanks around it. -/
structure Item where
  before : Nat
  lit : Lit
  after : Nat

def Item.chars (x : Item) : Sds := sp x.before ++ (x.lit.chars ++ sp x.after)

/-- `(a, b, c)`. -/
def listChars (x : Item) (xs : List Item) : Sds :=
  '(' :: (x.chars ++ (xs.flatMap (fun y => ',' :: y.chars) ++ [')']))

/-- A predicate.  The numbers count blanks, and the keywords stand as they are written. -/
inductive Pred where
  | eq (col : Sds) (n₁ n₂ : Nat) (v : Lit)
  | between (col : Sds) (n₁ : Nat) (kw : Sds) (n₂ : Nat) (lo : Lit) (n₃ : Nat) (kand : Sds)
      (n₄ : Nat) (hi : Lit)
  | isIn (col : Sds) (n₁ : Nat) (kw : Sds) (n₂ : Nat) (x : Item) (xs : List Item)

namespace Pred

def col : Pred → Sds
  | eq c .. => c
  | between c .. => c
  | isIn c .. => c

def lits : Pred → List Lit
  | eq _ _ _ v => [v]
  | between _ _ _ _ lo _ _ _ hi => [lo, hi]
  | isIn _ _ _ _ x xs => (x :: xs).map Item.lit

def chars : Pred → Sds
  | eq c n₁ n₂ v => c ++ (sp n₁ ++ '=' :: (sp n₂ ++ v.chars))
  | between c n₁ kw n₂ lo n₃ kand n₄ hi =>
      c ++ (sp n₁ ++ (kw ++ (sp n₂ ++ (lo.chars ++ (sp n₃ ++ (kand ++ (sp n₄ ++ hi.chars)))))))
  | isIn c n₁ kw n₂ x xs => c ++ (sp n₁ ++ (kw ++ (sp n₂ ++ listChars x xs)))

/-- Characters of a column's name. -/
def nameChar (c : Char) : Bool := c.isAlphanum || c ∈ ['_', '.', ':']

/-- The keywords are spelled in any case and have blanks around them. -/
def Wf (p : Pred) : Prop :=
  p.col ≠ [] ∧ (∀ c ∈ p.col, nameChar c = true) ∧ (∀ l ∈ p.lits, l.Wf) ∧
    match p with
    | eq .. => True
    | between _ n₁ kw n₂ _ n₃ kand n₄ _ =>
        0 < n₁ ∧ spells "BETWEEN" kw ∧ 0 < n₂ ∧ 0 < n₃ ∧ spells "AND" kand ∧ 0 < n₄
    | isIn _ n₁ kw n₂ _ _ => 0 < n₁ ∧ spells "IN" kw ∧ 0 < n₂

/-- The column is known, and TEXT is compared with texts. -/
def Typed (w : Wc) (p : Pred) : Prop :=
  ∃ n t, w.pif p.col = some (n, t) ∧ ∀ l ∈ p.lits, (l.isTxt = true ↔ t = .text)

/-- The filter of a predicate.  A number of an IN list may have blanks behind it. -/
def Gives (w : Wc) (p : Pred) (f : Flt) : Prop :=
  ∃ n t, w.pif p.col = some (n, t) ∧
    match p with
    | eq _ _ _ v => f = { col := n, op := .eq, iss := v.isTxt, key := some v.value }
    | between _ _ _ _ lo _ _ _ hi =>
        f = { col := n, op := .rq, low := some lo.value, high := some hi.value }
    | isIn _ _ _ _ x xs => ∃ l, f = { col := n, op := .isIn, inl := l } ∧
        List.Forall₂ (fun y v => ∃ k, v = y.lit.value ++ sp k ∧ (y.lit.isTxt = true → k = 0))
          (x :: xs) l

/-- What `parseWC` needs of a predicate; `last` is none if another predicate follows, and else the
number of blanks behind it. -/
def Clean (last : Option Nat) : Pred → Prop
  | eq _ _ _ v => v.Full ∨ last = some 0
  | between _ n₁ _ _ lo n₃ _ n₄ hi =>
      n₁ % 2 = 1 ∧ n₃ % 2 = 1 ∧ lo.Full ∧ (hi.Full ∨ last = some 0) ∧
        (hi.isTxt = false ∨ 2 ≤ n₄ ∨
          (last.isSome = true ∧ strcasestr hi.chars " AND ".toList = none))
  | isIn _ n₁ _ _ x xs =>
      n₁ % 2 = 1 ∧ (∀ y ∈ x :: xs, y.lit.Full) ∧
        strMatchingEndParen (listChars x xs) = some ((listChars x xs).length - 1) ∧
        (x.lit.isTxt = true ∨ (x.lit.chars.head?).any Char.isDigit = true)

end Pred

/-- ` AND ` between two predicates. -/
structure Sep where
  before : Nat
  kw : Sds
  after : Nat

def Sep.Wf (s : Sep) : Prop := 0 < s.before ∧ spells "AND" s.kw ∧ 0 < s.after

/-- The text of a clause, with `t` blanks behind it. -/
def clause : Pred → List (Sep × Pred) → Nat → Sds
  | p, [], t => p.chars ++ sp t
  | p, e :: r, t => p.chars ++ (sp e.1.before ++ (e.1.kw ++ (sp e.1.after ++ clause e.2 r t)))

/-- The clauses that are taken apart rightly. -/
def ClauseClean : Pred → List (Sep × Pred) → Nat → Prop
  | p, [], t => p.Clean (some t)
  | p, e :: r, t => p.Clean none ∧ e.1.before % 2 = 1 ∧ ClauseClean e.2 r t

/-! ## Words of a clause -/

section Words

variable {kw : String}

theorem foreign_quote (h : kw ∈ keywords) : foreign kw '\'' = true := by
  simp only [keywords, List.mem_cons, List.not_mem_nil, or_false] at h
  rcases h with rfl | rfl | rfl <;> decide

theorem foreign_eq (h : kw ∈ keywords) : foreign kw '=' = true := by
  simp only [keywords, List.mem_cons, List.not_mem_nil, or_false] at h
  rcases h with rfl | rfl | rfl <;> decide

theorem foreign_list (h : kw ∈ keywords) :
    foreign kw '(' = true ∧ foreign kw ',' = true ∧ foreign kw ')' = true := by
  simp only [keywords, List.mem_cons, List.not_mem_nil, or_false] at h
  rcases h with rfl | rfl | rfl <;> decide

theorem outside_append {a b : Sds} (ha : Outside a) (hb : Outside b) : Outside (a ++ b) :=
  fun c hc => (List.mem_append.mp hc).elim (ha c) (hb c)

theorem outside_sp (n : Nat) : Outside (sp n) := by
  intro c hc
  rw [List.eq_of_mem_replicate hc]
  decide

theorem outside_of {f : Char → Bool} {s : Sds} (h : ∀ c ∈ s, f c = true) (h1 : f '\'' = false)
    (h2 : f '\\' = false) : Outside s := by
  intro c hc
  constructor
  · rintro rfl
    rw [h _ hc] at h1
    cases h1
  · rintro rfl
    rw [h _ hc] at h2
    cases h2

theorem no_blank_of {f : Char → Bool} {s : Sds} (h : ∀ c ∈ s, f c = true) (h1 : f ' ' = false) :
    ∀ c ∈ s, c ≠ ' ' := by
  rintro c hc rfl
  rw [h _ hc] at h1
  cases h1

/-- A word that spells a keyword is made of letters. -/
theorem spells_alpha {k : String} {s : Sds} (h : spells k s) (hk : k ∈ keywords) :
    ∀ c ∈ s, c.isAlpha = true := by
  intro c hc
  obtain ⟨i, hi⟩ := List.mem_iff_getElem?.mp hc
  have hlt : i < k.toList.length := by
    rw [← h.1]
    exact (List.getElem?_eq_some_iff.mp hi).1
  have hs := h.2 (c, k.toList[i])
    (List.mem_iff_getElem?.mpr ⟨i, List.getElem?_zip_eq_some.mpr
      ⟨hi, List.getElem?_eq_getElem hlt⟩⟩)
  have hup : k.toList.all Char.isUpper = true := by
    simp only [keywords, List.mem_cons, List.not_mem_nil, or_false] at hk
    rcases hk with rfl | rfl | rfl <;> decide
  exact sameChar_upper (List.all_eq_true.mp hup _ (List.getElem_mem hlt)) hs

/-- A keyword is no other keyword. -/
theorem spells_head {w : String} {k : String} {s : Sds} (h : spells k s) (hk : k ∈ keywords)
    (hkw : w ∈ keywords) (hne : w ≠ k) :
    ∃ c r, s = c :: r ∧ ∀ d, (key w)[1]? = some d → sameChar c d = false := by
  obtain ⟨c, r, rfl⟩ : ∃ c r, s = c :: r := by
    apply List.exists_cons_of_ne_nil
    rintro rfl
    have hl := h.1
    simp only [keywords, List.mem_cons, List.not_mem_nil, or_false] at hk
    rcases hk with rfl | rfl | rfl <;> cases hl
  refine ⟨c, r, rfl, fun d hd => ?_⟩
  have hc : ∀ e, k.toList.head? = some e → sameChar c e = true := by
    intro e he
    obtain ⟨l, hl⟩ : ∃ l, k.toList = e :: l := by
      cases hkl : k.toList with
      | nil => rw [hkl] at he; cases he
      | cons e' l => rw [hkl] at he; cases he; exact ⟨l, rfl⟩
    exact h.2 (c, e) (by rw [hl]; simp)
  simp only [keywords, List.mem_cons, List.not_mem_nil, or_false] at hk hkw
  have key_ne : ∀ {e d : Char}, sameChar c e = true → e.toUpper ≠ d.toUpper →
      sameChar c d = false := by
    intro e d he hed
    have : c.toUpper = e.toUpper := by simpa [sameChar] using he
    simp [sameChar, this, hed]
  rcases hk with rfl | rfl | rfl <;> rcases hkw with rfl | rfl | rfl <;>
    first
    | exact absurd rfl hne
    | (have hcc := hc _ rfl
       have hdd : _ = d := Option.some_inj.mp hd
       subst hdd
       exact key_ne hcc (by decide))

end Words

end AlchemyDB.Text
