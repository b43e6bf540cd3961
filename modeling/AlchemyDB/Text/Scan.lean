/-
# Scanners of the command text

The home-made string functions of `parser.c`.  A text is the list of its
characters without the terminator, and a pointer into it is what stands from
there on, or the distance to there.  A null pointer that the code follows is
`Fault.segv`.
-/
import AlchemyDB.Catalog.Model

namespace AlchemyDB.Text

open Catalog

/-! ## Characters -/

/-- `ISBLANK`. -/
def isBlank (c : Char) : Bool := c == ' ' || c == '\t'

/-- `SKIP_SPACES`. -/
def skipSpaces (s : Sds) : Sds := s.dropWhile isBlank

/-- `REV_SKIP_SPACES` from the last character of a text. -/
def revSkipSpaces (s : Sds) : Sds := (s.reverse.dropWhile isBlank).reverse

/-- The distance to a character (`strchr`). -/
def strchr (s : Sds) (x : Char) : Option Nat := s.findIdx? (· == x)

/-! ## Unescaped characters -/

/-- How many backslashes stand directly before place `i`. -/
def slashes (s : Sds) (i : Nat) : Nat := ((s.take i).reverse.takeWhile (· == '\\')).length

/-- `str_next_unescaped_chr(s, s, x)`: the distance to the next `x` that an even number of
backslashes precedes.  The first character is passed over, whatever it is. -/
def strNextUnescapedChr (s : Sds) (x : Char) : Option Nat :=
  (List.range s.length).find? fun i =>
    decide (0 < i) && (s[i]? == some x) && (slashes s i % 2 == 0)

/-- `p = str_next_unescaped_chr(p, p, x)`. -/
def toNextUnescaped (s : Sds) (x : Char) : Option Sds :=
  (strNextUnescapedChr s x).map s.drop

/-! ## Parentheses and commas -/

/-- How a character changes the number of open parentheses. -/
def opened (parens : Int) (c : Char) : Int :=
  if c = '(' then parens + 1 else if c = ')' then parens - 1 else parens

/-- The loop of `get_after_parens`.  After a quote that does not end it steps on from a null
pointer. -/
def afterParens : Nat → Int → Sds → Except Fault (Option Sds)
  | 0, _, _ => .ok none
  | _ + 1, _, [] => .ok none
  | n + 1, parens, c :: s =>
      if c = '\'' then
        match toNextUnescaped (c :: s) '\'' with
        | none => if parens = 0 then .ok none else .error .segv
        | some p => if parens = 0 then .ok (some p) else afterParens n parens (p.drop 1)
      else if opened parens c = 0 then .ok (some (c :: s))
      else afterParens n (opened parens c) s

/-- `get_after_parens`. -/
def getAfterParens (p : Sds) : Except Fault (Option Sds) := afterParens (p.length + 1) 0 p

/-- `get_next_nonparaned_comma`, as the text from the comma on. -/
def getNextNonparanedComma (tkn : Sds) : Except Fault (Option Sds) :=
  let tkn := skipSpaces tkn
  let tkn := if tkn.head? = some '\'' then toNextUnescaped tkn '\'' else some tkn
  match tkn with
  | none => .error .segv
  | some tkn =>
      match strchr tkn ',' with
      | none => .ok none
      | some z =>
          match strchr tkn '(' with
          | none => .ok (some (tkn.drop z))
          | some p =>
              if p < z then do
                match ← getAfterParens (tkn.drop p) with
                | none => .ok none
                | some y => .ok ((strchr y ',').map y.drop)
              else .ok (some (tkn.drop z))

end AlchemyDB.Text
