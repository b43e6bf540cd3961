/-
# The WHERE clause

`parseWC` has no tokens: it looks for ` IN `, ` AND ` and ` BETWEEN ` in the raw text,
outside quotes, cuts the text at the ` AND ` that ends the first predicate and reads one
filter from what it cut off.  `DXDB_strcasestr` does not look at a character again after
a mismatch.

What a column name stands for, what Lua accepts and what a command inside `IN ()`
returns are parameters.  In a join each filter becomes the left side of a join pair.
-/
import AlchemyDB.Text.Scan

namespace AlchemyDB.Text

open Catalog

/-! ## Searching -/

/-- `toupper`. -/
def sameChar (a b : Char) : Bool := a.toUpper == b.toUpper

/-- One character of `DXDB_strcasestr`; `j` characters of the needle have been met.  A character
that does not go on with a match is not tried as the start of one. -/
def caseStep (needle : Sds) (j : Nat) (c : Char) : Nat :=
  if (needle[j]?).any (sameChar c) then j + 1 else 0

/-- The loop of `DXDB_strcasestr`: the distance to the end of the match.  The end of the needle is
not looked for at the character that starts a match. -/
def caseEnd (needle : Sds) : Nat → Sds → Option Nat
  | _, [] => none
  | j, c :: s =>
      if 0 < j ∧ caseStep needle j c = needle.length then some 1
      else (caseEnd needle (caseStep needle j c) s).map (· + 1)

/-- `DXDB_strcasestr`. -/
def strcasestr (haystack needle : Sds) : Option Nat :=
  (caseEnd needle 0 haystack).map (· - needle.length)

/-- `strcasestr_blockchar`.  Its outer loop looks for the needle, the inner one, with the needle
`found`, for the quotes in front of it. -/
def blockLoop (needle : Sds) : Nat → Sds → Option Nat → Option Nat
  | 0, _, _ => none
  | n + 1, b, none =>
      match strcasestr b needle with
      | none => none
      | some f => blockLoop needle n b (some f)
  | n + 1, b, some f =>
      match strNextUnescapedChr b '\'' with
      | none => some f
      | some i =>
          if f < i then some f
          else match strNextUnescapedChr (b.drop (i + 1)) '\'' with
            | none => none
            | some k =>
                let e := i + 1 + k + 1
                if f ≤ e then (blockLoop needle n (b.drop e) none).map (e + ·)
                else (blockLoop needle n (b.drop e) (some (f - e))).map (e + ·)

def strcasestrBlockchar (haystack needle : Sds) : Option Nat :=
  blockLoop needle (2 * haystack.length + 2) haystack none

/-- `str_matching_end_delim` for parentheses, `n` of which are open. -/
def matchingParen (n : Int) (first : Bool) : Sds → Option Nat
  | [] => none
  | c :: s =>
      let n := opened n c
      if n = 0 ∧ first = false then some 0 else (matchingParen n false s).map (· + 1)

def strMatchingEndParen (s : Sds) : Option Nat := matchingParen 0 true s

/-- `checkIN_Clause`. -/
def checkINClause (token : Sds) : Option Nat :=
  (strMatchingEndParen token).filter fun _ => token.head? = some '('

/-! ## Tokens -/

/-- `next_token`. -/
def nextToken (s : Sds) : Option Nat :=
  match strchr s ' ' with
  | none => none
  | some p =>
      let p := p + ((s.drop p).takeWhile isBlank).length
      if p < s.length then some p else none

/-- `get_token_len`. -/
def getTokenLen (s : Sds) : Nat := (strchr s ' ').getD s.length

/-- `next_token_wc_key`. -/
def nextTokenWcKey (tkn : Sds) (ctype : CType) : Option Nat :=
  if ctype = .text then
    if tkn.head? = some '\'' then (strNextUnescapedChr (tkn.drop 1) '\'').map (· + 2) else none
  else strchr tkn ' '

/-- `extract_string_col` on the first `len` characters.  Of a lone quote, where the length comes out
as -1, nothing is taken. -/
def extractStringCol (s : Sds) : Option Sds :=
  if s.head? = some '\'' then
    if s.tail.getLast? = some '\'' then some s.tail.dropLast else none
  else some s

inductive Op where
  | eq | ne | gt | ge | lt | le | rq | isIn | lfunc
  deriving DecidableEq, Repr

/-- `OP_len`. -/
def Op.len : Op → Nat
  | .eq | .gt | .lt => 1
  | _ => 2

/-- `findOperator`, with the place of the operator's last character. -/
def findOperator : Sds → Option (Op × Nat)
  | [] => none
  | x :: s =>
      if x = '=' then some (.eq, 0)
      else if x = '<' then if s.head? = some '=' then some (.le, 1) else some (.lt, 0)
      else if x = '>' then if s.head? = some '=' then some (.ge, 1) else some (.gt, 0)
      else if x = '!' ∧ s.head? = some '=' then some (.ne, 1)
      else (findOperator s).map fun e => (e.1, e.2 + 1)

/-- `strncasecmp(s, kw, strlen(kw)) == 0`. -/
def startsWith (kw s : Sds) : Bool :=
  decide (kw.length ≤ s.length) && (kw.zip s).all fun e => sameChar e.1 e.2

/-! ## Filters -/

/-- `f_t`, as far as it is filled in here. -/
structure Flt where
  col : Nat
  op : Op
  iss : Bool := false
  key : Option Sds := none
  low : Option Sds := none
  high : Option Sds := none
  inl : List Sds := []
  le : Option Sds := none
  deriving DecidableEq, Repr

/-- A filter and what is left of the text. -/
abbrev Read := Option (Flt × Option Sds)

/-- Columns by name with their types (`parseInumCol`, `parseInumTblCol`), what is read as an
expression in Lua when nothing else fits (`pWC_checkLuaFunc`), and the rows of a command
(`pWC_IN_CMD`). -/
structure Wc where
  pif : Sds → Option (Nat × CType)
  lua : Sds → Read
  cmd : Sds → Option (List Sds)

/-- `pRangeReply`: the bounds, and what is left of the text. -/
def pRangeReply (frst : Sds) (ctype : CType) : Option (Sds × Sds × Option Sds) := do
  let flen ← nextTokenWcKey frst ctype
  let rest := skipSpaces (frst.drop flen)
  if startsWith "AND ".toList rest then
    let second ← (nextToken rest).map rest.drop
    let tfin := nextTokenWcKey second ctype
    let low ← extractStringCol (frst.take flen)
    let high ← extractStringCol (second.take (tfin.getD second.length))
    return (low, high, tfin.map fun t => skipSpaces (second.drop t))
  else none

/-- The loop of `pWC_IN` for texts; `e` is the distance to the closing parenthesis. -/
def inTexts : Nat → Sds → Nat → Option (List Sds)
  | 0, _, _ => none
  | n + 1, s, e => do
      let b := (s.takeWhile isBlank).length
      let s := s.drop b
      let send ← nextTokenWcKey s .text
      let x := (s.drop 1).take (send - 2)
      match strchr (s.drop send) ',' with
      | none => return [x]
      | some k =>
          if e < b + send + k then return [x]
          else return x :: (← inTexts n (s.drop (send + k + 1)) (e - (b + send + k + 1)))

/-- The loop of `pWC_IN` for numbers. -/
def inNumbers : Nat → Sds → Nat → List Sds
  | 0, _, _ => []
  | n + 1, s, e =>
      match strNextUnescapedChr s ',' with
      | some k =>
          if e < k then [s.take e]
          else
            let b := (s.takeWhile isBlank).length
            let s' := s.drop (k + 1)
            let b' := (s'.takeWhile isBlank).length
            (s.drop b).take (k - b) :: inNumbers n (s'.drop b') (e - (k + 1 + b'))
      | none => [s.take e]

/-- `pWC_IN`. -/
def pWCIN (w : Wc) (tok : Sds) (ctype : CType) : Option (List Sds × Option Sds) := do
  let e ← checkINClause tok
  let b := ((tok.drop 1).takeWhile isBlank).length
  let s := tok.drop (1 + b)
  let inl ←
    if (s.head?).any (fun c => c = '\'' || c.isDigit) then
      if ctype = .text then inTexts (tok.length + 1) s (e - (1 + b))
      else some (inNumbers (tok.length + 1) s (e - (1 + b)))
    else w.cmd (s.take (e - (1 + b)))
  let fin := tok.drop (e + 1)
  return (inl, if fin = [] then none else some (skipSpaces fin))

/-- `TOK_TYPE_*`. -/
inductive TokType where
  | key | range | isIn
  deriving DecidableEq, Repr

/-- `two_toklen`. -/
def twoToklen (tkn : Sds) : Nat :=
  match nextToken tkn with
  | none => tkn.length
  | some t => t + getTokenLen (tkn.drop t)

/-- `parseWCTokRelation` on `col op value`. -/
def parseKey (w : Wc) (tkn : Sds) : Read :=
  let read := do
    let (op, spot) ← findOperator (tkn.take (twoToklen tkn))
    let (col, ctype) ← w.pif (revSkipSpaces (tkn.take (spot + 1 - op.len)))
    let start := skipSpaces (tkn.drop (spot + 1))
    if start = [] then none
    else
      let tfin := nextTokenWcKey start ctype
      let key ← extractStringCol (start.take (tfin.getD start.length))
      return (({ col := col, op := op, iss := start.head? == some '\'', key := some key } : Flt),
        tfin.map fun t => skipSpaces (start.drop t))
  match read with
  | some r => some r
  | none => w.lua tkn

/-- `parseWCTokRelation` on `col IN (..)` and `col BETWEEN .. AND ..`. -/
def parseRangeOrIn (w : Wc) (tkn : Sds) : Read :=
  let read : Read := do
    let n ← strchr tkn ' '
    let (col, ctype) ← w.pif (tkn.take n)
    let nextp := skipSpaces (tkn.drop n)
    if startsWith "IN ".toList nextp then
      let t ← nextToken nextp
      let (inl, fin) ← pWCIN w (nextp.drop t) ctype
      return ({ col := col, op := .isIn, inl := inl }, fin)
    else if startsWith "BETWEEN ".toList nextp then
      let t ← nextToken nextp
      let (low, high, fin) ← pRangeReply (nextp.drop t) ctype
      return ({ col := col, op := .rq, low := some low, high := some high }, fin)
    else none
  match read with
  | some r => some r
  | none => w.lua tkn

/-- `parseWCTokRelation`. -/
def parseWCTokRelation (w : Wc) (tkn : Sds) : TokType → Read
  | .key => parseKey w tkn
  | _ => parseRangeOrIn w tkn

/-! ## The loop -/

/-- Where the first predicate of `line` ends, and what it is; `none` is a syntax error. -/
def splitLine (line : Sds) : Option (Option Nat × TokType) :=
  let isIn := strcasestrBlockchar line " IN ".toList
  let and := strcasestrBlockchar line " AND ".toList
  match isIn, and with
  | some i, some a =>
      if i < a then
        -- include nested IN (...AND....)
        let p := i + 4 + ((line.drop (i + 4)).takeWhile isBlank).length
        match checkINClause (line.drop p) with
        | none => none
        | some e =>
            some ((strcasestrBlockchar (line.drop (p + e)) " AND ".toList).map (p + e + ·), .isIn)
      else some (between line a, tokBetween line a)
  | some _, none => some (none, .isIn)
  | none, some a => some (between line a, tokBetween line a)
  | none, none => some (none, .key)
where
  /-- include `BETWEEN x AND y` -/
  between (line : Sds) (a : Nat) : Option Nat :=
    if (strcasestrBlockchar line " BETWEEN ".toList).any (· < a) then
      (strcasestrBlockchar (line.drop (a + 5)) " AND ".toList).map (a + 5 + ·)
    else some a
  tokBetween (line : Sds) (a : Nat) : TokType :=
    if (strcasestrBlockchar line " BETWEEN ".toList).any (· < a) then .range else .key

/-- The loop of `parseWC`. -/
def parseWCLoop (w : Wc) : Nat → Sds → Option (List Flt × Option Sds)
  | 0, _ => none
  | n + 1, line => do
      let (and, ttype) ← splitLine line
      let (flt, tfin) ← parseWCTokRelation w (line.take (and.getD line.length)) ttype
      match and with
      | some a =>
          let rest := skipSpaces (line.drop (a + 5))
          if rest = [] then return ([flt], none)
          else
            let (flts, lvr) ← parseWCLoop w n rest
            return (flt :: flts, lvr)
      | none =>
          match tfin with
          | none => return ([flt], none)
          | some t => return ([flt], if skipSpaces t = [] then none else some (skipSpaces t))

/-- `parseWC`: the filters, and the text behind the last one (ORDER BY, LIMIT, or an error). -/
def parseWC (w : Wc) (line : Sds) : Option (List Flt × Option Sds) :=
  parseWCLoop w (line.length + 1) line

end AlchemyDB.Text
