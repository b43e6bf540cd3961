/-
# Expressions compiled for Lua

`checkOrCr8LFunc` turns an expression over the columns of a table into a Lua
function and its arguments.  A call of a defined Lua function is taken as it
stands; anything else is searched for words that name columns, which become the
locals of a new function `luf_N`, kept in `DynLuaD` under the text of the
expression.

What Lua answers, and in which order `colD` is walked, are parameters.
-/
import AlchemyDB.Text.Scan

namespace AlchemyDB.Lua

open Catalog Text

/-! ## Columns by name -/

/-- What a name can stand for: a column or a path below it, or the place in an index. -/
inductive Found where
  | col (ic : Icol)
  | pos (imatch : Nat)
  deriving DecidableEq, Repr

/-- `ic.cmatch`, without the path. -/
def Found.number : Found → Found
  | .col ic => .col ⟨ic.cmatch, []⟩
  | .pos i => .pos i

/-- `ic.nlo`. -/
def Found.nlo : Found → Nat
  | .col ic => ic.lo.length
  | .pos _ => 0

/-- What a call can see besides its arguments: the catalog, the indexes that are `SIMP_UNIQ`, and
the functions that Lua has. -/
structure World where
  cat : Cat
  simpUniq : Nat → Bool
  defined : Sds → Bool

/-- One element of a path in dot notation. -/
def pathName : Sds → Bool
  | [] => false
  | x :: s => (x.isAlpha || x == '_') && s.all (fun y => y.isAlphanum || y == '_')

/-- The text between the dots; a dot at the end has nothing behind it. -/
def dotted : Sds → List Sds
  | [] => []
  | c :: s =>
      if c = '.' then [] :: dotted s
      else match dotted s with
        | [] => [[c]]
        | w :: ws => (c :: w) :: ws

/-- `check_special_column`. -/
def checkSpecialColumn (w : World) (t : Nat) (cname : Sds) : Option Found :=
  match strchr cname '.' with
  | none => none
  | some d =>
      let cn := cname.take d
      let sd := cname.drop d
      if sd = ".pos()".toList then
        match w.cat.matchIndexName cn with
        | none => none
        | some i =>
            if (w.cat.index i).tmatch = some t ∧ w.simpUniq i then some (.pos i) else none
      else
        let lo := dotted (sd.drop 1)
        if lo ≠ [] ∧ lo.all pathName then (w.cat.findColumn t (cn, lo)).map .col else none

/-- `find_column_sds`; `find_column_n` is the same. -/
def findColumnSds (w : World) (t : Nat) (cname : Sds) : Option Found :=
  match w.cat.findColumn t (cname, []) with
  | some ic => some (.col ic)
  | none => checkSpecialColumn w t cname

/-! ## Arguments of a function -/

/-- An `aobj` of `lue_t.as`, by its type. -/
inductive Arg where
  | cname (f : Found)
  | string (s : Sds)
  | luao (s : Sds)
  | long (s : Sds)
  | float (s : Sds)
  deriving DecidableEq, Repr

/-- `lue_t`. -/
structure Lue where
  fname : Sds
  as : List Arg
  deriving DecidableEq, Repr

/-- `is_int`, of a text that starts with a digit. -/
def isInt (s : Sds) : Bool := s.all Char.isDigit

/-- A hexadecimal digit. -/
def isHex (c : Char) : Bool := c.isDigit || ('a' ≤ c && c ≤ 'f') || ('A' ≤ c && c ≤ 'F')

/-- An exponent, as far as the text goes. -/
def isExponent (mark : Char) : Sds → Bool
  | [] => true
  | e :: s =>
      let s := match s with
        | '+' :: s => s
        | '-' :: s => s
        | s => s
      (e.toLower == mark) && s != [] && s.all Char.isDigit

/-- Digits, perhaps with a point between them, and an exponent. -/
def isMantissa (digit : Char → Bool) (mark : Char) (s : Sds) : Bool :=
  let int := s.takeWhile digit
  match s.dropWhile digit with
  | '.' :: s => (int != [] || (s.takeWhile digit) != []) && isExponent mark (s.dropWhile digit)
  | s => int != [] && isExponent mark s

/-- `is_float`, of a text that starts with a digit: `strtod` reads all of it. -/
def isFloat (s : Sds) : Bool :=
  isMantissa Char.isDigit 'e' s ||
    match s with
    | '0' :: x :: s => (x.toLower == 'x') && isMantissa isHex 'p' s
    | _ => false

/-- One argument: a text in quotes, a column, a Lua variable or a number. -/
def createArg (w : World) (t : Nat) (tkn : Sds) : Option Arg :=
  match tkn with
  | [] => none
  | c :: s =>
      if c = '\'' then
        if tkn.getLast? = some '\'' then some (.string s.dropLast) else none
      else if c.isAlpha then
        match findColumnSds w t tkn with
        | some f => some (.cname f)
        | none => if tkn.all Char.isAlphanum then some (.luao tkn) else none
      else if c.isDigit then
        if isInt tkn then some (.long tkn) else if isFloat tkn then some (.float tkn) else none
      else none

/-- The loop of `parseCommaListToAobjs`; `prev` is what stands before `tkn`, backwards.  An empty
element ends the list, and spoils it where blanks or nothing stand before its comma. -/
def parseCommaList (w : World) (t : Nat) : Nat → Sds → Sds → List Arg →
    Except Fault (Option (List Arg))
  | 0, _, _, _ => .ok none
  | n + 1, prev, tkn, as => do
      let prev := (tkn.takeWhile isBlank).reverse ++ prev
      let tkn := skipSpaces tkn
      match ← getNextNonparanedComma tkn with
      | none =>
          if tkn = [] then .ok (some as)
          else match createArg w t tkn with
            | none => .ok none
            | some a => .ok (some (as ++ [a]))
      | some nextc =>
          let elem := tkn.take (tkn.length - nextc.length)
          if elem = [] then
            match prev with
            | [] => .ok none
            | c :: _ => if isBlank c then .ok none else .ok (some as)
          else match createArg w t (revSkipSpaces elem) with
            | none => .ok none
            | some a =>
                parseCommaList w t n (nextc.take 1 ++ elem.reverse ++ prev) (nextc.drop 1) (as ++ [a])

/-- `parseCommaListToAobjs`. -/
def parseCommaListToAobjs (w : World) (t : Nat) (tkn : Sds) : Except Fault (Option (List Arg)) :=
  parseCommaList w t (tkn.length + 1) [] tkn []

/-- The name of a function, without the underscores at its end. -/
def funcName (s : Sds) : Sds := (s.reverse.dropWhile (· == '_')).reverse

/-- `isLuaFunc`: the name and the text of the arguments.  Where only blanks stand between the
parentheses the length of that text is negative. -/
def isLuaFunc (expr : Sds) : Except Fault (Option (Sds × Sds)) :=
  match strchr expr '(' with
  | none => .ok none
  | some lp =>
      if lp = 0 then .ok none
      else do
        match ← getAfterParens (expr.drop lp) with
        | none => .ok none
        | some rparen =>
            if skipSpaces (rparen.drop 1) ≠ [] then .ok none
            else
              let name := revSkipSpaces (skipSpaces (expr.take lp))
              match name with
              | [] => .ok none
              | c :: _ =>
                  if !c.isAlpha then .ok none
                  else if !name.all (fun x => x.isAlphanum || isBlank x || x == '_') then .ok none
                  else
                    let skipL := (expr.drop lp).takeWhile (fun x => x == '(' || isBlank x)
                    let ol := lp + skipL.length
                    let upto := expr.take (expr.length - rparen.length + 1)
                    let args := (upto.reverse.dropWhile (fun x => x == ')' || isBlank x)).reverse
                    if args.length < ol then .error .segv
                    else .ok (some (funcName name, args.drop ol))

/-- `checkExprIsFunc`. -/
def checkExprIsFunc (w : World) (t : Nat) (expr : Sds) : Except Fault (Option Lue) := do
  match ← isLuaFunc expr with
  | none => .ok none
  | some (fname, argt) =>
      if w.defined fname then do
        match ← parseCommaListToAobjs w t argt with
        | none => .ok none
        | some as => .ok (some ⟨fname, as⟩)
      else .ok none

/-! ## Words of an expression -/

/-- `LuaDlms`: what can stand before a column name. -/
def luaDlms (c : Char) : Bool :=
  ['\n', '\t', ' ', '+', '-', '*', '/', '%', '^', '#', '=', '~', '<', '>', '(', ')', '{', '}',
    '[', ']', ';', ':', ',', '.'].contains c

/-- The variables of the scan: `mexpr`, `spot`, `nexpr` with `pleq`, and the names looked up so
far. -/
structure Scan where
  mexpr : Sds
  spot : Option Nat
  nexpr : Option Sds
  pleq : Nat
  words : List Sds

/-- The name from `spot` up to place `i`. -/
def Scan.take (k : Scan) (spot i : Nat) : Scan :=
  { k with spot := none, words := k.words ++ [(k.mexpr.drop spot).take (i - spot)] }

/-- `=` is `==` in Lua. -/
def Scan.equals (k : Scan) (expr : Sds) (i : Nat) : Scan :=
  { k with
    nexpr := some ((match k.nexpr with
      | none => expr.take (i + 1)
      | some n => n ++ (expr.drop k.pleq).take (i - k.pleq + 1)) ++ ['='])
    pleq := i + 1 }

/-- The loop of `checkOrCr8LFunc`.  It does not depend on the table. -/
def scan (expr : Sds) : Nat → Nat → Scan → Scan
  | 0, _, k => k
  | n + 1, i, k =>
      match k.mexpr[i]? with
      | none => k
      | some c =>
          if c = '!' ∧ k.mexpr[i + 1]? = some '=' then
            scan expr n (i + 2) { k with mexpr := k.mexpr.set i '~' }
          else
            let k := if c = '=' then k.equals expr i else k
            if c = '\'' then
              match strNextUnescapedChr (k.mexpr.drop (i + 1)) '\'' with
              | none => { k with spot := none }
              | some d => scan expr n (i + d + 2) k
            else match k.spot with
              | some spot =>
                  if !c.isAlphanum ∧ c ≠ '.' then scan expr n (i + 1) (k.take spot i)
                  else scan expr n (i + 1) k
              | none =>
                  if c.isAlpha ∧ (i = 0 ∨ (k.mexpr[i - 1]?).any luaDlms) then
                    scan expr n (i + 1) { k with spot := some i }
                  else scan expr n (i + 1) k

/-- The scan, with the last name. -/
def scanExpr (expr : Sds) : Scan :=
  let k := scan expr expr.length 0 ⟨expr, none, none, 0, []⟩
  match k.spot with
  | some spot => k.take spot expr.length
  | none => k

/-- The body of the function: `nexpr` if there is one, else `mexpr`. -/
def body (expr : Sds) : Sds :=
  let k := scanExpr expr
  match k.nexpr with
  | some n => n ++ expr.drop k.pleq
  | none => k.mexpr

/-! ## The dictionary of columns -/

abbrev ColD := List (Sds × Found)

/-- `dictAdd(colD, ..)`, where names are compared as they are written. -/
def addCol (colD : ColD) (n : Sds) (f : Found) : Except Fault ColD :=
  if colD.any (fun e => e.1 == n) then .error .assertOk else .ok (colD ++ [(n, f)])

/-- `addCnameToCdict`: of a path only the name of the Lua table is passed. -/
def addCnameToCdict (cname : Sds) (f : Found) (colD : ColD) : Except Fault ColD :=
  if f.nlo ≠ 0 then
    let cn := cname.takeWhile (· != '.')
    if colD.any (fun e => e.1 == cn) then .ok colD else addCol colD cn f
  else addCol colD cname f

/-- What the loop does with a name. -/
def addWord (w : World) (t : Nat) (colD : ColD) (cname : Sds) : Except Fault ColD :=
  match findColumnSds w t cname with
  | none => .ok colD
  | some f =>
      if colD.any (fun e => e.1 == cname) then .ok colD else addCnameToCdict cname f colD

def addWords (w : World) (t : Nat) : ColD → List Sds → Except Fault ColD
  | colD, [] => .ok colD
  | colD, cname :: ws => addWord w t colD cname >>= fun colD => addWords w t colD ws

/-! ## The cache -/

/-- A function of Lua: its locals, one for each argument, and its body. -/
structure Chunk where
  locals : List Sds
  body : Sds
  deriving DecidableEq, Repr

/-- `local a = arg[1]; ..` -/
def declare : Nat → List Sds → Sds
  | _, [] => []
  | i, n :: ns =>
      "local ".toList ++ n ++ " = arg[".toList ++ Nat.toDigits 10 i ++ "]; ".toList ++
        declare (i + 1) ns

/-- `lfunc`. -/
def Chunk.text (k : Chunk) : Sds :=
  "return (function (...) ".toList ++ declare 1 k.locals ++ " return (".toList ++ k.body ++
    "); end)(...)".toList

/-- What is not in the source: whether Lua can load a text, and the order of a dictionary, given
how its entries came in. -/
structure Host where
  loads : Sds → Bool
  order : ColD → ColD

/-- `DynLuaD`, the functions `luf_N` that Lua has, and `Nfuncn`. -/
structure Cache where
  dynLuaD : List (Sds × Lue)
  globals : List (Sds × Chunk)
  nfuncn : Nat
  deriving DecidableEq, Repr

def Cache.init : Cache := ⟨[], [], 0⟩

/-- `dictFetchValue(DynLuaD, expr)`. -/
def Cache.fetch (s : Cache) (expr : Sds) : Option Lue := s.dynLuaD.lookup expr

/-- `ASSERT_OK(dictAdd(DynLuaD, ..))`. -/
def Cache.save (s : Cache) (expr : Sds) (le : Lue) : Except Fault Cache :=
  if (s.fetch expr).isSome then .error .assertOk
  else .ok { s with dynLuaD := s.dynLuaD ++ [(expr, le)] }

/-- `luf_N`. -/
def lufName (n : Nat) : Sds := "luf_".toList ++ Nat.toDigits 10 n

/-- The function for an expression and its arguments. -/
def compile (h : Host) (w : World) (t : Nat) (expr : Sds) : Except Fault (Chunk × List Arg) := do
  let colD ← addWords w t [] (scanExpr expr).words
  let cols := h.order colD
  .ok (⟨cols.map Prod.fst, body expr⟩, cols.map fun e => .cname e.2.number)

/-- `checkOrCr8LFunc`.  A text that Lua does not load uses up a number all the same. -/
def checkOrCr8LFunc (h : Host) (w : World) (s : Cache) (tmatch : Option Nat) (expr : Sds) :
    Except Fault (Option Lue × Cache) :=
  match tmatch with
  | none => .ok (none, s)
  | some t => do
      match ← checkExprIsFunc w t expr with
      | some le => .ok (some le, s)
      | none =>
          match s.fetch expr with
          | some le => .ok (some le, s)
          | none => do
              let (chunk, as) ← compile h w t expr
              let n := s.nfuncn + 1
              if h.loads chunk.text then do
                let le : Lue := ⟨lufName n, as⟩
                let s ← (⟨s.dynLuaD, (le.fname, chunk) :: s.globals, n⟩ : Cache).save expr le
                .ok (some le, s)
              else .ok (none, { s with nfuncn := n })

end AlchemyDB.Lua
