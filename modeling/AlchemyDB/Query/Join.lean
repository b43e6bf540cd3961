/-
# The chain of a join

A join is given by pairs of columns of two aliases.  `buildJoinChain` orders them to a chain, in which
the right-hand side of a pair has the alias of the left-hand side of the next: in passes over the list
it collects what goes on from both sides of the first pair, and puts it to the front.  Then the sides
of the pairs are switched where that links them, and the chain is reversed if only its end has a filter.

The counter of the passes is one byte.  It begins with 1, and when it comes round to 0 the loop ends,
whether all pairs have been collected or not.
-/
import AlchemyDB.Lib.Gather
import Mathlib.Data.Sym.Sym2

namespace AlchemyDB.Query.Join

/-! ## The pairs -/

/-- `MAX_JOIN_COLS`. -/
abbrev maxJoinCols : Nat := 128

/-- The number of an alias in `JTAlias`. -/
abbrev Jan := Fin maxJoinCols

/-- `f_t`: the alias, and what a join only carries along. -/
structure Flt (β : Type) where
  jan : Jan
  rest : β
deriving DecidableEq

/-- `ijp_t`. -/
structure Ijp (β γ : Type) where
  lhs : Flt β
  rhs : Flt β
  rest : γ
deriving DecidableEq

/-- `jb_t`: the first `hw` of its pairs, which join, and the others, which filter by their left-hand
side. -/
structure Jb (β γ : Type) where
  ij : List (Ijp β γ)
  filters : List (Ijp β γ)

variable {β γ : Type}

def switchIJ (e : Ijp β γ) : Ijp β γ := { e with lhs := e.rhs, rhs := e.lhs }

/-! ## The loop -/

/-- One scan of the list: the pairs that go on from the alias `j`, each from the other side of the one
before, and what is left of the list. -/
def collect : Jan → List (Ijp β γ) → List (Ijp β γ) × List (Ijp β γ)
  | _, [] => ([], [])
  | j, e :: cl =>
      if e.lhs.jan = j then (e :: (collect e.rhs.jan cl).1, (collect e.rhs.jan cl).2)
      else if e.rhs.jan = j then (e :: (collect e.lhs.jan cl).1, (collect e.lhs.jan cl).2)
      else ((collect j cl).1, e :: (collect j cl).2)

/-- A pass of the loop of `buildJoinChain`: the list, and what neither scan has collected.  There is a
first pair, as `sortJoinPlan` fails without one. -/
def pass : List (Ijp β γ) → List (Ijp β γ) × List (Ijp β γ)
  | [] => ([], [])
  | head :: cl =>
      let l := collect head.lhs.jan cl
      let r := collect head.rhs.jan l.2
      let leftl := if l.1.isEmpty then [] else l.1 ++ [head]
      let rightl := if l.1.isEmpty then head :: r.1 else r.1
      (rightl ++ (leftl.reverse ++ r.2), r.2)

/-- The loop, when its counter comes round to 0 after `k` more passes. -/
def chainLoop : Nat → List (Ijp β γ) → List (Ijp β γ)
  | 0, cl => cl
  | k + 1, cl => if (pass cl).2.isEmpty then (pass cl).1 else chainLoop k (pass cl).1

/-! ## The sides -/

/-- What `alignChainToJans` does to a pair and the next. -/
def alignTwo (a b : Ijp β γ) : Ijp β γ × Ijp β γ :=
  if a.rhs.jan ≠ b.lhs.jan then
    let a := if a.lhs.jan = b.lhs.jan then switchIJ a else a
    let b := if a.rhs.jan = b.rhs.jan then switchIJ b else b
    if a.lhs.jan = b.rhs.jan then (switchIJ a, switchIJ b) else (a, b)
  else (a, b)

/-- `alignChainToJans`, from the pair `a` on. -/
def alignFrom : Ijp β γ → List (Ijp β γ) → List (Ijp β γ)
  | a, [] => [a]
  | a, b :: l => (alignTwo a b).1 :: alignFrom (alignTwo a b).2 l

def alignChainToJans : List (Ijp β γ) → List (Ijp β γ)
  | [] => []
  | a :: l => alignFrom a l

def revChain (ij : List (Ijp β γ)) : List (Ijp β γ) := (ij.map switchIJ).reverse

/-- `onFilterlessHeadRevChain`. -/
def onFilterlessHeadRevChain (jb : Jb β γ) : Jb β γ × Bool :=
  match jb.ij.head?, jb.ij.getLast? with
  | some first, some last =>
      let l0hits := jb.filters.countP fun k => k.lhs.jan = first.lhs.jan
      let rFhits := jb.filters.countP fun k => k.lhs.jan = last.rhs.jan
      if l0hits = 0 ∧ rFhits ≠ 0 then ({ jb with ij := revChain jb.ij }, true) else (jb, false)
  | _, _ => (jb, false)

def buildJoinChain (jb : Jb β γ) : Jb β γ × Bool :=
  onFilterlessHeadRevChain { jb with ij := alignChainToJans (chainLoop 255 jb.ij) }

/-- The test of the aliases in `validateChain`, from the pair that has to begin with `rjan` on. -/
def aliasesFrom : Jan → List (Ijp β γ) → Bool
  | _, [] => true
  | rjan, e :: l => decide (e.lhs.jan = rjan) && aliasesFrom e.rhs.jan l

/-- What `validateChain` asks of the aliases. -/
def validAliases : List (Ijp β γ) → Bool
  | [] => true
  | e :: l => aliasesFrom e.lhs.jan (e :: l)

/-! ## Chains -/

/-- Each pair goes on where the one before ends. -/
def Linked (ij : List (Ijp β γ)) : Prop := ij.IsChain fun a b => a.rhs.jan = b.lhs.jan

/-- The pair itself, or with its sides switched. -/
def Turned (a b : Ijp β γ) : Prop := b = a ∨ b = switchIJ a

/-- The pairs in some order, each possibly with its sides switched. -/
def Reordered (ij ij' : List (Ijp β γ)) : Prop := ∃ l, l.Perm ij ∧ List.Forall₂ Turned l ij'

/-- The pairs that join two of the aliases `vs` that follow each other. -/
def pathEdges (vs : List Jan) : List (Sym2 Jan) := List.zipWith (fun a b => s(a, b)) vs vs.tail

/-- The graph of the pairs is the simple path along the aliases `vs`. -/
structure SimplePath (vs : List Jan) (ij : List (Ijp β γ)) : Prop where
  nodup : vs.Nodup
  ne : ij ≠ []
  edges : (ij.map fun e => s(e.lhs.jan, e.rhs.jan)).Perm (pathEdges vs)

end AlchemyDB.Query.Join
