/-
# The plan of a range query

`optimiseRangeQueryPlan` picks the filter that drives the query.  Where a filter
has a multi-column index, the filters are first put into the order of the
columns of that index, those that stand at the place of their column become the
key list, and as many are taken off the head of the filter list.  The rest is
read off the rows.

The estimates of costs and the order that `qsort` gives are parameters: the
comparison cuts differences of hit maps to an `int`, so that not more than a
permutation is sure.
-/
import Mathlib.Order.Defs.LinearOrder
import Mathlib.Tactic.Ring
import Mathlib.Data.List.Dedup
import Mathlib.Data.List.Perm.Basic

namespace AlchemyDB.Plan

/-! ## Filters -/

/-- `enum OP` of a filter. -/
inductive FOp where
  | eq | ne | gt | ge | lt | le | rq | inl | lfunc
  deriving DecidableEq, Repr

/-- `f_t`, over keys and rows of any kind: a column or the function of a function index, the index
that is found for it, an operator and its operands. -/
structure Filt (κ ρ : Type) where
  ic : Option Nat
  imatch : Option Nat
  op : FOp
  akey : κ
  alow : κ
  ahigh : κ
  inl : List κ
  fval : ρ → κ
  le : ρ → Bool

variable {κ ρ : Type} [LinearOrder κ]

/-- The relation of a filter to a value of its column; a Lua filter looks at the row. -/
def Filt.sat (f : Filt κ ρ) (k : κ) : Bool :=
  match f.op with
  | .eq => decide (k = f.akey)
  | .ne => decide (k ≠ f.akey)
  | .gt => decide (f.akey < k)
  | .ge => decide (f.akey ≤ k)
  | .lt => decide (k < f.akey)
  | .le => decide (k ≤ f.akey)
  | .rq => decide (f.alow ≤ k) && decide (k ≤ f.ahigh)
  | .inl => f.inl.contains k
  | .lfunc => true

/-- The value a filter is about. -/
def Filt.get (val : ρ → Nat → κ) (f : Filt κ ρ) (r : ρ) : κ :=
  match f.ic with
  | some c => val r c
  | none => f.fval r

/-- The row passes the filter. -/
def Filt.holds (val : ρ → Nat → κ) (f : Filt κ ρ) (r : ρ) : Bool :=
  match f.op with
  | .lfunc => f.le r
  | _ => f.sat (f.get val r)

/-! ## The indexes of a table -/

/-- The indexes a table has: which one is found for a column, the columns of a multi-column index
(none for the others), and whether it is on a function.  A multi-column index is found for its
first column. -/
structure Indexes where
  indexOf : Nat → Option Nat
  clist : Nat → List Nat
  onFunc : Nat → Bool
  nmci : Bool
  first : ∀ c i, indexOf c = some i → clist i ≠ [] → nmci = true ∧ (clist i).head? = some c

/-- How `parseInumCol` sets the index of a filter. -/
def Parsed (T : Indexes) (f : Filt κ ρ) : Prop :=
  match f.ic with
  | some c => f.imatch = T.indexOf c
  | none => ∀ i, f.imatch = some i → T.clist i = []

/-- The filters of a WHERE clause. -/
structure Where (κ ρ : Type) (T : Indexes) where
  filters : List (Filt κ ρ)
  parsed : ∀ f ∈ filters, Parsed T f

/-! ## The cheapest multi-column index -/

/-- `MAX_JOIN_INDXS`, the size of `MciHits`. -/
def maxJoinIndxs : Nat := 30

/-- `mh_t`. -/
structure Hit (κ ρ : Type) where
  hitmap : Int
  clen : Nat
  jmatch : Bool
  flt : Filt κ ρ

/-- How many filters are equalities on a column. -/
def eqHits (flist : List (Filt κ ρ)) (c : Nat) : Nat :=
  flist.countP fun d => decide (d.op = .eq) && decide (d.ic = some c)

/-- The hit map of a list of columns; bit `i` is for the first of them. -/
def hitmap (flist : List (Filt κ ρ)) : Nat → List Nat → Int
  | _, [] => 0
  | i, c :: cs => (eqHits flist c : Int) * 2 ^ i + hitmap flist (i - 1) cs

/-- The entry of `MciHits` for a filter.  A range query passes `-1` as `jcmatch`, which is the
column of an index on a function. -/
def mciHit (T : Indexes) (flist : List (Filt κ ρ)) (f : Filt κ ρ) : Hit κ ρ :=
  match f.imatch with
  | none => ⟨0, 0, false, f⟩
  | some i =>
      if T.clist i ≠ [] then
        ⟨hitmap flist maxJoinIndxs (T.clist i), ((T.clist i).map (eqHits flist)).sum, T.onFunc i, f⟩
      else if T.onFunc i then ⟨2 ^ maxJoinIndxs, 1, true, f⟩
      else ⟨0, 0, false, f⟩

/-- `mciHitSort`: the most hits first, then the shortest match, then `jmatch`. -/
def mciHitSort (m₁ m₂ : Hit κ ρ) : Int :=
  let diff := m₂.hitmap - m₁.hitmap
  if diff ≠ 0 then diff.bmod (2 ^ 32)
  else if m₁.clen ≠ m₂.clen then (m₁.clen : Int) - m₂.clen
  else (m₂.jmatch.toNat : Int) - m₁.jmatch.toNat

/-- What the planner asks of the library and of the trees: the order `qsort` gives,
`getNumRow4Filter`, and `getMCIKeys` (`none` for `UINT_MAX`). -/
structure Env (κ ρ : Type) where
  qsort : (Hit κ ρ → Hit κ ρ → Int) → List (Hit κ ρ) → List (Hit κ ρ)
  perm : ∀ cmp l, (qsort cmp l).Perm l
  numRows : Filt κ ρ → Nat
  mciKeys : List (Filt κ ρ) → Option Nat

/-- `replaceHead` of the first filter that is found. -/
def toHead (p : Filt κ ρ → Bool) (flist : List (Filt κ ρ)) : List (Filt κ ρ) :=
  match flist.find? p with
  | none => flist
  | some f => f :: flist.eraseP p

/-- The filter is on this column. -/
def isOn (c : Nat) (f : Filt κ ρ) : Bool := decide (f.ic = some c)

/-- `sortFlist2Clist`: the columns are gone through from the last to the first. -/
def sortFlist2Clist (flist : List (Filt κ ρ)) (clist : List Nat) : List (Filt κ ρ) :=
  clist.foldr (fun c l => toHead (isOn c) l) flist

/-- `createKList`: the filters that stand at the place of their column, and the filter list without
that many from its head. -/
def createKList (flist : List (Filt κ ρ)) (clist : List Nat) : List (Filt κ ρ) × List (Filt κ ρ) :=
  let klist := ((clist.zip flist).filter fun e => isOn e.1 e.2).map Prod.snd
  (klist, flist.drop klist.length)

/-- The filters in the order of their hits. -/
def sortHits (T : Indexes) (E : Env κ ρ) (flist : List (Filt κ ρ)) : List (Filt κ ρ) :=
  (E.qsort mciHitSort (flist.map (mciHit T flist))).map Hit.flt

/-- The columns of the multi-column index of a filter. -/
def mciOf (T : Indexes) (f : Filt κ ρ) : List Nat :=
  match f.imatch with
  | some i => T.clist i
  | none => []

/-- `matchCheapestMCI`: the key list, the filter list, and whether the number of rows is known. -/
def matchCheapestMCI (T : Indexes) (E : Env κ ρ) (flist : List (Filt κ ρ)) :
    List (Filt κ ρ) × List (Filt κ ρ) × Bool :=
  if !T.nmci || flist.all (fun f => (mciOf T f).isEmpty) then ([], flist, false)
  else
    let sorted := sortHits T E flist
    match sorted.head? with
    | none => ([], sorted, false)
    | some f =>
        match mciOf T f with
        | [] => ([], sorted, false)
        | c :: cs =>
            let (klist, flist') := createKList (sortFlist2Clist sorted (c :: cs)) (c :: cs)
            (klist, flist', (E.mciKeys klist).isSome)

/-! ## The driving filter -/

/-- A filter that `sortFLCheap` takes into account. -/
def usable (T : Indexes) (f : Filt κ ρ) : Bool :=
  match f.imatch with
  | none => false
  | some i => decide (T.clist i = []) && (decide (f.op = .eq) || decide (f.op = .rq) ||
      decide (f.op = .inl))

/-- The place of the usable filter with the fewest rows, if any has fewer than `lowc`. -/
def cheapest (T : Indexes) (E : Env κ ρ) : Nat → Nat → Option Nat → List (Filt κ ρ) → Option Nat
  | _, _, low, [] => low
  | n, lowc, low, f :: fs =>
      if usable T f && decide (E.numRows f < lowc) then cheapest T E (n + 1) (E.numRows f) (some n) fs
      else cheapest T E (n + 1) lowc low fs

/-- The filter at a place, put at the head. -/
def placeAtHead (flist : List (Filt κ ρ)) : Option Nat → List (Filt κ ρ)
  | none => flist
  | some n =>
      match flist[n]? with
      | none => flist
      | some f => f :: flist.eraseIdx n

/-- `sortFLCheap`: the key list and the filter list. -/
def sortFLCheap (T : Indexes) (E : Env κ ρ) (flist : List (Filt κ ρ)) :
    List (Filt κ ρ) × List (Filt κ ρ) :=
  let (klist, flist, known) := matchCheapestMCI T E flist
  if known then (klist, flist)
  else (klist, placeAtHead flist (cheapest T E 0 (2 ^ 32 - 1) none flist))

/-- What becomes of a WHERE clause. -/
inductive Outcome (κ ρ : Type) where
  /-- `MciHits` is written past its end. -/
  | overflow
  | refused
  | planned (w : Filt κ ρ) (klist flist : List (Filt κ ρ))

/-- The checks of `optimiseRangeQueryPlan` on the filter that drives the query. -/
def accepted (w : Filt κ ρ) (klist flist : List (Filt κ ρ)) : Outcome κ ρ :=
  if w.imatch = none then .refused
  else if w.op ≠ .eq ∧ w.op ≠ .rq ∧ w.op ≠ .inl then .refused
  else .planned w klist flist

/-- `promoteKLorFLtoW`: the key list has precedence. -/
def promoteKLorFLtoW : List (Filt κ ρ) → List (Filt κ ρ) → Outcome κ ρ
  | w :: klist, flist => accepted w klist flist
  | [], w :: flist => accepted w [] flist
  | [], [] => .refused

/-- `optimiseRangeQueryPlan`. -/
def optimiseRangeQueryPlan (T : Indexes) (E : Env κ ρ) (flist : List (Filt κ ρ)) : Outcome κ ρ :=
  if T.nmci && decide (maxJoinIndxs < flist.length) then .overflow
  else
    let (klist, flist) := sortFLCheap T E flist
    promoteKLorFLtoW klist flist

/-! ## The rows of a plan -/

/-- A node of an index: the rows below it, and the columns they are still keyed by. -/
structure Node (ρ : Type) where
  cols : List Nat
  rows : List ρ

/-- `btIndFind`. -/
def btIndFind (val : ρ → Nat → κ) (n : Node ρ) (k : κ) : Option (Node ρ) :=
  match n.cols with
  | [] => none
  | c :: cs =>
      match n.rows.filter fun r => decide (val r c = k) with
      | [] => none
      | l => some ⟨cs, l⟩

/-- `btMCIFindVal`: every filter of the key list is walked as an equality with its key. -/
def btMCIFindVal (val : ρ → Nat → κ) : List (Filt κ ρ) → Node ρ → Option (Node ρ)
  | [], n => some n
  | f :: klist, n => (btIndFind val n f.akey).bind (btMCIFindVal val klist)

/-- The rows the driving filter and the key list lead to. -/
def driven (T : Indexes) (val : ρ → Nat → κ) (w : Filt κ ρ) (klist : List (Filt κ ρ))
    (rows : List ρ) : List ρ :=
  match mciOf T w with
  | [] => rows.filter (w.holds val)
  | c :: cs =>
      ((rows.map (val · c)).dedup.filter w.sat).flatMap fun k =>
        ((btMCIFindVal val klist ⟨cs, rows.filter fun r => decide (val r c = k)⟩).map Node.rows).getD []

/-- The rows of a plan. -/
def planRows (T : Indexes) (val : ρ → Nat → κ) (w : Filt κ ρ) (klist flist : List (Filt κ ρ))
    (rows : List ρ) : List ρ :=
  (driven T val w klist rows).filter fun r => flist.all (·.holds val r)

end AlchemyDB.Plan
