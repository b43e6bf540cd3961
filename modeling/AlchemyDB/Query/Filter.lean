/-
# Filters and index lookups — two ways to compare a column with a key

A filter compares the key of the predicate with the column of a row by `aobjCmp`:
INTs by a 32 bit difference, TEXTs by `strncmp` up to the length of the key.  An
empty column is an `aobj` full of zeroes.  An index compares its own keys, with
`btTextCmp` for TEXTs.  Both are stated next to the relation they stand for.

A column of TEXT is a pointer into the row, without a terminator: what `strncmp`
reads behind the text is part of the cell.
-/
import AlchemyDB.Row.Packed
import AlchemyDB.Lib.Bytes

namespace AlchemyDB.Query

open Index Row Bytes

/-! ## Values -/

/-- The values of a column, by its type. -/
def Val : KType → Type
  | .int => UInt32
  | .long => UInt64
  | .u128 => BitVec 128
  | .text => List UInt8

instance : (t : KType) → DecidableEq (Val t)
  | .int => inferInstanceAs (DecidableEq UInt32)
  | .long => inferInstanceAs (DecidableEq UInt64)
  | .u128 => inferInstanceAs (DecidableEq (BitVec 128))
  | .text => inferInstanceAs (DecidableEq (List UInt8))

/-- The order of the values, bytewise for TEXTs. -/
def Val.lt : {t : KType} → Val t → Val t → Bool
  | .int, a, b => decide ((show UInt32 from a) < (show UInt32 from b))
  | .long, a, b => decide ((show UInt64 from a) < (show UInt64 from b))
  | .u128, a, b => decide ((show BitVec 128 from a) < (show BitVec 128 from b))
  | .text, a, b => decide ((show List UInt8 from a) < (show List UInt8 from b))

/-- A column of a row: its value, if there is one, and the bytes behind it in memory. -/
structure Cell (t : KType) where
  val : Option (Val t)
  mem : Nat → UInt8

/-! ## `strncmp` -/

/-- `strncmp` of a text and the bytes at an address, up to the length of the text. -/
def strncmp : List UInt8 → (Nat → UInt8) → Int
  | [], _ => 0
  | c :: s, m =>
      if c ≠ m 0 then (c.toNat : Int) - (m 0).toNat
      else if c = 0 then 0 else strncmp s (fun i => m (i + 1))

/-! ## Filters -/

/-- `1`, `0` or `-1`. -/
def threeWay (eq gt : Bool) : Int := if eq then 0 else if gt then 1 else -1

/-- `aobjCmp` of a key and a column; to follow the null pointer of an empty TEXT is the failure. -/
def aobjCmp : {t : KType} → Val t → Cell t → Option Int
  | .int, a, b =>
      let i : UInt32 := a
      let j : UInt32 := b.val.getD (0 : UInt32)
      some (int32 (i - j).toNat)
  | .long, a, b =>
      let i : UInt64 := a
      let j : UInt64 := b.val.getD (0 : UInt64)
      some (threeWay (i == j) (decide (i > j)))
  | .u128, a, b =>
      let i : BitVec 128 := a
      let j : BitVec 128 := b.val.getD (0 : BitVec 128)
      some (threeWay (i == j) (decide (i > j)))
  | .text, a, b =>
      let s : List UInt8 := a
      match b.val with
      | some x => some (strncmp s (follow x b.mem))
      | none => if s = [] then some 0 else none

/-- `enum OP`, as far as it compares with one key. -/
inductive Op where
  | eq | ne | gt | ge | lt | le
  deriving DecidableEq, Repr

/-- `bool` is an unsigned char. -/
def toBool (z : Int) : Bool := decide (z % 256 ≠ 0)

variable {t : KType}

def aobjEQ (a : Val t) (b : Cell t) : Option Bool := (aobjCmp a b).map (fun z => decide (z = 0))
def aobjNE (a : Val t) (b : Cell t) : Option Bool := (aobjCmp a b).map toBool
def aobjLT (a : Val t) (b : Cell t) : Option Bool := (aobjCmp a b).map (fun z => decide (z < 0))
def aobjLE (a : Val t) (b : Cell t) : Option Bool := (aobjCmp a b).map (fun z => decide (z ≤ 0))
def aobjGT (a : Val t) (b : Cell t) : Option Bool := (aobjCmp a b).map (fun z => decide (z > 0))
def aobjGE (a : Val t) (b : Cell t) : Option Bool := (aobjCmp a b).map (fun z => decide (z ≥ 0))

/-- `OP_CMP`: the key comes first, so the comparisons are turned around. -/
def opCmp : Op → Val t → Cell t → Option Bool
  | .eq => aobjEQ
  | .ne => aobjNE
  | .gt => aobjLT
  | .ge => aobjLE
  | .lt => aobjGT
  | .le => aobjGE

/-- `f_t`: one key, BETWEEN, or IN. -/
inductive Flt (t : KType) where
  | cmp (op : Op) (key : Val t)
  | between (low high : Val t)
  | inl (keys : List (Val t))

/-- The inner loop of `passFilts` over the keys of IN. -/
def passInl : Bool → List (Val t) → Cell t → Option Bool
  | ret, [], _ => some ret
  | _, k :: ks, c =>
      match aobjEQ k c with
      | none => none
      | some true => some true
      | some false => passInl false ks c

/-- One round of the loop of `passFilts`. -/
def passFilt (f : Flt t) (c : Cell t) : Option Bool :=
  match f with
  | .inl keys => passInl true keys c
  | .between low high =>
      match opCmp .ge low c with
      | some true => opCmp .le high c
      | r => r
  | .cmp op key => opCmp op key c

/-- `passFilts`: the filters on the columns of a row, up to the first that does not pass. -/
def passFilts : List (Σ t, Nat × Flt t) → (Nat → (t : KType) → Cell t) → Option Bool
  | [], _ => some true
  | f :: fs, row =>
      match passFilt f.2.2 (row f.2.1 f.1) with
      | some true => passFilts fs row
      | r => r

/-! ## Index lookups -/

/-- `btTextCmp`, on the texts that its two streams hold. -/
def btTextCmp (s1 s2 : List UInt8) : Int :=
  if s1.length = s2.length then strncmp s1 (follow s2 fun _ => 0)
  else
    let i := min s1.length s2.length
    let ret := strncmp (s1.take i) (follow s2 fun _ => 0)
    if ret = 0 then (if s1.length < s2.length then -1 else 1) else ret

/-- The comparison of an index: `ulCmp`, `llCmp`, `xlCmp` and `btTextCmp`. -/
def btCmp : {t : KType} → Val t → Val t → Int
  | .int, a, b => threeWay (decide (a = b)) (Val.lt b a)
  | .long, a, b => threeWay (decide (a = b)) (Val.lt b a)
  | .u128, a, b => threeWay (decide (a = b)) (Val.lt b a)
  | .text, a, b => btTextCmp a b

/-- The entries of an index on a column: the rows that have a value there. -/
def indexOf {ρ : Type} (col : ρ → Cell t) (rows : List ρ) : List (Val t × ρ) :=
  rows.filterMap fun r => (col r).val.map fun v => (v, r)

/-- What an index gives for a predicate; only =, BETWEEN and IN are looked up. -/
def indexScan {ρ : Type} (f : Flt t) (ind : List (Val t × ρ)) : Option (List ρ) :=
  match f with
  | .cmp .eq k => some ((ind.filter fun e => decide (btCmp k e.1 = 0)).map Prod.snd)
  | .cmp _ _ => none
  | .between low high =>
      some ((ind.filter fun e => decide (btCmp low e.1 ≤ 0 ∧ btCmp high e.1 ≥ 0)).map Prod.snd)
  | .inl keys =>
      some (keys.flatMap fun k => (ind.filter fun e => decide (btCmp k e.1 = 0)).map Prod.snd)

/-! ## The relation -/

/-- The column, compared with the key. -/
def rel : Op → Val t → Val t → Bool
  | .eq, k, x => decide (x = k)
  | .ne, k, x => decide (x ≠ k)
  | .gt, k, x => k.lt x
  | .ge, k, x => !x.lt k
  | .lt, k, x => x.lt k
  | .le, k, x => !k.lt x

/-- The predicate holds of a column: it has a value, in the relation. -/
def Flt.holds : Flt t → Option (Val t) → Bool
  | _, none => false
  | .cmp op k, some x => rel op k x
  | .between low high, some x => rel .ge low x && rel .le high x
  | .inl keys, some x => decide (x ∈ keys)

end AlchemyDB.Query
