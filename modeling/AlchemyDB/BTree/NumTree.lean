/-
# `AlchemyDB.BTree.NumTree` — the trees that are keyed by numbers

An INT, a LONG or a U128 is the key of four kinds of trees.  A table keeps its rows as
streams, each with the key in front.  The node of an index keeps primary keys and nothing
else; an INT or LONG among them stands where a pointer would, and is null when it is 0.
Tables and indexes of two numbers keep pairs, and those of two INTs one word for the pair,
which is again a null pointer when the key is 0.

What the iterators rely on is the same for all: the keys are compared as numbers, a key that
goes to the tree comes back, and only 0 may be refused.
-/
import AlchemyDB.BTree.Offset
import AlchemyDB.Row.Packed
import AlchemyDB.Format.Key

namespace AlchemyDB

open Rdb Bytes

/-! ## Numbers -/

/-- `COL_TYPE_INT`, `COL_TYPE_LONG` and `COL_TYPE_U128`. -/
inductive NumKind where
  | int | long | u128
deriving DecidableEq, Repr

namespace NumKind

/-- The numbers of a type are below it. -/
def limit : NumKind → Nat
  | .int => 4294967296
  | .long => 18446744073709551616
  | .u128 => 340282366920938463463374607431768211456

/-- The iterators compare INTs and LONGs as LONGs. -/
def word : NumKind → Nat
  | .int | .long => 18446744073709551616
  | .u128 => 340282366920938463463374607431768211456

theorem limit_le_word (t : NumKind) : t.limit ≤ t.word := by cases t <;> decide

theorem limit_pos (t : NumKind) : 0 < t.limit := by cases t <;> decide

end NumKind

/-- What all the comparisons of numbers in `stream.c` do. -/
def numCmp (a b : Nat) : Int := if a = b then 0 else if a > b then 1 else -1

theorem numCmp_sign (a b : Nat) : (numCmp a b < 0 ↔ a < b) ∧ (numCmp a b = 0 ↔ a = b) := by
  unfold numCmp
  split
  · omega
  · split <;> omega

theorem numCmp_ok {α : Type} {n : Nat} (key : α → Fin n) :
    CmpOk (fun a b => numCmp (key a).val (key b).val) key where
  lt a b := by
    rw [Fin.lt_def]
    exact (numCmp_sign _ _).1
  eq a b := by
    rw [Fin.ext_iff]
    exact (numCmp_sign _ _).2

/-- The tests of `btRangeNext` on numbers; the DR is added to the number of the key. -/
def rangeKeys {α : Type} {n : Nat} (t : NumKind) (bkey : Fin n → Option α) (null : α → Bool)
    (key : α → Fin n) : RangeKeys α (Fin n) where
  bkey := bkey
  num := Fin.val
  null := null
  key := key
  exact k h := decide (k = h)
  isOver asc k dr h := if asc then decide (h < k) else decide ((k.val + dr) % t.word < h.val)

theorem rangeKeys_number {α : Type} {n : Nat} {t : NumKind} (h : n ≤ t.word)
    {bkey : Fin n → Option α} {null : α → Bool} {key : α → Fin n} :
    NumberKeys (rangeKeys t bkey null key) where
  up k h := by simp [rangeKeys]
  down k l := by
    have hk : k.val % t.word = k.val := Nat.mod_eq_of_lt (k.isLt.trans_le h)
    simp [rangeKeys, hk]
  exact k h := by simp [rangeKeys]

/-- A kind of trees whose keys are the numbers below `n`.  `Entry` holds of what the commands store. -/
structure NumTree (α : Type) [RowStream α] (n : Nat) where
  keys : RangeKeys α (Fin n)
  cmp : α → α → Int
  Entry : α → Prop
  number : NumberKeys keys
  ordered : CmpOk cmp keys.key
  made : ∀ k e, keys.bkey k = some e → keys.key e = k
  zero : ∀ k, keys.bkey k = none → k.val = 0
  sound : ∀ e, Entry e → Sound keys e

/-! ## The rows of a table -/

/-- The stream of a row. -/
structure RowEntry (t : NumKind) where
  stream : Block
deriving DecidableEq

namespace RowEntry

variable {t : NumKind}

/-- The number of `convertStream2Key`. -/
def number : (t : NumKind) → (Nat → UInt8) → Fin t.limit
  | .int, m => ⟨(Format.Key.streamIntToUInt m 0).toNat, UInt32.toNat_lt _⟩
  | .long, m => ⟨(Format.Key.streamLongToULong m 0).toNat, UInt64.toNat_lt _⟩
  | .u128, m => ⟨(Format.Key.streamToU128 m 0).toNat, BitVec.isLt _⟩

/-- `skipToVal`. -/
def klen : NumKind → (Nat → UInt8) → Nat
  | .int, m => Format.Key.skipToVal .int m 0
  | .long, m => Format.Key.skipToVal .long m 0
  | .u128, m => Format.Key.skipToVal .u128 m 0

def key (e : RowEntry t) : Fin t.limit := number t (mem e.stream)

/-- `IS_GHOST`: the first byte of the row is 0; `createStream` without a row writes eight such. -/
instance : RowStream (RowEntry t) where
  numKey e := e.key.val
  ghost e := ⟨peek (mem e.stream) 0 (klen t (mem e.stream)) ++ List.replicate 8 0⟩
  isGhost e := mem e.stream (klen t (mem e.stream)) = 0

instance : Inhabited (RowEntry t) := ⟨⟨[]⟩⟩

/-- `createBTKey`; what stands in the buffer behind the key is not read. -/
def ofKey : (t : NumKind) → Fin t.limit → Option (RowEntry t)
  | .int, k => (Format.Key.cr8BTKInt (UInt32.ofNat k.val)).map fun b => ⟨b.btkey⟩
  | .long, k => some ⟨(Format.Key.cr8BTKLong (UInt64.ofNat k.val)).btkey⟩
  | .u128, k => some ⟨(Format.Key.cr8BTKU128 (BitVec.ofNat 128 k.val)).btkey⟩

theorem ofKey_made : ∀ (t : NumKind) (k : Fin t.limit), ∃ e, ofKey t k = some e ∧ e.key = k
  | .int, k => by
      have hk : (UInt32.ofNat k.val).toNat = k.val := Nat.mod_eq_of_lt k.isLt
      refine ⟨_, by rw [ofKey, Format.Key.cr8BTKInt_some]; rfl, Fin.ext ?_⟩
      exact (congrArg UInt32.toNat (Format.Key.streamIntToUInt_of (stands_follow _ _))).trans hk
  | .long, k => by
      have hk : (UInt64.ofNat k.val).toNat = k.val := Nat.mod_eq_of_lt k.isLt
      refine ⟨_, rfl, Fin.ext ?_⟩
      rw [Format.Key.cr8BTKLong_eq]
      exact (congrArg UInt64.toNat (Format.Key.streamLongToULong_of (stands_follow _ _))).trans hk
  | .u128, k => by
      have hk : (BitVec.ofNat 128 k.val).toNat = k.val := Nat.mod_eq_of_lt k.isLt
      refine ⟨_, rfl, Fin.ext ?_⟩
      exact (congrArg BitVec.toNat (Format.Key.streamToU128_of (stands_follow _ _))).trans hk

end RowEntry

/-- Tables with a numeric primary key, but for those of two numbers. -/
def rowTree (t : NumKind) : NumTree (RowEntry t) t.limit where
  keys := rangeKeys t (RowEntry.ofKey t) (fun _ => false) RowEntry.key
  cmp a b := numCmp a.key.val b.key.val
  Entry e := RowStream.isGhost e = false
  number := rangeKeys_number t.limit_le_word
  ordered := numCmp_ok RowEntry.key
  made k e he := by
    obtain ⟨e', he', hk⟩ := RowEntry.ofKey_made t k
    obtain rfl := Option.some.inj (he.symm.trans he')
    exact hk
  zero k hk := by
    obtain ⟨e, he, -⟩ := RowEntry.ofKey_made t k
    cases he.symm.trans hk
  sound e he := ⟨rfl, he, RowEntry.ofKey_made t _⟩

/-! ## The nodes of an index -/

/-- A primary key in the node of an index. -/
structure NodeKey (t : NumKind) where
  pk : Fin t.limit
deriving DecidableEq

instance {t : NumKind} : Inhabited (NodeKey t) := ⟨⟨⟨0, t.limit_pos⟩⟩⟩

/-- There is no row in a node, and so no ghost. -/
instance {t : NumKind} : RowStream (NodeKey t) where
  numKey e := e.pk.val
  ghost := id
  isGhost _ := false

/-- The nodes of indexes; a U128 is handed over by reference and is never null. -/
def nodeTree (t : NumKind) : NumTree (NodeKey t) t.limit where
  keys := rangeKeys t (fun k => if t ≠ .u128 ∧ k.val = 0 then none else some ⟨k⟩)
    (fun e => decide (t ≠ .u128 ∧ e.pk.val = 0)) NodeKey.pk
  cmp a b := numCmp a.pk.val b.pk.val
  Entry e := ¬ (t ≠ .u128 ∧ e.pk.val = 0)
  number := rangeKeys_number t.limit_le_word
  ordered := numCmp_ok NodeKey.pk
  made k e he := by
    simp only [rangeKeys] at he
    split at he
    · cases he
    · cases he
      rfl
  zero k hk := by
    simp only [rangeKeys] at hk
    split at hk
    · next h => exact h.2
    · cases hk
  sound e he := ⟨decide_eq_false he, rfl, e, if_neg he, rfl⟩

/-! ## Pairs -/

/-- `ulk`, `luk`, `llk` and so on. -/
structure NumPair (t v : NumKind) where
  key : Fin t.limit
  val : Fin v.limit
deriving DecidableEq

instance {t v : NumKind} : Inhabited (NumPair t v) := ⟨⟨⟨0, t.limit_pos⟩, ⟨0, v.limit_pos⟩⟩⟩

instance {t v : NumKind} : RowStream (NumPair t v) where
  numKey e := e.key.val
  ghost := id
  isGhost _ := false

/-- The trees of pairs: tables and unique indexes of two numbers, order-by nodes, and indexes, whose
value is a pointer.  In the structure of `createBTKey` only the key is ever set. -/
def pairTree (t v : NumKind) : NumTree (NumPair t v) t.limit where
  keys := rangeKeys t (fun k => some ⟨k, ⟨0, v.limit_pos⟩⟩) (fun _ => false) NumPair.key
  cmp a b := numCmp a.key.val b.key.val
  Entry _ := True
  number := rangeKeys_number t.limit_le_word
  ordered := numCmp_ok NumPair.key
  made k e he := by
    cases he
    rfl
  zero k hk := by cases hk
  sound e _ := ⟨rfl, rfl, _, rfl, rfl⟩

/-! ## Words -/

/-- The word of two INTs.  The keys from 1 to 2^31 are those that `uuCmp` orders. -/
structure UUWord where
  word : Int
  ordered : 0 < Index.uuKey word ∧ Index.uuKey word ≤ 2147483648
deriving DecidableEq

namespace UUWord

def key (e : UUWord) : Fin 2147483649 := ⟨Index.uuKey e.word, Nat.lt_succ_of_le e.ordered.2⟩

instance : RowStream UUWord where
  numKey e := e.key.val
  ghost := id
  isGhost _ := false

theorem uuKey_mul {k : Nat} (hk : k < 4294967296) : Index.uuKey (k * Index.uintMax) = k := by
  have hd := (Row.tdiv_tmod_of_nonneg (z := k * Index.uintMax) (k := k) (r := 0)
    (by rw [Int.mul_comm, Int.add_zero]) (by omega) le_rfl (by decide)).1
  rw [Index.uuKey, hd]
  omega

/-- `createBTKey`: up to 2^31 the product does not wrap, and that of 0 is the null pointer. -/
def ofKey (k : Fin 2147483649) : Option UUWord :=
  if h : k.val = 0 then none
  else some
    { word := k.val * Index.uintMax
      ordered := by
        have hk := k.isLt
        rw [uuKey_mul (by omega)]
        omega }

instance : Inhabited UUWord := ⟨⟨Index.uintMax, by decide⟩⟩

theorem key_of_ofKey {k : Fin 2147483649} {e : UUWord} (h : ofKey k = some e) : e.key = k := by
  have hk := k.isLt
  unfold ofKey at h
  split at h
  · cases h
  · cases h
    exact Fin.ext (uuKey_mul (by omega))

theorem word_ne_zero (e : UUWord) : e.word ≠ 0 := by
  intro h
  have hpos := e.ordered.1
  rw [h] at hpos
  exact absurd hpos (by decide)

/-- The difference of two quotients, cut to an `int`, is that of the keys. -/
theorem uuCmp_eq (a b : UUWord) : Row.uuCmp a.word b.word = (a.key.val : Int) - b.key.val := by
  obtain ⟨ha, ha'⟩ := a.ordered
  obtain ⟨hb, hb'⟩ := b.ordered
  simp only [key, Row.uuCmp, Row.int32, Index.uuKey] at *
  omega

end UUWord

/-- Tables and unique indexes of two INTs, with the keys up to 2^31. -/
def uuTree : NumTree UUWord 2147483649 where
  keys := rangeKeys .int UUWord.ofKey (fun e => decide (e.word = 0)) UUWord.key
  cmp a b := Row.uuCmp a.word b.word
  Entry _ := True
  number := rangeKeys_number (by decide)
  ordered :=
    { lt := fun a b => by
        rw [UUWord.uuCmp_eq, Fin.lt_def]
        simp only [rangeKeys]
        omega
      eq := fun a b => by
        rw [UUWord.uuCmp_eq, Fin.ext_iff]
        simp only [rangeKeys]
        omega }
  made k e he := UUWord.key_of_ofKey he
  zero k hk := by
    by_contra h
    simp only [rangeKeys, UUWord.ofKey, dif_neg h, reduceCtorEq] at hk
  sound e _ := by
    have hpos : e.key.val ≠ 0 := Nat.ne_of_gt e.ordered.1
    have hmade : UUWord.ofKey e.key = some
        ⟨e.key.val * Index.uintMax, by rw [UUWord.uuKey_mul (lt_of_lt_of_le e.key.isLt (by decide))]
                                       exact e.ordered⟩ := dif_neg hpos
    exact ⟨decide_eq_false e.word_ne_zero, rfl, _, hmade, UUWord.key_of_ofKey hmade⟩

end AlchemyDB
