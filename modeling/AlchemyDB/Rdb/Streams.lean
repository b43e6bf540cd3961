/-
# The blocks a table holds

What `createStream` puts into a tree is a block that the dump writes as it is: a packed
structure has the size of its layout, and a stream in row storage the size that its key
and its row tell, which depends on the bytes of the stream alone.
-/
import AlchemyDB.Rdb.Rows
import AlchemyDB.Format.Geometry

namespace AlchemyDB.Rdb

open Bytes Format Row

/-! ## Packed structures -/

theorem ksize_bounds (ktype : ColType) (types : List (Option ColType)) :
    0 < (dbtSpec ktype types).ksize ∧ (dbtSpec ktype types).ksize ≤ 32 := by
  have hnum : ∀ n : Row.Num, 0 < n.size ∧ n.size ≤ 16 := by
    intro n
    cases n <;> decide
  unfold dbtSpec
  split <;> try split
  · rename_i l _
    have h1 := hnum l.key
    have h2 := hnum l.val
    simp only
    omega
  · exact ⟨Nat.succ_pos 7, by simp⟩
  · exact ⟨Nat.succ_pos 7, by simp⟩

theorem made_packed {ktype : ColType} {types : List (Option ColType)} {e : Block}
    (h : (dbtSpec ktype types).otherBt = true) (he : e.length = (dbtSpec ktype types).ksize) :
    Made (dbtSpec ktype types) e := by
  obtain ⟨h1, h2⟩ := ksize_bounds ktype types
  exact ⟨by rw [packed_size h, he], by omega, by omega⟩

/-! ## Keys -/

/-- A primary key in row storage. -/
inductive Key where
  | int (i : UInt32)
  | long (l : UInt64)
  | u128 (x : BitVec 128)
  | float (f : BitVec 32)
  | text (s : { s : List UInt8 // s.length < 2147483648 })

namespace Key

def ktype : Key → ColType
  | int _ => .int
  | long _ => .long
  | u128 _ => .u128
  | float _ => .float
  | text _ => .string

/-- `createBTKey`. -/
def bytes : Key → List UInt8
  | int i => numBytes i.toNat true
  | long l => numBytes l.toNat false
  | u128 x => le 16 x.toNat
  | float f => le 4 f.toNat
  | text s =>
      if s.1.length < 128 then UInt8.ofNat (s.1.length * 2 + 1) :: s.1 else le 4 (s.1.length * 2) ++ s.1

/-- The flag in the first byte of a short text; a long text has it clear. -/
theorem text_flag (n : Nat) : (UInt8.ofNat (n * 2 + 1)).toNat &&& 1 ≠ 0 ∧ (UInt8.ofNat (n * 2)).toNat &&& 1 = 0 := by
  have h1 : (UInt8.ofNat (n * 2 + 1)).toNat = (n * 2 + 1) % 256 := UInt8.toNat_ofNat'
  have h2 : (UInt8.ofNat (n * 2)).toNat = n * 2 % 256 := UInt8.toNat_ofNat'
  rw [h1, h2, Nat.and_one_is_mod, Nat.and_one_is_mod]
  omega

/-- `skipToVal` skips the key that stands there. -/
theorem skip (k : Key) {m : Nat → UInt8} (h : Stands m 0 k.bytes) : skipToVal k.ktype m = k.bytes.length := by
  cases k with
  | int i =>
      show (sI2I m 0 true).2 = (numBytes i.toNat true).length
      rw [sI2I_numBytes i.toNat_lt h, length_numBytes]
  | long l =>
      show (sI2I m 0 false).2 = (numBytes l.toNat false).length
      rw [sI2I_numBytes l.toNat_lt h, length_numBytes]
  | u128 x => exact (length_le 16 _).symm
  | float f => exact (length_le 4 _).symm
  | text s =>
      obtain ⟨s, hs⟩ := s
      obtain ⟨hodd, heven⟩ := text_flag s.length
      simp only [skipToVal, ktype, bytes] at h ⊢
      by_cases hlen : s.length < 128
      · rw [if_pos hlen] at h
        have h0 : (m 0).toNat = (s.length * 2 + 1) % 256 := by
          rw [(stands_cons.1 h).1]
          exact UInt8.toNat_ofNat'
        rw [if_pos hlen, if_pos (by rw [(stands_cons.1 h).1]; exact hodd), h0, List.length_cons]
        omega
      · rw [if_neg hlen] at h
        obtain ⟨hl, -⟩ := stands_append.1 h
        have h0 : m 0 = UInt8.ofNat (s.length * 2) := (stands_cons.1 hl).1
        rw [if_neg hlen, if_neg (by rw [h0]; exact not_not.2 heven),
          ofLe_peek hl (show s.length * 2 < 256 ^ 4 by omega), List.length_append, length_le]
        omega

theorem length_pos (k : Key) : 0 < k.bytes.length := by
  cases k with
  | int i =>
      show 0 < (numBytes i.toNat true).length
      rw [length_numBytes, getCSize]
      split_ifs <;> decide
  | long l =>
      show 0 < (numBytes l.toNat false).length
      rw [length_numBytes, getCSize]
      split_ifs <;> decide
  | u128 x => exact Nat.succ_pos 15
  | float f => exact Nat.succ_pos 3
  | text s =>
      rw [bytes]
      split_ifs <;> simp

end Key

/-! ## Rows -/

theorem follow_append (b : List UInt8) (m : Nat → UInt8) : ∀ (a : List UInt8) (i : Nat),
    follow (a ++ b) m (a.length + i) = follow b m i
  | [], i => by rw [List.nil_append, List.length_nil, Nat.zero_add]
  | c :: a, i => by
      rw [List.length_cons, Nat.add_right_comm]
      exact follow_append b m a i

/-- `createStream`: the key and the row behind it. -/
def createStream (k : Key) (row : List UInt8) : Block := k.bytes ++ row

/-- A row that is as long as it says makes a stream that is as long as it says. -/
theorem made_stream (k : Key) {row : List UInt8} (hrow : ∀ m, getRowMallocSize (follow row m) = row.length)
    (hint : (createStream k row).length < 2147483648) :
    Made ⟨k.ktype, .table, 8, btflagNone⟩ (createStream k row) := by
  have hk := k.length_pos
  rw [createStream, List.length_append] at hint
  have hskip : skipToVal k.ktype (mem (createStream k row)) = k.bytes.length :=
    k.skip (stands_append.1 (stands_follow (k.bytes ++ row) _)).1
  have hrest : (fun i => mem (createStream k row) (k.bytes.length + i)) = follow row fun _ => 0 :=
    funext fun i => follow_append row _ k.bytes i
  refine ⟨?_, ?_, ?_⟩
  · show u32 (skipToVal k.ktype (mem (createStream k row)) + getRowMallocSize fun i =>
      mem (createStream k row) (skipToVal k.ktype (mem (createStream k row)) + i)) = _
    rw [hskip, hrest, hrow, createStream, List.length_append, u32, Nat.mod_eq_of_lt (by omega)]
  · rw [createStream, List.length_append]
    omega
  · rwa [createStream, List.length_append]

/-- The rows that `writeRow` makes of the fields of a table. -/
theorem made_row {zip : Bool} {z : Lzf} {fields : List Field} (G : Geometry zip z fields) (k : Key) :
    ∃ row, writeRow zip z (createRow fields) = some row ∧
      ((createStream k row).length < 2147483648 →
        Made ⟨k.ktype, .table, 8, btflagNone⟩ (createStream k row)) := by
  obtain ⟨zt, cr, row, -, hw, S⟩ := G
  exact ⟨row, hw, made_stream k S.size⟩

end AlchemyDB.Rdb
