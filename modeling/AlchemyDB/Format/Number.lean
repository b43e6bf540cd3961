/-
# Numbers in a row

An INT or a LONG is stored in one to nine bytes.  The lowest set bit of the first
byte tells the width; the widest forms, which have no bit to spare, have a byte of
their own in front.  `cIcol` chooses the form, `wUCol` writes it and `sI2I` reads it
back.
-/
import AlchemyDB.Lib.Bytes
import Mathlib.Data.Nat.Bitwise

namespace AlchemyDB.Format

open Bytes

/-- `getCSize`: the bytes that a number takes, as an INT or as a LONG. -/
def getCSize (l : Nat) (isi : Bool) : Nat :=
  if l < 128 then 1
  else if l < 16384 then 2
  else if l < 536870912 then 4
  else if isi then 5
  else if l < 17592186044416 then 6
  else if l < 576460752303423488 then 8
  else 9

/-- What `cIcol` returns: the length, the flag `COL_nBYTE_INT` and the shifted number. -/
structure Icol where
  len : Nat
  sflag : Nat
  col : Nat
  deriving DecidableEq, Repr

/-- `cIcol`; the flags of five and nine bytes are the same. -/
def cIcol (l : Nat) (isi : Bool) : Icol :=
  if l < 128 then ⟨1, 1, l * 2 + 1⟩
  else if l < 16384 then ⟨2, 2, l * 4 + 2⟩
  else if l < 536870912 then ⟨4, 4, l * 8 + 4⟩
  else if isi then ⟨5, 32, l⟩
  else if l < 17592186044416 then ⟨6, 8, l * 16 + 8⟩
  else if l < 576460752303423488 then ⟨8, 16, l * 32 + 16⟩
  else ⟨9, 32, l⟩

/-- `wUCol`: the bytes that it appends. -/
def wUCol (sflag icol : Nat) (isi : Bool) : List UInt8 :=
  if sflag = 0 then []
  else if sflag = 1 then le 1 icol
  else if sflag = 2 then le 2 icol
  else if sflag = 4 then le 4 icol
  else if isi then 32 :: le 4 icol
  else if sflag = 8 then le 6 icol
  else if sflag = 16 then le 8 icol
  else 32 :: le 8 icol

/-- `sI2I`: the number at an address, and the bytes that it takes. -/
def sI2I (m : Nat → UInt8) (o : Nat) (isi : Bool) : Nat × Nat :=
  let b1 := (m o).toNat
  if b1 &&& 1 ≠ 0 then ((ofLe (peek m o 1) - 1) / 2, 1)
  else if b1 &&& 2 ≠ 0 then ((ofLe (peek m o 2) - 2) / 4, 2)
  else if b1 &&& 4 ≠ 0 then ((ofLe (peek m o 4) - 4) / 8, 4)
  else if isi then (ofLe (peek m (o + 1) 4), 5)
  else if b1 &&& 8 ≠ 0 then ((ofLe (peek m o 6) - 8) / 16, 6)
  else if b1 &&& 16 ≠ 0 then ((ofLe (peek m o 8) - 16) / 32, 8)
  else (ofLe (peek m (o + 1) 8), 9)

/-- The limit of an INT or a LONG. -/
def limit (isi : Bool) : Nat := if isi then 4294967296 else 18446744073709551616

/-- The bytes of a number. -/
def numBytes (l : Nat) (isi : Bool) : List UInt8 := wUCol (cIcol l isi).sflag (cIcol l isi).col isi

/-! ## The forms -/

/-- A form that is told by a bit: a number of `n` bytes, shifted by `2^(i+1)`, with bit `i` set. -/
theorem form_bits {m : Nat → UInt8} {o n c i l : Nat} (hc : c = l * 2 ^ (i + 1) + 2 ^ i)
    (hi : i < 8) (hn : 0 < n) (hb : c < 256 ^ n) (h : Stands m o (le n c)) :
    (∀ j < i, (m o).toNat &&& 2 ^ j = 0) ∧ (m o).toNat &&& 2 ^ i ≠ 0 ∧
      (ofLe (peek m o n) - 2 ^ i) / 2 ^ (i + 1) = l := by
  have hm : (m o).toNat = c % 256 := by
    obtain ⟨n, rfl⟩ : ∃ k, n = k + 1 := ⟨n - 1, by omega⟩
    rw [le, stands_cons] at h
    rw [h.1]
    exact UInt8.toNat_ofNat'
  have hbit : ∀ j ≤ i, (m o).toNat.testBit j = decide (j = i) := by
    intro j hj
    have hc' : c = 2 ^ i * (2 * l + 1) := by rw [hc]; ring
    rw [hm, show (256 : Nat) = 2 ^ 8 from rfl, Nat.testBit_mod_two_pow, hc',
      Nat.testBit_two_pow_mul]
    rcases Nat.lt_or_ge j i with hlt | hge
    · simp [show ¬ j ≥ i by omega, show j ≠ i by omega]
    · obtain rfl : j = i := by omega
      simp [hi]
  refine ⟨fun j hj => ?_, ?_, ?_⟩
  · rw [Nat.and_two_pow, hbit j (by omega)]
    simp [show j ≠ i by omega]
  · rw [Nat.and_two_pow, hbit i le_rfl]
    simp
  · rw [ofLe_peek h hb, hc, Nat.add_sub_cancel, Nat.mul_div_cancel _ (Nat.two_pow_pos _)]

/-- A form with a byte in front, which has bit 5 set. -/
theorem form_front {m : Nat → UInt8} {o n l : Nat} (hb : l < 256 ^ n)
    (h : Stands m o (32 :: le n l)) :
    (m o).toNat = 32 ∧ ofLe (peek m (o + 1) n) = l := by
  obtain ⟨h32, hl⟩ := stands_cons.1 h
  exact ⟨by rw [h32]; rfl, ofLe_peek hl hb⟩

theorem cIcol_len (l : Nat) (isi : Bool) : (cIcol l isi).len = getCSize l isi := by
  unfold cIcol getCSize
  split_ifs <;> rfl

/-- A number takes the bytes that are counted for it. -/
theorem length_numBytes (l : Nat) (isi : Bool) : (numBytes l isi).length = getCSize l isi := by
  unfold numBytes cIcol getCSize
  split_ifs <;> simp [wUCol, *]

/-- What is written for a number is read as that number, at any address. -/
theorem sI2I_numBytes {m : Nat → UInt8} {o l : Nat} {I : Bool} (hl : l < limit I)
    (h : Stands m o (numBytes l I)) : sI2I m o I = (l, getCSize l I) := by
  unfold numBytes cIcol at h
  unfold getCSize sI2I
  by_cases h7 : l < 128
  · simp only [h7, if_true] at h ⊢
    obtain ⟨-, hb, hv⟩ := form_bits (i := 0) (l := l) (n := 1) rfl (by omega) (by omega)
      (by omega) h
    have hb : (m o).toNat &&& 1 ≠ 0 := hb
    rw [if_pos hb]
    exact congrArg (·, 1) hv
  by_cases h14 : l < 16384
  · simp only [h7, h14, if_true, if_false] at h ⊢
    obtain ⟨hz, hb, hv⟩ := form_bits (i := 1) (l := l) (n := 2) rfl (by omega) (by omega)
      (by omega) h
    have z0 : ¬ (m o).toNat &&& 1 ≠ 0 := not_not.2 (hz 0 (by omega))
    have hb : (m o).toNat &&& 2 ≠ 0 := hb
    rw [if_neg z0, if_pos hb]
    exact congrArg (·, 2) hv
  by_cases h29 : l < 536870912
  · simp only [h7, h14, h29, if_true, if_false] at h ⊢
    obtain ⟨hz, hb, hv⟩ := form_bits (i := 2) (l := l) (n := 4) rfl (by omega) (by omega)
      (by omega) h
    have z0 : ¬ (m o).toNat &&& 1 ≠ 0 := not_not.2 (hz 0 (by omega))
    have z1 : ¬ (m o).toNat &&& 2 ≠ 0 := not_not.2 (hz 1 (by omega))
    have hb : (m o).toNat &&& 4 ≠ 0 := hb
    rw [if_neg z0, if_neg z1, if_pos hb]
    exact congrArg (·, 4) hv
  cases I with
  | true =>
      simp only [h7, h14, h29, if_true, if_false] at h ⊢
      obtain ⟨hb, hv⟩ := form_front (n := 4) hl h
      rw [hb, hv]
      rfl
  | false =>
      by_cases h44 : l < 17592186044416
      · simp only [h7, h14, h29, h44, if_true, if_false, Bool.false_eq_true] at h ⊢
        obtain ⟨hz, hb, hv⟩ := form_bits (i := 3) (l := l) (n := 6) rfl (by omega) (by omega)
          (by omega) h
        have z0 : ¬ (m o).toNat &&& 1 ≠ 0 := not_not.2 (hz 0 (by omega))
        have z1 : ¬ (m o).toNat &&& 2 ≠ 0 := not_not.2 (hz 1 (by omega))
        have z2 : ¬ (m o).toNat &&& 4 ≠ 0 := not_not.2 (hz 2 (by omega))
        have hb : (m o).toNat &&& 8 ≠ 0 := hb
        rw [if_neg z0, if_neg z1,
          if_neg z2, if_pos hb]
        exact congrArg (·, 6) hv
      by_cases h59 : l < 576460752303423488
      · simp only [h7, h14, h29, h44, h59, if_true, if_false, Bool.false_eq_true] at h ⊢
        obtain ⟨hz, hb, hv⟩ := form_bits (i := 4) (l := l) (n := 8) rfl (by omega) (by omega)
          (by omega) h
        have z0 : ¬ (m o).toNat &&& 1 ≠ 0 := not_not.2 (hz 0 (by omega))
        have z1 : ¬ (m o).toNat &&& 2 ≠ 0 := not_not.2 (hz 1 (by omega))
        have z2 : ¬ (m o).toNat &&& 4 ≠ 0 := not_not.2 (hz 2 (by omega))
        have z3 : ¬ (m o).toNat &&& 8 ≠ 0 := not_not.2 (hz 3 (by omega))
        have hb : (m o).toNat &&& 16 ≠ 0 := hb
        rw [if_neg z0, if_neg z1,
          if_neg z2, if_neg z3, if_pos hb]
        exact congrArg (·, 8) hv
      simp only [h7, h14, h29, h44, h59, if_false, Bool.false_eq_true] at h ⊢
      obtain ⟨hb, hv⟩ := form_front (n := 8) hl h
      rw [hb, hv]
      rfl

/-! ## The codec -/

/-- A number that is written does not begin with a 0, if its lowest byte is not 0. -/
theorem le_head {n c : Nat} (hn : 0 < n) (hc : c % 256 ≠ 0) : ∃ b bs, le n c = b :: bs ∧ b ≠ 0 := by
  obtain ⟨n, rfl⟩ : ∃ k, n = k + 1 := ⟨n - 1, by omega⟩
  refine ⟨UInt8.ofNat c, le n (c / 256), rfl, fun h => hc ?_⟩
  have h' : (UInt8.ofNat c).toNat = 0 := congrArg UInt8.toNat h
  rwa [UInt8.toNat_ofNat'] at h'

/-- The first byte of a number is not 0, which marks a ghost. -/
theorem numBytes_head (l : Nat) (isi : Bool) : ∃ b bs, numBytes l isi = b :: bs ∧ b ≠ 0 := by
  have h32 (bs : List UInt8) : ∃ b cs, (32 : UInt8) :: bs = b :: cs ∧ b ≠ 0 := ⟨32, bs, rfl, by decide⟩
  cases isi with
  | false =>
      simp only [numBytes, cIcol, Bool.false_eq_true, if_false]
      split_ifs with h7 h14 h29 h44 h59
      · exact le_head (n := 1) (c := l * 2 + 1) (by omega) (by omega)
      · exact le_head (n := 2) (c := l * 4 + 2) (by omega) (by omega)
      · exact le_head (n := 4) (c := l * 8 + 4) (by omega) (by omega)
      · exact le_head (n := 6) (c := l * 16 + 8) (by omega) (by omega)
      · exact le_head (n := 8) (c := l * 32 + 16) (by omega) (by omega)
      · exact h32 (le 8 l)
  | true =>
      simp only [numBytes, cIcol, if_true]
      split_ifs with h7 h14 h29
      · exact le_head (n := 1) (c := l * 2 + 1) (by omega) (by omega)
      · exact le_head (n := 2) (c := l * 4 + 2) (by omega) (by omega)
      · exact le_head (n := 4) (c := l * 8 + 4) (by omega) (by omega)
      · exact h32 (le 4 l)

/-- Every INT and every LONG is read back, of as many bytes as were written and counted for it, the
first of them not 0; what stands behind them makes no difference. -/
theorem number_codec {l : Nat} {isi : Bool} (hl : l < limit isi) :
    ((cIcol l isi).len = getCSize l isi ∧ (numBytes l isi).length = getCSize l isi) ∧
      (∃ b bs, numBytes l isi = b :: bs ∧ b ≠ 0) ∧
      ∀ m o, Stands m o (numBytes l isi) → sI2I m o isi = (l, getCSize l isi) :=
  ⟨⟨cIcol_len l isi, length_numBytes l isi⟩, numBytes_head l isi, fun _ _ h => sI2I_numBytes hl h⟩

/-- A LONG of nine bytes. -/
theorem number_codec_wide :
    ((cIcol 576460752303423488 false).len = 9 ∧ (numBytes 576460752303423488 false).length = 9) ∧
      (∃ b bs, numBytes 576460752303423488 false = b :: bs ∧ b ≠ 0) ∧
      ∀ m o, Stands m o (numBytes 576460752303423488 false) →
        sI2I m o false = (576460752303423488, 9) :=
  number_codec (by decide)

end AlchemyDB.Format
