/-
# LRU and LFU columns

The time of the last access is kept in four bytes and the number of accesses in eight,
whatever their values, so that they are written over in place.  Both have readers of their
own beside `sI2I`; the one for LFU reads only four of the eight bytes.
-/
import AlchemyDB.Format.Number

namespace AlchemyDB.Format

open Bytes

/-! ## LRU -/

/-- `cLRUcol`, in a `ulong`. -/
def cLRUcol (l : Nat) : Icol := ⟨4, 4, (l * 8 + 4) % 18446744073709551616⟩

/-- `streamLRUToUInt`. -/
def streamLRUToUInt (m : Nat → UInt8) (o : Nat) : Nat :=
  (ofLe (peek m o 4) + 18446744073709551616 - 4) % 18446744073709551616 / 8 % 4294967296

/-- `overwriteLRUcol`. -/
def overwriteLRUcol (m : Nat → UInt8) (o icol : Nat) : Nat → UInt8 :=
  poke m o (le 4 ((icol * 8 + 4) % 18446744073709551616))

/-! ## LFU -/

/-- `cLFUcol`. -/
def cLFUcol (l : Nat) : Icol := ⟨8, 16, (l * 32 + 16) % 18446744073709551616⟩

/-- `streamLFUToULong`: it follows a pointer to a `uint32`. -/
def streamLFUToULong (m : Nat → UInt8) (o : Nat) : Nat :=
  (ofLe (peek m o 4) + 18446744073709551616 - 16) % 18446744073709551616 / 32

/-- `overwriteLFUcol`. -/
def overwriteLFUcol (m : Nat → UInt8) (o icol : Nat) : Nat → UInt8 :=
  poke m o (le 8 ((icol * 32 + 16) % 18446744073709551616))

/-! ## What is written is read -/

/-- A column that is written as an INT or a LONG, or over an old one, is read as `l` by its own
reader and by `sI2I`. -/
def ReadsBack (col : Icol) (overwrite : (Nat → UInt8) → Nat → Nat → Nat → UInt8)
    (stream : (Nat → UInt8) → Nat → Nat) (l : Nat) (isi : Bool) : Prop :=
  ∀ m o, (Stands m o (wUCol col.sflag col.col isi) → stream m o = l ∧ sI2I m o isi = (l, col.len)) ∧
    stream (overwrite m o l) o = l ∧ sI2I (overwrite m o l) o isi = (l, col.len)

variable {m : Nat → UInt8} {o l : Nat}

/-- `sI2I` reads four bytes with the bit of that form. -/
theorem sI2I_four (isi : Bool) (hl : l < 536870912) (h : Stands m o (le 4 (l * 8 + 4))) :
    sI2I m o isi = (l, 4) := by
  obtain ⟨hz, hb, hv⟩ := form_bits (i := 2) (l := l) (n := 4) rfl (by omega) (by omega) (by omega) h
  have z0 : ¬ (m o).toNat &&& 1 ≠ 0 := not_not.2 (hz 0 (by omega))
  have z1 : ¬ (m o).toNat &&& 2 ≠ 0 := not_not.2 (hz 1 (by omega))
  have hb : (m o).toNat &&& 4 ≠ 0 := hb
  rw [sI2I, if_neg z0, if_neg z1, if_pos hb]
  exact congrArg (·, 4) hv

/-- `sI2I` reads eight bytes with the bit of that form. -/
theorem sI2I_eight (hl : l < 576460752303423488) (h : Stands m o (le 8 (l * 32 + 16))) :
    sI2I m o false = (l, 8) := by
  obtain ⟨hz, hb, hv⟩ := form_bits (i := 4) (l := l) (n := 8) rfl (by omega) (by omega) (by omega) h
  have z0 : ¬ (m o).toNat &&& 1 ≠ 0 := not_not.2 (hz 0 (by omega))
  have z1 : ¬ (m o).toNat &&& 2 ≠ 0 := not_not.2 (hz 1 (by omega))
  have z2 : ¬ (m o).toNat &&& 4 ≠ 0 := not_not.2 (hz 2 (by omega))
  have z3 : ¬ (m o).toNat &&& 8 ≠ 0 := not_not.2 (hz 3 (by omega))
  have hb : (m o).toNat &&& 16 ≠ 0 := hb
  rw [sI2I, if_neg z0, if_neg z1, if_neg z2, if_neg Bool.false_ne_true, if_neg z3, if_pos hb]
  exact congrArg (·, 8) hv

theorem streamLRUToUInt_of (hl : l < 536870912) (h : Stands m o (le 4 (l * 8 + 4))) :
    streamLRUToUInt m o = l := by
  rw [streamLRUToUInt, ofLe_peek h (by omega)]
  omega

/-- The lower half of a number in memory. -/
theorem ofLe_peek_half {v : Nat} (h : Stands m o (le 8 v)) : ofLe (peek m o 4) = v % 4294967296 := by
  have hle : le 8 v = le 4 v ++ le 4 (v / 256 / 256 / 256 / 256) := rfl
  rw [hle, stands_append] at h
  have hp : peek m o 4 = le 4 v := by
    have := h.1
    rwa [Stands, length_le] at this
  rw [hp, ofLe_le]
  norm_num

/-- What is left of the number of accesses in four bytes. -/
theorem streamLFUToULong_of (h : Stands m o (le 8 (l * 32 + 16))) :
    streamLFUToULong m o = l % 134217728 := by
  rw [streamLFUToULong, ofLe_peek_half h]
  omega

/-- The time of the last access is read back, as an INT or as a LONG. -/
theorem lru_readsBack (isi : Bool) (hl : l < 536870912) :
    ReadsBack (cLRUcol l) overwriteLRUcol streamLRUToUInt l isi := by
  have hmod : (l * 8 + 4) % 18446744073709551616 = l * 8 + 4 := Nat.mod_eq_of_lt (by omega)
  intro m o
  constructor
  · intro h
    have h : Stands m o (le 4 (l * 8 + 4)) := by
      rw [cLRUcol, hmod] at h
      exact h
    exact ⟨streamLRUToUInt_of hl h, sI2I_four isi hl h⟩
  · have h : Stands (overwriteLRUcol m o l) o (le 4 (l * 8 + 4)) := by
      rw [overwriteLRUcol, hmod]
      exact stands_poke m o _
    exact ⟨streamLRUToUInt_of hl h, sI2I_four isi hl h⟩

theorem stands_cLFUcol (hl : l < 576460752303423488) :
    wUCol (cLFUcol l).sflag (cLFUcol l).col false = le 8 (l * 32 + 16) := by
  rw [cLFUcol, Nat.mod_eq_of_lt (by omega)]
  rfl

theorem stands_overwriteLFUcol (m : Nat → UInt8) (o : Nat) (hl : l < 576460752303423488) :
    Stands (overwriteLFUcol m o l) o (le 8 (l * 32 + 16)) := by
  rw [overwriteLFUcol, Nat.mod_eq_of_lt (by omega)]
  exact stands_poke m o _

/-- The number of accesses is read back just when it is below `2^27`. -/
theorem lfu_readsBack_iff (hl : l < 576460752303423488) :
    ReadsBack (cLFUcol l) overwriteLFUcol streamLFUToULong l false ↔ l < 134217728 := by
  constructor
  · intro h
    have hs := (h (fun _ => 0) 0).2.1
    rw [streamLFUToULong_of (stands_overwriteLFUcol _ 0 hl)] at hs
    exact hs ▸ Nat.mod_lt l (by decide)
  · intro hlt m o
    constructor
    · intro h
      rw [stands_cLFUcol hl] at h
      exact ⟨(streamLFUToULong_of h).trans (Nat.mod_eq_of_lt hlt), sI2I_eight hl h⟩
    · have h := stands_overwriteLFUcol m o hl
      exact ⟨(streamLFUToULong_of h).trans (Nat.mod_eq_of_lt hlt), sI2I_eight hl h⟩

end AlchemyDB.Format
