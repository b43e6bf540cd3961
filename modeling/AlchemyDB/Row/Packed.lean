/-
# Packed words — INT keys with INT values

A table of two INT columns, and a unique index from INT to INT, keeps an entry as
one signed 64 bit word `key * UINT_MAX + val` (`UU`).  The factor is `2^32 - 1`,
not `2^32`, so the value `2^32 - 1` carries into the key; the product wraps for
keys above `2^31`; and `uuCmp` truncates a difference of quotients to an `int`.
This module says exactly which entries read back, and which pairs of them are
compared rightly.
-/
import AlchemyDB.Index.Model

namespace AlchemyDB.Row

open Index

/-! ## Reading and comparing words -/

/-- `(int)` of a long. -/
def int32 (z : Int) : Int := (z + 2147483648) % 4294967296 - 2147483648

/-- `parseStream` of a `UU` tree. -/
def parseUU (word : Int) : Int := word.tmod uintMax

/-- `colFromUU`: the remainder is taken a second time. -/
def colFromUU (key : Int) : Nat := uuVal key

def uuCmp (s1 s2 : Int) : Int := int32 (s1.tdiv uintMax - s2.tdiv uintMax)

/-- The entries that read back: below `2^63` the value must not reach the factor, above it the
truncation towards zero takes the values 0 and 1. -/
def UUFits (p v : Nat) : Prop :=
  (p * 4294967295 + v < 9223372036854775808 ∧ v < 4294967295) ∨
    (9223372036854775808 ≤ p * 4294967295 + v ∧ 2 ≤ v)

instance (p v : Nat) : Decidable (UUFits p v) := by unfold UUFits; infer_instance

/-! ## Quotient and remainder of a word -/

theorem tdiv_tmod_of_nonneg {z k r : Int} (hz : z = uintMax * k + r) (hk : 0 ≤ k) (hr : 0 ≤ r)
    (hm : r < uintMax) : z.tdiv uintMax = k ∧ z.tmod uintMax = r := by
  have h0 : 0 ≤ z := by simp only [uintMax] at hz hm; omega
  rw [Int.tdiv_eq_ediv_of_nonneg h0, Int.tmod_eq_emod_of_nonneg h0]
  simp only [uintMax] at hz hm ⊢
  omega

/-- Truncation is towards zero: below it the remainder is not positive. -/
theorem tdiv_tmod_of_nonpos {z k r : Int} (hz : z = uintMax * k + r) (hk : k ≤ 0) (hr : r ≤ 0)
    (hm : -uintMax < r) : z.tdiv uintMax = k ∧ z.tmod uintMax = r := by
  obtain ⟨hd, hr'⟩ := tdiv_tmod_of_nonneg (z := -z) (k := -k) (r := -r)
    (by rw [hz]; simp only [uintMax]; omega) (by omega) (by omega) (by omega)
  rw [Int.neg_tdiv] at hd
  rw [Int.neg_tmod] at hr'
  omega

/-- The key and the value that a word stands for, before they are cut to 32 bits: an entry that
does not read back has carried one into its key, or borrowed one from it. -/
theorem uuPack_cases {p v : Nat} (hp : p < 4294967296) (hv : v < 4294967296) :
    ((p * 4294967295 + v < 9223372036854775808 ∧ v < 4294967295 ∧
        (uuPack p v).tdiv uintMax = p ∧ (uuPack p v).tmod uintMax = v) ∨
      (p * 4294967295 + v < 9223372036854775808 ∧ v = 4294967295 ∧
        (uuPack p v).tdiv uintMax = p + 1 ∧ (uuPack p v).tmod uintMax = 0)) ∨
    ((9223372036854775808 ≤ p * 4294967295 + v ∧ 2 ≤ v ∧
        (uuPack p v).tdiv uintMax = p - 4294967296 ∧ (uuPack p v).tmod uintMax = v - 4294967296) ∨
      (9223372036854775808 ≤ p * 4294967295 + v ∧ v < 2 ∧
        (uuPack p v).tdiv uintMax = p - 4294967297 ∧ (uuPack p v).tmod uintMax = v - 1)) := by
  rcases Nat.lt_or_ge (p * 4294967295 + v) 9223372036854775808 with hw | hw
  · left
    have hpack : uuPack p v = p * uintMax + v := by
      simp only [uuPack, wrap64, uintMax]; omega
    rw [hpack]
    rcases Nat.lt_or_ge v 4294967295 with hm | hm
    · exact .inl ⟨hw, hm, tdiv_tmod_of_nonneg (by rw [Int.mul_comm]) (by omega) (by omega)
        (by simp only [uintMax]; omega)⟩
    · exact .inr ⟨hw, by omega, tdiv_tmod_of_nonneg (by simp only [uintMax]; omega) (by omega)
        (Int.le_refl 0) (by decide)⟩
  · right
    have hpack : uuPack p v = p * uintMax + v - 18446744073709551616 := by
      simp only [uuPack, wrap64, uintMax]; omega
    rw [hpack]
    rcases Nat.lt_or_ge v 2 with h2 | h2
    · exact .inr ⟨hw, h2, tdiv_tmod_of_nonpos (by simp only [uintMax]; omega) (by omega) (by omega)
        (by simp only [uintMax]; omega)⟩
    · exact .inl ⟨hw, h2, tdiv_tmod_of_nonpos (by simp only [uintMax]; omega) (by omega) (by omega)
        (by simp only [uintMax]; omega)⟩

/-! ## The entries that read back -/

/-- Taking the remainder twice changes nothing. -/
theorem colFromUU_parseUU (word : Int) : colFromUU (parseUU word) = uuVal word := by
  simp only [colFromUU, parseUU, uuVal, Int.tmod_tmod]

theorem uu_decodes_iff {p v : Nat} (hp : p < 4294967296) (hv : v < 4294967296) :
    (uuKey (uuPack p v) = p ∧ colFromUU (parseUU (uuPack p v)) = v) ↔ UUFits p v := by
  rw [colFromUU_parseUU]
  simp only [uuKey, uuVal, UUFits]
  rcases uuPack_cases hp hv with (⟨hw, hm, hd, hr⟩ | ⟨hw, hm, hd, hr⟩) |
      (⟨hw, hm, hd, hr⟩ | ⟨hw, hm, hd, hr⟩) <;>
    · rw [hd, hr]
      omega

theorem uuPack_tdiv_emod {p v : Nat} (hp : p < 4294967296) (hv : v < 4294967296)
    (h : UUFits p v) : (uuPack p v).tdiv uintMax % 4294967296 = p := by
  have hk := ((uu_decodes_iff hp hv).mpr h).1
  simp only [uuKey] at hk
  omega

/-- Two entries that read back are compared by the difference of their keys, cut to an `int`. -/
theorem uuCmp_uuPack {p v q w : Nat} (hp : p < 4294967296) (hv : v < 4294967296)
    (hq : q < 4294967296) (hw : w < 4294967296) (h : UUFits p v) (h' : UUFits q w) :
    uuCmp (uuPack p v) (uuPack q w) = int32 (p - q) := by
  have h1 := uuPack_tdiv_emod hp hv h
  have h2 := uuPack_tdiv_emod hq hw h'
  simp only [uuCmp, int32]
  omega

/-- Keys at a distance of `2^31` are compared the wrong way around, or not at all. -/
theorem int32_sign_iff {d : Int} (hl : -4294967296 < d) (hu : d < 4294967296) :
    (int32 d).sign = d.sign ↔ -2147483648 ≤ d ∧ d < 2147483648 := by
  rcases Int.lt_trichotomy d 0 with h | h | h
  · rw [Int.sign_eq_neg_one_of_neg h, Int.sign_eq_neg_one_iff_neg]
    simp only [int32]
    omega
  · subst h
    decide
  · rw [Int.sign_eq_one_of_pos h, Int.sign_eq_one_iff_pos]
    simp only [int32]
    omega

/-- Entries of two INTs read back, and are compared by their keys whatever the values, exactly
when both fit and their keys are less than `2^31` apart. -/
theorem uu_packed_iff (p v q w : UInt32) :
    ((uuKey (uuPack p.toNat v.toNat) = p.toNat ∧
        colFromUU (parseUU (uuPack p.toNat v.toNat)) = v.toNat) ∧
      (uuKey (uuPack q.toNat w.toNat) = q.toNat ∧
        colFromUU (parseUU (uuPack q.toNat w.toNat)) = w.toNat) ∧
      (uuCmp (uuPack p.toNat v.toNat) (uuPack q.toNat w.toNat)).sign =
        ((p.toNat : Int) - q.toNat).sign) ↔
    (UUFits p.toNat v.toNat ∧ UUFits q.toNat w.toNat ∧
      -2147483648 ≤ (p.toNat : Int) - q.toNat ∧ (p.toNat : Int) - q.toNat < 2147483648) := by
  have hp := p.toNat_lt
  have hv := v.toNat_lt
  have hq := q.toNat_lt
  have hw := w.toNat_lt
  rw [uu_decodes_iff hp hv, uu_decodes_iff hq hw]
  refine and_congr_right fun h => and_congr_right fun h' => ?_
  rw [uuCmp_uuPack hp hv hq hw h h']
  exact int32_sign_iff (by omega) (by omega)

/-- The pair `(1, 2^32 - 1)` is read as `(2, 0)`. -/
theorem uu_packed_carry :
    ¬ ∀ p v q w : UInt32,
      (uuKey (uuPack p.toNat v.toNat) = p.toNat ∧
        colFromUU (parseUU (uuPack p.toNat v.toNat)) = v.toNat) ∧
      (uuCmp (uuPack p.toNat v.toNat) (uuPack q.toNat w.toNat)).sign =
        ((p.toNat : Int) - q.toNat).sign := by
  intro h
  exact absurd (h 1 4294967295 0 0).1 (by decide)

end AlchemyDB.Row
