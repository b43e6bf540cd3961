/-
# Normal rows — what the reader finds

The flag of a row tells the width of its offsets, and the offsets are below the limit
of that width.  So a normal row is read as it was written, as far as the reader looks
for the offsets where they are: it takes the width of the number of columns less one.
-/
import AlchemyDB.Format.Laid

namespace AlchemyDB.Format

open Bytes Row

/-! ## The flag -/

/-- The width of the offsets. -/
def offWidth (rlen : Nat) : Nat := if rlen < 255 then 1 else if rlen < 65535 then 2 else 4

/-- The bits of a flag: a width, the compression, and no hash row. -/
structure FlagOk (f w : Nat) : Prop where
  byte : f < 256
  size : f &&& 7 = w
  one : f &&& 1 ≠ 0 ↔ w = 1
  two : w ≠ 1 → (f &&& 2 ≠ 0 ↔ w = 2)
  four : f &&& 4 = 0 ↔ w ≠ 4
  width : w = 1 ∨ w = 2 ∨ w = 4
  hash16 : f &&& 32 = 0
  hash32 : f &&& 64 = 0
  hash : f &&& 96 = 0

theorem flagOk (rlen : Nat) (zt : Czip) : FlagOk (assignRflag rlen zt) (offWidth rlen) := by
  unfold assignRflag offWidth
  by_cases h1 : rlen < 255
  · rw [if_pos h1]
    cases zt <;> constructor <;> decide
  · by_cases h2 : rlen < 65535
    · rw [if_neg h1, if_pos h2]
      cases zt <;> constructor <;> decide
    · rw [if_neg h1, if_neg h2]
      cases zt <;> constructor <;> decide

theorem flag_none_six (rlen : Nat) : assignRflag rlen .none &&& 8 = 0 := by
  unfold assignRflag
  split
  · rfl
  · split <;> rfl

theorem flag_none_lzf (rlen : Nat) : assignRflag rlen .none &&& 16 = 0 := by
  unfold assignRflag
  split
  · rfl
  · split <;> rfl

theorem lt_offWidth {n rlen : Nat} (h : n ≤ rlen) (hr : rlen < 4294967296) :
    n < 256 ^ offWidth rlen := by
  unfold offWidth
  split
  · omega
  · split <;> omega

theorem FlagOk.setColOffst {f w : Nat} (h : FlagOk f w) (cofst : Nat) :
    setColOffst f cofst = le w cofst := by
  unfold Format.setColOffst
  rcases h.width with rfl | rfl | rfl
  · rw [if_pos (h.one.2 rfl)]
  · rw [if_neg (fun e => by simpa using h.one.1 e), if_pos ((h.two (by decide)).2 rfl)]
  · rw [if_neg (fun e => by simpa using h.one.1 e),
      if_neg (fun e => by simpa using (h.two (by decide)).1 e)]

/-- One reading for the three widths. -/
theorem FlagOk.read {f w : Nat} (h : FlagOk f w) (g : Nat → Nat) :
    (if f &&& 1 ≠ 0 then g 1 else if f &&& 2 ≠ 0 then g 2 else g 4) = g w := by
  rcases h.width with rfl | rfl | rfl
  · rw [if_pos (h.one.2 rfl)]
  · rw [if_neg (fun e => by simpa using h.one.1 e), if_pos ((h.two (by decide)).2 rfl)]
  · rw [if_neg (fun e => by simpa using h.one.1 e),
      if_neg (fun e => by simpa using (h.two (by decide)).1 e)]

theorem FlagOk.getCofst {m : Nat → UInt8} {f w : Nat} (h : FlagOk f w) (i : Nat) :
    getCofst m f i = ofLe (peek m (cofstAt m + i * w) w) := by
  have := h.read fun k => ofLe (peek m (cofstAt m + i * k) k)
  unfold Format.getCofst
  rw [h.size, ← this]
  rcases h.width with rfl | rfl | rfl
  · rw [if_pos (h.one.2 rfl), if_pos (h.one.2 rfl), Nat.mul_one]
  · rw [if_neg (fun e => by simpa using h.one.1 e), if_pos ((h.two (by decide)).2 rfl),
      if_neg (fun e => by simpa using h.one.1 e), if_pos ((h.two (by decide)).2 rfl)]
  · rw [if_neg (fun e => by simpa using h.one.1 e),
      if_neg (fun e => by simpa using (h.two (by decide)).1 e),
      if_neg (fun e => by simpa using h.one.1 e),
      if_neg (fun e => by simpa using (h.two (by decide)).1 e)]

/-! ## The header -/

theorem length_normalHead (cr : Cr) (zt : Czip) :
    (normalHead cr (assignRflag cr.rlen zt)).length =
      1 + getCSize cr.cols.length true + cr.cols.length * offWidth cr.rlen := by
  have h := flagOk cr.rlen zt
  unfold normalHead
  rw [List.length_append, List.length_cons, length_numBytes,
    length_table (k := offWidth cr.rlen) (fun c => by rw [h.setColOffst, length_le])]
  simp only [Cr.ncols, Nat.add_sub_cancel]
  omega

/-- The header of a row that stands in memory: the flag, the number of columns and the offsets. -/
structure Headed (m : Nat → UInt8) (cr : Cr) (zt : Czip) : Prop where
  flag : (m 0).toNat = assignRflag cr.rlen zt
  ncols : sI2I m 1 true = (cr.cols.length, getCSize cr.cols.length true)
  cofst : ∀ (i : Nat) (h : i < cr.cols.length),
    Stands m (1 + getCSize cr.cols.length true + i * offWidth cr.rlen)
      (le (offWidth cr.rlen) cr.cols[i].mcofsts)

theorem headed {m : Nat → UInt8} {cr : Cr} {zt : Czip} (hn : cr.cols.length < 4294967296)
    (hs : Stands m 0 (normalHead cr (assignRflag cr.rlen zt))) : Headed m cr zt := by
  have h := flagOk cr.rlen zt
  unfold normalHead at hs
  rw [stands_append, stands_cons] at hs
  obtain ⟨⟨h0, h1⟩, h2⟩ := hs
  have hc : cr.ncols - 1 = cr.cols.length := rfl
  rw [hc] at h1 h2
  rw [List.length_cons, length_numBytes] at h2
  refine ⟨?_, sI2I_numBytes hn h1, fun i hi => ?_⟩
  · rw [h0, UInt8.toNat_ofNat', Nat.mod_eq_of_lt h.byte]
  · have := stands_table (k := offWidth cr.rlen) (fun c => by rw [h.setColOffst, length_le]) h2 hi
    rw [h.setColOffst] at this
    rwa [show 1 + getCSize cr.cols.length true = 0 + (getCSize cr.cols.length true + 1) by omega]

/-! ## Reading -/

/-- The length of the header of a normal row. -/
def headLen (cr : Cr) : Nat :=
  1 + getCSize cr.cols.length true + cr.cols.length * offWidth cr.rlen

section Reading

variable {m : Nat → UInt8} {cr : Cr} {zt : Czip}

theorem getCSize_pos (l : Nat) (isi : Bool) : 0 < getCSize l isi := by
  unfold getCSize
  split_ifs <;> omega

/-- An offset, where it stands. -/
theorem Headed.offset (hh : Headed m cr zt) (hl : Laid cr) (hr : total cr.cols < 4294967296)
    {i : Nat} (h : i < cr.cols.length) :
    ofLe (peek m (1 + getCSize cr.cols.length true + i * offWidth cr.rlen) (offWidth cr.rlen)) =
      total (cr.cols.take (i + 1)) := by
  have hle := total_take_le cr.cols (i + 1)
  have hrl : cr.rlen = total cr.cols := by rw [hl.rlen, u32_of_lt hr]
  have ho : cr.cols[i].mcofsts = total (cr.cols.take (i + 1)) := by
    rw [hl.cols.mcofsts h, Nat.zero_add, u32_of_lt (by omega)]
  have hs := hh.cofst i h
  rw [ho] at hs
  exact ofLe_peek hs (lt_offWidth (by omega) (by omega))

/-- The payload of a normal row with columns. -/
theorem Headed.payload (hh : Headed m cr zt) (hl : Laid cr) (h0 : 0 < cr.cols.length)
    (hf : headLen cr + total cr.cols < 4294967296) :
    getRowPayload m = ⟨assignRflag cr.rlen zt, cr.cols.length, headLen cr + total cr.cols,
      headLen cr⟩ := by
  have h := flagOk cr.rlen zt
  have hlast := hh.offset hl (by omega) (i := cr.cols.length - 1) (by omega)
  rw [Nat.sub_add_cancel h0, List.take_length] at hlast
  unfold headLen at hf ⊢
  have hw : cr.cols.length * offWidth cr.rlen < 4294967296 := by omega
  have hc : cr.cols.length < 4294967296 := by
    have hpos : 1 ≤ offWidth cr.rlen := by rcases h.width with h | h | h <;> omega
    have := Nat.mul_le_mul_left cr.cols.length hpos
    omega
  have hrow : 1 + getCSize cr.cols.length true + cr.cols.length * offWidth cr.rlen -
      offWidth cr.rlen =
      1 + getCSize cr.cols.length true + (cr.cols.length - 1) * offWidth cr.rlen := by
    rw [Nat.sub_mul, Nat.one_mul]
    have := Nat.mul_le_mul_right (offWidth cr.rlen) h0
    omega
  simp only [getRowPayload, hh.flag, hh.ncols, h.hash, ne_eq, not_true_eq_false, if_false, h.size,
    u32_of_lt hc, u32_of_lt hw]
  have hread := h.read fun k => ofLe (peek m (1 + getCSize cr.cols.length true +
    cr.cols.length * offWidth cr.rlen - k) k)
  simp only [ne_eq] at hread
  rw [hread, hrow, hlast, Nat.add_comm (total cr.cols), u32_of_lt hf]

/-- The reader looks for the offsets where they are. -/
theorem Headed.cofstAt (hh : Headed m cr zt) (hl : Laid cr) (h0 : 0 < cr.cols.length)
    (hf : headLen cr + total cr.cols < 4294967296) :
    cofstAt m = 1 + getCSize (cr.cols.length - 1) true := by
  have hc : cr.cols.length - 1 < 4294967296 := by
    have hpos : 1 ≤ offWidth cr.rlen := by
      rcases (flagOk cr.rlen zt).width with h | h | h <;> omega
    have := Nat.mul_le_mul_left cr.cols.length hpos
    unfold headLen at hf
    omega
  unfold Format.cofstAt
  rw [hh.payload hl h0 hf]
  have hu : u32 (cr.cols.length + 4294967295) = cr.cols.length - 1 := by
    unfold u32
    omega
  rw [hu]

/-- A column of a normal row: where it begins and how long it is. -/
theorem Headed.getColData (hh : Headed m cr zt) (hl : Laid cr)
    (hf : headLen cr + total cr.cols < 4294967296)
    (hc : getCSize (cr.cols.length - 1) true = getCSize cr.cols.length true) {i : Nat}
    (hi : i < cr.cols.length) :
    getColData m (i + 1) = (headLen cr + total (cr.cols.take i), colLen cr.cols[i]) := by
  have h := flagOk cr.rlen zt
  have h0 : 0 < cr.cols.length := by omega
  have hle := total_take_le cr.cols (i + 1)
  have hnext := hh.offset hl (by omega) hi
  rw [total_take_succ hi] at hnext hle
  have hcof := hh.cofstAt hl h0 hf
  rw [hc] at hcof
  have hstart : (if i + 1 = 1 then 0 else Format.getCofst m (assignRflag cr.rlen zt) (i + 1 - 2)) =
      total (cr.cols.take i) := by
    cases i with
    | zero => simp
    | succ i =>
        rw [if_neg (by omega), show i + 1 + 1 - 2 = i by omega, h.getCofst, hcof]
        exact hh.offset hl (by omega) (by omega)
  have hn : Format.getCofst m (assignRflag cr.rlen zt) (i + 1 - 1) =
      total (cr.cols.take i) + colLen cr.cols[i] := by
    rw [Nat.add_sub_cancel, h.getCofst, hcof]
    exact hnext
  simp only [Format.getColData, hh.payload hl h0 hf]
  rw [if_neg (by omega), h.hash32, h.hash16]
  simp only [ne_eq, not_true_eq_false, if_false, hstart, hn]
  have hu : u32 (total (cr.cols.take i) + colLen cr.cols[i] + 4294967296 - total (cr.cols.take i)) =
      colLen cr.cols[i] := by
    unfold u32
    omega
  rw [hu]

/-- Columns that were not stored read as empty. -/
theorem Headed.beyond (hh : Headed m cr zt) (hl : Laid cr) (h0 : 0 < cr.cols.length)
    (hf : headLen cr + total cr.cols < 4294967296) {i : Nat} (hi : cr.cols.length < i) :
    (Format.getColData m i).2 = 0 := by
  simp only [Format.getColData, hh.payload hl h0 hf]
  rw [if_pos hi]

end Reading

end AlchemyDB.Format
