/-
# The geometry of a row

Three numbers should be one: the bytes that `writeRow` writes, the length of the header
with `cr.rlen`, and the size that `getRowMallocSize` finds in the row.  And the reader
should look for the offsets where the writer put them.  The writer writes an empty U128
without having counted it; the reader takes the length from the last offset also where
there is none, and computes the width of the number of columns from one column less.
-/
import AlchemyDB.Format.HashRow

namespace AlchemyDB.Format

open Bytes Row Ahash

/-! ## Behind `zipCol` -/

/-- The columns that are written, compressed or not. -/
def prepared (zip : Bool) (z : Lzf) (cr : Cr) : Option (Czip × Cr) :=
  if zip && !(texts cr.cols).isEmpty then zipCol z cr else some (.none, cr)

theorem writeRow_prepared (zip : Bool) (z : Lzf) (cr : Cr) :
    writeRow zip z cr = (prepared zip z cr).bind fun r => writeCols r.2 r.1 := by
  unfold writeRow prepared
  split <;> rfl

theorem shrink_exact : ∀ (cs : List Crd) (bs : List (List UInt8)) (d : Int),
    (shrink d cs bs).1.length = cs.length ∧
      ((∀ c ∈ (shrink d cs bs).1, Exact c) ↔ ∀ c ∈ cs, Exact c)
  | [], _, _ => by simp [shrink]
  | c :: cs, bs, d => by
      by_cases ht : (∀ s, c.data ≠ .text s) ∨ bs = []
      · rw [shrink_other ht]
        obtain ⟨h1, h2⟩ := shrink_exact cs bs d
        simp only [List.length_cons, h1, List.forall_mem_cons, h2]
        exact ⟨trivial, Iff.rfl⟩
      · push Not at ht
        obtain ⟨⟨s, hs⟩, hb⟩ := ht
        obtain ⟨b, bs, rfl⟩ := List.exists_cons_of_ne_nil hb
        rw [shrink_text hs]
        obtain ⟨h1, h2⟩ := shrink_exact cs bs (d + ((s.length : Int) - b.length))
        have he : Exact c := by
          unfold Exact colLen
          rw [hs]
        simp only [List.length_cons, h1, List.forall_mem_cons, h2, he, true_and]
        exact ⟨And.right, fun h => ⟨rfl, h⟩⟩

theorem prepared_spec {zip : Bool} {z : Lzf} {cr cr' : Cr} {zt : Czip} (hl : Laid cr)
    (h : prepared zip z cr = some (zt, cr')) :
    Laid cr' ∧ cr'.cols.length = cr.cols.length ∧
      ((∀ c ∈ cr'.cols, Exact c) ↔ ∀ c ∈ cr.cols, Exact c) := by
  unfold prepared at h
  split at h
  · refine ⟨zipCol_laid hl h, ?_⟩
    obtain ⟨t, ht, he⟩ := Option.map_eq_some_iff.1 h
    split at he
    · cases he
      exact ⟨rfl, Iff.rfl⟩
    · cases he
      exact shrink_exact _ _ _
  · cases h
    exact ⟨hl, rfl, Iff.rfl⟩

/-! ## The three lengths -/

/-- The block that is asked for has room for the header and the columns. -/
def Fits (cr : Cr) (zt : Czip) : Prop :=
  ∃ h, rowHead cr zt = some h ∧ h.1.length + total cr.cols ≤ h.2

/-- The row is as long as its header says, and the offsets are where the reader looks. -/
structure Sound (cr : Cr) (zt : Czip) (row : List UInt8) : Prop where
  written : ∃ h, rowHead cr zt = some h ∧ row.length = h.1.length + cr.rlen
  size : ∀ mem, getRowMallocSize (follow row mem) = row.length
  offsets : createHashRow cr (assignRflag cr.rlen zt) = some none →
    ∀ mem, cofstAt (follow row mem) = 1 + (numBytes (cr.ncols - 1) true).length

/-- The geometry of the row of a table. -/
def Geometry (zip : Bool) (z : Lzf) (fields : List Field) : Prop :=
  ∃ zt cr row, prepared zip z (createRow fields) = some (zt, cr) ∧
    writeRow zip z (createRow fields) = some row ∧ Sound cr zt row

/-- What the columns must be for it. -/
def GeometryOk (zip : Bool) (z : Lzf) (fields : List Field) : Prop :=
  ∃ zt cr, prepared zip z (createRow fields) = some (zt, cr) ∧
    (∀ f ∈ stored fields, f ≠ .u128 none) ∧ Fits cr zt ∧
    (createHashRow cr (assignRflag cr.rlen zt) = some none →
      stored fields ≠ [] ∧
        getCSize ((stored fields).length - 1) true = getCSize (stored fields).length true)

section Cases

variable {cr : Cr} {zt : Czip} {row : List UInt8}

theorem writeCols_eq_some : writeCols cr zt = some row ↔
    ∃ h, rowHead cr zt = some h ∧ row = h.1 ++ cr.cols.flatMap (·.data.bytes) ∧
      row.length ≤ h.2 := by
  unfold writeCols
  rw [Option.bind_eq_some_iff]
  refine exists_congr fun h => and_congr_right fun _ => ?_
  dsimp only
  split
  · rename_i hle
    rw [Option.some_inj]
    exact ⟨fun e => e ▸ ⟨rfl, hle⟩, fun e => e.1.symm⟩
  · rename_i hle
    refine iff_of_false (by simp) ?_
    rintro ⟨rfl, he⟩
    exact hle he

theorem block_lt {h : List UInt8 × Nat} (hh : rowHead cr zt = some h) : h.2 < 4294967296 := by
  unfold rowHead at hh
  obtain ⟨r, -, rfl⟩ := Option.map_eq_some_iff.1 hh
  split <;> exact u32_lt _

/-- In a row that is written and sound just the counted bytes are written. -/
theorem exact_of_sound (hl : Laid cr) (hw : writeCols cr zt = some row) (hs : Sound cr zt row) :
    (∀ c ∈ cr.cols, Exact c) ∧ cr.rlen = total cr.cols ∧ Fits cr zt := by
  obtain ⟨h, hh, rfl, hle⟩ := writeCols_eq_some.1 hw
  obtain ⟨h', hh', hlen⟩ := hs.written
  obtain rfl : h = h' := Option.some.inj (hh.symm.trans hh')
  obtain ⟨hwr, hex⟩ := total_le_written cr.cols
  have hrl : cr.rlen ≤ total cr.cols := by
    rw [hl.rlen]
    exact Nat.mod_le _ _
  rw [List.length_append] at hlen hle
  have hbytes : (cr.cols.flatMap (·.data.bytes)).length = total cr.cols := by omega
  exact ⟨hex.1 hbytes, by omega, h, hh, by omega⟩

theorem rowHead_normal (hn : createHashRow cr (assignRflag cr.rlen zt) = some none) :
    rowHead cr zt = some (normalHead cr (assignRflag cr.rlen zt),
      normalMalloc cr (assignRflag cr.rlen zt)) := by
  simp only [rowHead, hn, Option.map_some]

theorem cols_lt (hf : headLen cr + total cr.cols < 4294967296) : cr.cols.length < 4294967296 := by
  have hpos : 1 ≤ offWidth cr.rlen := by
    rcases (flagOk cr.rlen .none).width with h | h | h <;> omega
  have := Nat.mul_le_mul_left cr.cols.length hpos
  unfold headLen at hf
  omega

/-- A normal row without columns is found to be one byte longer than it is. -/
theorem size_no_columns {m : Nat → UInt8} (hl : Laid cr) (h0 : cr.cols = [])
    (hs : Stands m 0 (normalHead cr (assignRflag cr.rlen zt))) : getRowMallocSize m = 3 := by
  have hr : cr.rlen = 0 := by rw [hl.rlen, h0]; rfl
  have hw : offWidth cr.rlen = 1 := by rw [hr]; rfl
  have h := flagOk cr.rlen zt
  have hh := headed (by rw [h0]; decide) hs
  rw [hw] at h
  have h1 : ofLe (peek m 1 1) = 1 := by
    unfold normalHead at hs
    rw [Cr.ncols, h0] at hs
    obtain ⟨-, hs⟩ := stands_cons.1 (stands_append.1 hs).1
    exact ofLe_peek (n := 1) (v := 1) hs (by decide)
  have hn : sI2I m 1 true = (0, 1) := by
    have := hh.ncols
    rw [h0] at this
    exact this
  have hone : assignRflag cr.rlen zt &&& 1 ≠ 0 := h.one.2 rfl
  simp only [getRowMallocSize, getRowPayload, hh.flag, hn, h.hash, ne_eq, not_true_eq_false,
    if_false]
  have hz : u32 (u32 0 * (assignRflag cr.rlen zt &&& 7)) = 0 := by
    rw [show u32 0 = 0 from rfl, Nat.zero_mul]
    rfl
  rw [if_pos hone, hz]
  exact congrArg (fun x => u32 (x + 2)) h1

/-- A normal row that is sound has columns, and the width of their number is that of one less. -/
theorem normal_of_sound (hl : Laid cr) (hw : writeCols cr zt = some row) (hs : Sound cr zt row)
    (hn : createHashRow cr (assignRflag cr.rlen zt) = some none) :
    cr.cols ≠ [] ∧ getCSize (cr.cols.length - 1) true = getCSize cr.cols.length true := by
  obtain ⟨-, hrl, -⟩ := exact_of_sound hl hw hs
  obtain ⟨h, hh, hrow, hle⟩ := writeCols_eq_some.1 hw
  have hlt := block_lt hh
  obtain ⟨h', hh', hlen⟩ := hs.written
  rw [rowHead_normal hn] at hh hh'
  cases hh
  cases hh'
  rw [length_normalHead] at hlen
  have hf : headLen cr + total cr.cols < 4294967296 := by
    unfold headLen
    omega
  have hst := stands_follow row fun _ => 0
  rw [hrow] at hst
  have hhead := (stands_append.1 hst).1
  have hnonempty : cr.cols ≠ [] := by
    intro h0
    have h3 := size_no_columns hl h0 hhead
    rw [← hrow, hs.size, hlen, hrl, h0] at h3
    simp [getCSize] at h3
  have hpos : 0 < cr.cols.length := List.length_pos_iff.2 hnonempty
  have hoff := hs.offsets hn fun _ => 0
  rw [length_numBytes, hrow, (headed (cols_lt hf) hhead).cofstAt hl hpos hf] at hoff
  exact ⟨hnonempty, Nat.add_left_cancel hoff⟩

/-- A row of exact columns that has room is written, and sound. -/
theorem sound_of_fits (hl : Laid cr) (hc : cr.cols.length < 4294967296)
    (he : ∀ c ∈ cr.cols, Exact c) (hfit : Fits cr zt)
    (hnorm : createHashRow cr (assignRflag cr.rlen zt) = some none →
      cr.cols ≠ [] ∧ getCSize (cr.cols.length - 1) true = getCSize cr.cols.length true) :
    ∃ row, writeCols cr zt = some row ∧ Sound cr zt row := by
  obtain ⟨h, hh, hle⟩ := hfit
  have hlt := block_lt hh
  have hbytes := (total_le_written cr.cols).2.2 he
  have hrl : cr.rlen = total cr.cols := by rw [hl.rlen, u32_of_lt (by omega)]
  have hlen : (h.1 ++ cr.cols.flatMap (·.data.bytes)).length = h.1.length + cr.rlen := by
    rw [List.length_append, hbytes, hrl]
  refine ⟨_, writeCols_eq_some.2 ⟨h, hh, rfl, by rw [hlen, hrl]; exact hle⟩, ⟨h, hh, hlen⟩,
    fun mem => ?_, fun hn mem => ?_⟩
  · have hst := (stands_append.1 (stands_follow (h.1 ++ cr.cols.flatMap (·.data.bytes)) mem)).1
    rcases createHashRow_cases hl (assignRflag cr.rlen zt) with hn | ⟨use16, ht, hch, hchosen⟩
    · obtain ⟨hne, -⟩ := hnorm hn
      rw [rowHead_normal hn] at hh
      cases hh
      dsimp only at hle hlen hst ⊢
      rw [length_normalHead] at hle hlen
      have hf : headLen cr + total cr.cols < 4294967296 := by
        unfold headLen
        omega
      rw [hlen, getRowMallocSize, (headed hc hst).payload hl (List.length_pos_iff.2 hne) hf]
      exact congrArg (headLen cr + ·) hrl.symm
    · have hh' : rowHead cr zt = some
          (hashHead cr (hashFlag (assignRflag cr.rlen zt) use16) (widthOf use16) ht,
            hashMalloc cr (widthOf use16) ht) := by
        simp only [rowHead, hch, Option.map_some]
      rw [hh'] at hh
      cases hh
      dsimp only at hle hlen hst ⊢
      rw [length_hashHead] at hle hlen
      have hp := (hash_payload (hashFlagOk _ _ _) hchosen hst (by omega) hc).1
      rw [hlen, getRowMallocSize, hp]
  · have hst := (stands_append.1 (stands_follow (h.1 ++ cr.cols.flatMap (·.data.bytes)) mem)).1
    obtain ⟨hne, hcs⟩ := hnorm hn
    rw [rowHead_normal hn] at hh
    cases hh
    dsimp only at hle hst ⊢
    rw [length_normalHead] at hle
    have hf : headLen cr + total cr.cols < 4294967296 := by
      unfold headLen
      omega
    rw [(headed hc hst).cofstAt hl (List.length_pos_iff.2 hne) hf, hcs, length_numBytes]
    rfl

end Cases

end AlchemyDB.Format
