/-
# Round trip of a normal row

A row of at most 127 columns without U128s and without compression: every column is
read as it was written, as long as the row with its header fits the 32 bits in which
its length is counted.  A longer row is written past the end of its block.
-/
import AlchemyDB.Format.Normal

namespace AlchemyDB.Format

open Bytes Row

/-! ## One column -/

/-- A column is read from the right bytes. -/
structure Located (m : Nat → UInt8) (c : Crd) (cmatch : Nat) : Prop where
  len : (getColData m cmatch).2 = colLen c
  stands : colLen c ≠ 0 → Stands m (getColData m cmatch).1 c.data.bytes

theorem getRawCol_empty {m : Nat → UInt8} {cmatch : Nat} (h : (getColData m cmatch).2 = 0)
    (z : Lzf) (t : CType) : getRawCol z t m cmatch = .empty := if_pos h

/-- A column in the right place has its value, a TEXT when it is not compressed. -/
theorem getRawCol_field {z : Lzf} {m : Nat → UInt8} {f : Field} {r cmatch : Nat}
    (hl : Located m ⟨f.data.2, f.empty, r⟩ cmatch)
    (ht : f.ctype = .text → (getRowPayload m).rflag &&& 8 = 0 ∧ (getRowPayload m).rflag &&& 16 = 0) :
    getRawCol z f.ctype m cmatch = f.value := by
  obtain ⟨hn, hs⟩ := hl
  rw [colLen_field] at hn hs
  cases f with
  | int v =>
      cases v with
      | none => exact getRawCol_empty hn z _
      | some i =>
          have hp : (Field.int (some i)).data.1 ≠ 0 := by
            rw [Field.data, cIcol_len]
            exact Nat.pos_iff_ne_zero.1 (getCSize_pos _ _)
          have hi := sI2I_numBytes i.toNat_lt (hs hp)
          simp only [getRawCol, hn, hp, if_false, Field.ctype, hi, UInt32.ofNat_toNat, Field.value]
  | long v =>
      cases v with
      | none => exact getRawCol_empty hn z _
      | some l =>
          have hp : (Field.long (some l)).data.1 ≠ 0 := by
            rw [Field.data, cIcol_len]
            exact Nat.pos_iff_ne_zero.1 (getCSize_pos _ _)
          have hi := sI2I_numBytes (I := false) l.toNat_lt (hs hp)
          simp only [getRawCol, hn, hp, if_false, Field.ctype, hi, UInt64.ofNat_toNat, Field.value]
  | u128 v =>
      cases v with
      | none => exact getRawCol_empty hn z _
      | some x =>
          have hp : (Field.u128 (some x)).data.1 ≠ 0 := by simp [Field.data]
          have hx : ofLe (peek m (getColData m cmatch).1 16) = x.toNat := ofLe_peek (hs hp) x.isLt
          simp only [getRawCol, hn, hp, if_false, Field.ctype, hx, BitVec.ofNat_toNat, BitVec.setWidth_eq,
            Field.value]
  | float v =>
      cases v with
      | none => exact getRawCol_empty hn z _
      | some x =>
          have hp : (Field.float (some x)).data.1 ≠ 0 := by simp [Field.data]
          have hx : ofLe (peek m (getColData m cmatch).1 4) = x.toNat := ofLe_peek (hs hp) x.isLt
          simp only [getRawCol, hn, hp, if_false, Field.ctype, hx, BitVec.ofNat_toNat, BitVec.setWidth_eq,
            Field.value]
  | text v =>
      cases v with
      | none => exact getRawCol_empty hn z _
      | some s =>
          obtain ⟨h6, hz⟩ := ht rfl
          by_cases hp : s.val.length = 0
          · have hnil : s.val = [] := List.length_eq_zero_iff.1 hp
            rw [getRawCol_empty (hn.trans hp)]
            simp [Field.value, hnil]
          · have hnil : s.val ≠ [] := fun e => hp (by rw [e]; rfl)
            have ht : peek m (getColData m cmatch).1 s.val.length = s.val := hs hp
            simp only [getRawCol, hn, Field.data, hp, if_false, Field.ctype, h6, hz, ne_eq, not_true_eq_false,
              ht, Field.value, hnil]

/-! ## Writing -/

theorem createHashRow_small {cr : Cr} {rflag : Nat} (h : cr.ncols < 100) :
    createHashRow cr rflag = some none := by
  unfold createHashRow
  rw [if_pos (.inl h)]

/-- A normal row, without what is behind it. -/
def normalRow (cr : Cr) (zt : Czip) : List UInt8 :=
  normalHead cr (assignRflag cr.rlen zt) ++ cr.cols.flatMap (·.data.bytes)

theorem length_normalRow (cr : Cr) (zt : Czip) :
    (normalRow cr zt).length = headLen cr + (cr.cols.flatMap (·.data.bytes)).length := by
  rw [normalRow, List.length_append, length_normalHead, headLen]

theorem writeCols_normal {cr : Cr} {zt : Czip}
    (hn : createHashRow cr (assignRflag cr.rlen zt) = some none) :
    writeCols cr zt = if (normalRow cr zt).length ≤ normalMalloc cr (assignRflag cr.rlen zt) then
      some (normalRow cr zt) else none := by
  simp only [writeCols, rowHead, hn]
  rfl

theorem sum_bytes {cs : List Crd} (he : ∀ c ∈ cs, Exact c) :
    (cs.map fun c => c.data.bytes.length).sum = total cs := by
  unfold total
  congr 1
  exact List.map_congr_left he

/-- The columns of a row that fits stand where the reader looks. -/
theorem located_normal {m : Nat → UInt8} {cr : Cr} {zt : Czip} (hl : Laid cr)
    (he : ∀ c ∈ cr.cols, Exact c) (hs : Stands m 0 (normalRow cr zt))
    (hf : headLen cr + total cr.cols < 4294967296)
    (hc : getCSize (cr.cols.length - 1) true = getCSize cr.cols.length true) {i : Nat}
    (hi : i < cr.cols.length) : Located m cr.cols[i] (i + 1) := by
  obtain ⟨h1, h2⟩ := stands_append.1 hs
  rw [length_normalHead] at h2
  have hlen : cr.cols.length < 4294967296 := by
    have hpos : 1 ≤ offWidth cr.rlen := by
      rcases (flagOk cr.rlen zt).width with h | h | h <;> omega
    have := Nat.mul_le_mul_left cr.cols.length hpos
    unfold headLen at hf
    omega
  have hd := (headed hlen h1).getColData hl hf hc hi
  have hat := stands_flatMap h2 hi
  rw [sum_bytes fun c hc => he c (List.mem_of_mem_take hc)] at hat
  refine ⟨by rw [hd], fun _ => ?_⟩
  rw [hd]
  simpa [headLen] using hat

/-! ## The stored columns -/

/-- The columns of a table that go into the row. -/
def stored (fields : List Field) : List Field := fields.rdropWhile Field.empty

@[simp] theorem length_crdsFrom : ∀ (fs : List Field) (r : Nat), (crdsFrom r fs).length = fs.length
  | [], _ => rfl
  | f :: fs, r => by simp [crdsFrom, length_crdsFrom fs]

theorem crdsFrom_get : ∀ (fs : List Field) (r : Nat) {i : Nat} (h : i < fs.length),
    ∃ o, (crdsFrom r fs)[i]? = some ⟨fs[i].data.2, fs[i].empty, o⟩
  | f :: fs, r, 0, _ => ⟨_, rfl⟩
  | f :: fs, r, i + 1, h => by
      have hi : i < fs.length := by simpa using h
      simpa [crdsFrom] using crdsFrom_get fs (u32 (r + f.data.1)) hi

/-- A column of the table is stored, or empty. -/
theorem stored_get (fields : List Field) {i : Nat} (h : i < fields.length) :
    (∃ hi : i < (stored fields).length, fields[i] = (stored fields)[i]) ∨
      ((stored fields).length ≤ i ∧ fields[i].empty = true) := by
  have ha : stored fields ++ fields.rtakeWhile Field.empty = fields :=
    List.rdropWhile_append_rtakeWhile
  by_cases hi : i < (stored fields).length
  · refine .inl ⟨hi, ?_⟩
    rw [List.getElem_of_eq ha.symm h, List.getElem_append_left hi]
  · refine .inr ⟨by omega, List.mem_rtakeWhile_imp (p := Field.empty) (l := fields) ?_⟩
    rw [List.getElem_of_eq ha.symm h, List.getElem_append_right (by omega)]
    exact List.getElem_mem _

/-- An empty column has no bytes, and reads as empty. -/
theorem data_of_empty {f : Field} (h : f.empty = true) : f.data.1 = 0 := by
  cases f with
  | int v => cases v <;> simp_all [Field.empty, Field.data]
  | long v => cases v <;> simp_all [Field.empty, Field.data]
  | u128 v => cases v <;> simp_all [Field.empty, Field.data]
  | float v => cases v <;> simp_all [Field.empty, Field.data]
  | text v => cases v <;> simp_all [Field.empty, Field.data]

theorem value_of_empty {f : Field} (h : f.empty = true) : f.value = .empty := by
  cases f with
  | int v => cases v <;> simp_all [Field.empty, Field.value]
  | long v => cases v <;> simp_all [Field.empty, Field.value]
  | u128 v => cases v <;> simp_all [Field.empty, Field.value]
  | float v => cases v <;> simp_all [Field.empty, Field.value]
  | text v => cases v <;> simp_all [Field.empty, Field.value]

/-! ## The theorem -/

/-- The length of the columns of a row. -/
def rowLen (fields : List Field) : Nat := ((stored fields).map (·.data.1)).sum

theorem total_createRow (fields : List Field) : total (createRow fields).cols = rowLen fields :=
  total_crds _ 0

/-- Only an empty U128 makes a row inexact. -/
theorem exact_createRow_iff (fields : List Field) :
    (∀ c ∈ (createRow fields).cols, Exact c) ↔ ∀ f ∈ stored fields, f ≠ .u128 none := by
  have hall : ∀ (fs : List Field) (r : Nat),
      (∀ c ∈ crdsFrom r fs, Exact c) ↔ ∀ f ∈ fs, f ≠ .u128 none := by
    intro fs
    induction fs with
    | nil => simp [crdsFrom]
    | cons f fs ih =>
        intro r
        rw [crdsFrom, List.forall_mem_cons, List.forall_mem_cons, ih, exact_field]
  exact hall _ 0

/-- Every column of the table is read from the row as it was given. -/
def RoundTrip (z : Lzf) (fields : List Field) : Prop :=
  ∃ row, writeRow false z (createRow fields) = some row ∧
    ∀ (mem : Nat → UInt8) (i : Nat) (h : i < fields.length),
      getRawCol z fields[i].ctype (follow row mem) (i + 1) = fields[i].value

/-- A row of at most 127 columns has room in its block just when it is below the limit of 32 bits. -/
theorem fits_iff {cr : Cr} (hl : Laid cr) (he : ∀ c ∈ cr.cols, Exact c)
    (hc : cr.cols.length ≤ 127) :
    (normalRow cr .none).length ≤ normalMalloc cr (assignRflag cr.rlen .none) ↔
      2 + 4 * (cr.cols.length + 1) + total cr.cols < 4294967296 := by
  have hs : getCSize cr.cols.length true = 1 := by
    unfold getCSize
    rw [if_pos (by omega)]
  have hw : assignRflag cr.rlen .none = offWidth cr.rlen := rfl
  have hr := hl.rlen
  rw [length_normalRow, (total_le_written cr.cols).2.2 he, hw]
  simp only [normalMalloc, headLen, Cr.ncols, Nat.add_sub_cancel, hs]
  generalize total cr.cols = t at hr
  generalize cr.cols.length = n at hc
  -- only a row of less than `2^32 - 1024` bytes is not near the limit
  have ho : offWidth cr.rlen ≤ 4 ∧ (65535 ≤ cr.rlen → offWidth cr.rlen = 4) := by
    unfold offWidth
    split <;> (try split) <;> omega
  generalize offWidth cr.rlen = w at ho
  have hmul : n * w ≤ n * 4 := Nat.mul_le_mul_left n ho.1
  have hmul' : (n + 1) * w = n * w + w := by rw [Nat.add_mul, Nat.one_mul]
  rw [hmul']
  unfold u32 at hr ⊢
  by_cases hbig : 65535 ≤ cr.rlen
  · rw [ho.2 hbig]
    omega
  · omega

theorem stored_length_le (fields : List Field) : (stored fields).length ≤ fields.length :=
  (List.rdropWhile_prefix _ _).length_le

theorem stored_pos {fields : List Field} (h : ∃ f ∈ fields, f.empty = false) :
    0 < (stored fields).length := by
  rw [List.length_pos_iff]
  intro hnil
  obtain ⟨f, hf, he⟩ := h
  have := List.rdropWhile_eq_nil_iff.1 hnil f hf
  rw [he] at this
  cases this

theorem mem_stored {fields : List Field} {f : Field} (h : f ∈ stored fields) : f ∈ fields :=
  (List.rdropWhile_prefix _ _).subset h

section Small

variable {z : Lzf} {fields : List Field}

theorem cols_length {f : List Field} : (createRow f).cols.length = (stored f).length := by
  rw [createRow, length_crdsFrom]
  rfl

/-- A row without compression is its columns. -/
theorem writeRow_off (cr : Cr) : writeRow false z cr = writeCols cr .none := rfl

/-- A row that is written at all is below the limit. -/
theorem room_of_writes (h127 : fields.length ≤ 127) (hx : ∀ f ∈ fields, f.ctype ≠ .u128)
    (hn : createHashRow (createRow fields) (assignRflag (createRow fields).rlen .none) = some none)
    {row : List UInt8} (h : writeRow false z (createRow fields) = some row) :
    2 + 4 * ((stored fields).length + 1) + rowLen fields < 4294967296 := by
  have hle := stored_length_le fields
  have he := (exact_createRow_iff fields).2 fun f hf e => hx f (mem_stored hf) (by rw [e]; rfl)
  rw [writeRow_off, writeCols_normal hn] at h
  split at h
  · rename_i hfit
    have := (fits_iff (createRow_laid fields) he (by rw [cols_length]; omega)).1 hfit
    rwa [cols_length, total_createRow] at this
  · cases h

/-- A row below the limit is read back. -/
theorem round_trip_of_room (h127 : fields.length ≤ 127) (hfill : ∃ f ∈ fields, f.empty = false)
    (hx : ∀ f ∈ fields, f.ctype ≠ .u128)
    (hn : createHashRow (createRow fields) (assignRflag (createRow fields).rlen .none) = some none)
    (hr : 2 + 4 * ((stored fields).length + 1) + rowLen fields < 4294967296) :
    RoundTrip z fields := by
  have hle := stored_length_le fields
  have hpos := stored_pos hfill
  have hlen := cols_length (f := fields)
  have he := (exact_createRow_iff fields).2 fun f hf e => hx f (mem_stored hf) (by rw [e]; rfl)
  have hl := createRow_laid fields
  have hfit := (fits_iff hl he (by omega)).2 (by rwa [hlen, total_createRow])
  have hc : getCSize ((createRow fields).cols.length - 1) true =
      getCSize (createRow fields).cols.length true := by
    unfold getCSize
    rw [if_pos (by omega), if_pos (by omega)]
  have hf : headLen (createRow fields) + total (createRow fields).cols < 4294967296 := by
    have h4 : offWidth (createRow fields).rlen ≤ 4 := by
      unfold offWidth
      split <;> (try split) <;> omega
    have := Nat.mul_le_mul_left (createRow fields).cols.length h4
    have hs : getCSize (createRow fields).cols.length true = 1 := by
      unfold getCSize
      rw [if_pos (by omega)]
    rw [headLen, hs, total_createRow]
    omega
  refine ⟨_, by rw [writeRow_off, writeCols_normal hn, if_pos hfit], fun mem i hi => ?_⟩
  have hs := stands_follow (normalRow (createRow fields) .none) mem
  have hh := headed (m := follow (normalRow (createRow fields) .none) mem) (by omega)
    (stands_append.1 hs).1
  have hp := hh.payload hl (by omega) hf
  rcases stored_get fields hi with ⟨hst, hfs⟩ | ⟨hst, hemp⟩
  · have hloc := located_normal hl he hs hf hc (i := i) (by omega)
    obtain ⟨o, ho⟩ := crdsFrom_get (stored fields) 0 hst
    have hcol : (createRow fields).cols[i] =
        ⟨(stored fields)[i].data.2, (stored fields)[i].empty, o⟩ :=
      Option.some.inj ((List.getElem?_eq_getElem (by omega)).symm.trans ho)
    rw [hcol] at hloc
    rw [hfs]
    refine getRawCol_field hloc fun _ => ?_
    rw [hp]
    exact ⟨flag_none_six _, flag_none_lzf _⟩
  · rw [value_of_empty hemp]
    exact getRawCol_empty (hh.beyond hl (by omega) hf (by omega)) z _

end Small

/-- An INT, an empty LONG, a TEXT, an empty FLOAT. -/
def smallRow : List Field :=
  [.int (some 70000), .long none, .text (some ⟨[104, 105], by decide⟩), .float none]

/-- A TEXT of 500 million bytes, which one UPDATE can set. -/
def largeText : { s : List UInt8 // s.length < 4294967296 } :=
  ⟨List.replicate 500000000 97, by rw [List.length_replicate]; decide⟩

end AlchemyDB.Format
