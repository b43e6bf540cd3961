/-
# Rows that carry the columns of a table

What is in a row of a table, whoever wrote it: every column of the row carries a column of
the table, a TEXT by the scheme of the row and a number as it is, and what is not stored
is empty.  Such a row reads as the columns that it carries.
-/
import AlchemyDB.Format.Transparent

namespace AlchemyDB.Format

open Bytes Row Ahash

/-- A column of a row that carries a column of the table. -/
def Carried (z : Lzf) (zt : Czip) (f : Field) (c : Crd) : Prop :=
  if f.ctype = .text then
    ∃ s b, f.data.2 = .text s ∧ c.data = .text b ∧ Packed z zt s b ∧ Short zt s
  else c.data = f.data.2 ∧ c.empty = f.empty

/-- The columns of a row that carry the columns of a table. -/
structure Carries (z : Lzf) (zt : Czip) (fields : List Field) (cols : List Crd) : Prop where
  le : cols.length ≤ fields.length
  carried : ∀ (i : Nat) (h : i < cols.length) (h' : i < fields.length),
    Carried z zt fields[i] cols[i]
  rest : ∀ (i : Nat) (h' : i < fields.length), cols.length ≤ i → fields[i].value = .empty

/-- A row that is laid out as it should be, has room, and carries the columns of a table. -/
structure Kept (z : Lzf) (fields : List Field) (zt : Czip) (cr : Cr) : Prop where
  laid : Laid cr
  exact : ∀ c ∈ cr.cols, Exact c
  empties : ∀ c ∈ cr.cols, c.empty = true → colLen c = 0
  count : cr.cols.length < 4294967296
  room : Room cr zt
  carries : Carries z zt fields cr.cols

section Kept

variable {z : Lzf} {fields : List Field} {zt : Czip} {cr : Cr} {row : List UInt8}

theorem Kept.readable (hk : Kept z fields zt cr) (hw : writeCols cr zt = some row) :
    Readable cr zt row := by
  obtain ⟨row', hr⟩ := readable_of_room hk.laid hk.exact hk.empties hk.count hk.room
  obtain rfl : row' = row := Option.some.inj (hr.written.symm.trans hw)
  exact hr

/-- The row is written. -/
theorem Kept.written (hk : Kept z fields zt cr) : ∃ row, writeCols cr zt = some row :=
  let ⟨row, hr⟩ := readable_of_room hk.laid hk.exact hk.empties hk.count hk.room
  ⟨row, hr.written⟩

/-- A text of a table, and what it reads as. -/
theorem value_text {f : Field} {s : List UInt8} (h : f.data.2 = .text s) : f.value = textValue s := by
  cases f with
  | text v =>
      cases v with
      | none =>
          cases h
          rfl
      | some t =>
          cases h
          rfl
  | int v => cases v <;> cases h
  | long v => cases v <;> cases h
  | u128 v => cases v <;> cases h
  | float v => cases v <;> cases h

/-- A row reads as the columns that it carries. -/
theorem Kept.reads (hz : Lossless z) (hk : Kept z fields zt cr) (hw : writeCols cr zt = some row)
    (mem : Nat → UInt8) {i : Nat} (hi : i < fields.length) :
    getRawCol z fields[i].ctype (follow row mem) (i + 1) = fields[i].value := by
  have hr := hk.readable hw
  rcases Nat.lt_or_ge i cr.cols.length with hc | hc
  · have hcar := hk.carries.carried i hc hi
    unfold Carried at hcar
    split at hcar
    · rename_i ht
      obtain ⟨s, b, hs, hb, hp, hshort⟩ := hcar
      obtain ⟨s', h32, hs'⟩ := text_field ht
      obtain rfl : s = s' := by
        rw [hs] at hs'
        cases hs'
        rfl
      rw [ht, value_text hs]
      exact (hr.text hz (total_lt_of_room hk.room) h32 hp mem hc hb).2 hshort
    · rename_i ht
      obtain ⟨hd, hemp⟩ := hcar
      have hloc := hr.located mem i hc
      have hcol : cr.cols[i] = ⟨fields[i].data.2, fields[i].empty, cr.cols[i].mcofsts⟩ := by
        rw [← hd, ← hemp]
      rw [hcol] at hloc
      exact getRawCol_field hloc fun h => absurd h ht
  · rw [hk.carries.rest i hi hc]
    exact getRawCol_empty (hr.beyond mem (i + 1) (by omega)) z _

/-! ## Rows that are prepared -/

/-- A column that was not compressed, and what `zipCol` made of it. -/
theorem Carried.zip {f : Field} {c c' : Crd} (h : Carried z .none f c)
    (hrel : ZipRel (Packed z zt) c c') (hshort : ∀ s, c.data = .text s → Short zt s) :
    Carried z zt f c' := by
  unfold Carried at h ⊢
  split
  · rename_i ht
    rw [if_pos ht] at h
    obtain ⟨s, b, hs, hb, hp, -⟩ := h
    obtain rfl : b = s := hp
    obtain ⟨-, ⟨s', b', hs', hb', hpk⟩ | ⟨hno, -⟩⟩ := hrel
    · rw [hb] at hs'
      cases hs'
      exact ⟨b, b', hs, hb', hpk, hshort b hb⟩
    · exact absurd hb (hno b)
  · rename_i ht
    rw [if_neg ht] at h
    obtain ⟨hemp, ⟨s', b', hs', hb', hpk⟩ | ⟨-, hd⟩⟩ := hrel
    · -- the text of a row comes from a text
      exfalso
      rw [h.1] at hs'
      cases f with
      | text v => exact ht rfl
      | int v => cases v <;> cases hs'
      | long v => cases v <;> cases hs'
      | u128 v => cases v <;> cases hs'
      | float v => cases v <;> cases hs'
    · exact ⟨hd.trans h.1, hemp.trans h.2⟩

/-- What is written for a row that was laid out from the columns of a table carries them. -/
theorem kept_of_prepared (hz : Lossless z) {zip : Bool} {cr₀ : Cr} (hl : Laid cr₀)
    (he : ∀ c ∈ cr₀.cols, Exact c) (h0 : ∀ c ∈ cr₀.cols, c.empty = true → colLen c = 0)
    (hn : fields.length < 4294967296) (hc : Carries z .none fields cr₀.cols)
    (hp : prepared zip z cr₀ = some (zt, cr)) (hr : Room cr zt)
    (hs : ∀ s ∈ texts cr₀.cols, Short zt s) : Kept z fields zt cr := by
  obtain ⟨hl', hlen, hex⟩ := prepared_spec hl hp
  have hle := hc.le
  refine ⟨hl', hex.2 he, emptyLen_prepared hz.nil hp h0, by omega, hr, by omega, fun i h h' => ?_,
    fun i h' h => hc.rest i h' (by omega)⟩
  have hi : i < cr₀.cols.length := by omega
  exact (hc.carried i hi h').zip ((prepared_rel hp).get hi h) fun s hd =>
    hs s (mem_texts.2 ⟨i, hi, hd⟩)

/-- The row that an INSERT writes. -/
theorem kept_createRow (hz : Lossless z) {zip : Bool} (hn : fields.length < 4294967296)
    (hx : ∀ f ∈ stored fields, f ≠ .u128 none)
    (hp : prepared zip z (createRow fields) = some (zt, cr)) (hr : Room cr zt)
    (hs : ∀ s ∈ texts (createRow fields).cols, Short zt s) : Kept z fields zt cr := by
  have hle := stored_length_le fields
  have hlen := cols_length (f := fields)
  refine kept_of_prepared hz (createRow_laid fields) ((exact_createRow_iff fields).2 hx)
    (emptyLen_createRow fields) hn ⟨by omega, fun i h h' => ?_, fun i h' h => ?_⟩ hp hr hs
  · obtain ⟨hst, o, hcol⟩ := col_of_field h
    have hf : fields[i] = (stored fields)[i] := by
      rcases stored_get fields h' with ⟨_, hf⟩ | ⟨hge, -⟩
      · exact hf
      · omega
    rw [hcol, hf]
    unfold Carried
    split
    · rename_i ht
      obtain ⟨s, -, hd⟩ := text_field ht
      exact ⟨s, s, hd, hd, packed_none z s, trivial⟩
    · exact ⟨rfl, rfl⟩
  · rcases stored_get fields h' with ⟨hst, -⟩ | ⟨-, hemp⟩
    · omega
    · exact value_of_empty hemp

/-! ## Another number in the place of a number -/

/-- Two columns of one length, both empty or both filled. -/
structure Alike (c c' : Crd) : Prop where
  empty : c'.empty = c.empty
  mcofsts : c'.mcofsts = c.mcofsts
  len : colLen c' = colLen c

theorem Alike.refl (c : Crd) : Alike c c := ⟨rfl, rfl, rfl⟩

theorem alike_set {c' : Crd} : ∀ {cs : List Crd} {i : Nat} (h : i < cs.length), Alike cs[i] c' →
    List.Forall₂ Alike cs (cs.set i c')
  | c :: cs, 0, _, ha => .cons ha (List.forall₂_same.2 fun c _ => Alike.refl c)
  | c :: cs, i + 1, h, ha => .cons (Alike.refl c) (alike_set (by simpa using h) ha)

section Alike

variable {cs cs' : List Crd}

theorem total_alike (h : List.Forall₂ Alike cs cs') : total cs' = total cs := by
  induction h with
  | nil => rfl
  | cons hc _ ih => rw [total_cons, total_cons, hc.len, ih]

theorem laidFrom_alike (h : List.Forall₂ Alike cs cs') : ∀ {r : Nat}, LaidFrom r cs →
    LaidFrom r cs' := by
  induction h with
  | nil => exact fun h => h
  | cons hc _ ih =>
      intro r hl
      refine ⟨?_, ?_⟩
      · rw [hc.mcofsts, hc.len]
        exact hl.1
      · rw [hc.len]
        exact ih hl.2

theorem hashCols_alike (h : List.Forall₂ Alike cs cs') (w : Width) (use16 : Bool) (fuel : Nat) :
    ∀ (i prev : Nat) (ht : Ahash),
      hashCols w use16 fuel i prev cs' ht = hashCols w use16 fuel i prev cs ht := by
  induction h with
  | nil => exact fun _ _ _ => rfl
  | cons hc _ ih =>
      intro i prev ht
      simp only [hashCols, hc.empty, hc.mcofsts, ih]

theorem offsets_alike (h : List.Forall₂ Alike cs cs') (rflag : Nat) :
    (cs'.flatMap fun c => setColOffst rflag c.mcofsts) =
      cs.flatMap fun c => setColOffst rflag c.mcofsts := by
  induction h with
  | nil => rfl
  | cons hc _ ih => rw [List.flatMap_cons, List.flatMap_cons, hc.mcofsts, ih]

end Alike

section Exchange

variable {cols : List Crd}

theorem createHashRow_alike (h : List.Forall₂ Alike cr.cols cols) (rflag : Nat) :
    createHashRow { cr with cols } rflag = createHashRow cr rflag := by
  have hn : ({ cr with cols } : Cr).ncols = cr.ncols := by
    unfold Cr.ncols
    rw [h.length_eq]
  unfold createHashRow
  rw [hn]
  dsimp only
  rw [hashCols_alike h]

/-- The header does not tell them apart. -/
theorem rowHead_alike (h : List.Forall₂ Alike cr.cols cols) :
    rowHead { cr with cols } zt = rowHead cr zt := by
  have hn : ({ cr with cols } : Cr).ncols = cr.ncols := by
    unfold Cr.ncols
    rw [h.length_eq]
  unfold rowHead
  dsimp only
  rw [createHashRow_alike h]
  simp only [hashHead, hashMalloc, normalHead, normalMalloc, hn, offsets_alike h]

theorem Room.alike (hr : Room cr zt) (h : List.Forall₂ Alike cr.cols cols) :
    Room { cr with cols } zt where
  fits := by
    obtain ⟨hd, hh, hle⟩ := hr.fits
    refine ⟨hd, by rw [rowHead_alike h]; exact hh, ?_⟩
    dsimp only
    rw [total_alike h]
    exact hle
  normal hn := by
    dsimp only at hn ⊢
    rw [createHashRow_alike h] at hn
    rw [← h.length_eq]
    exact hr.normal hn
  hash f w ht hh := by
    dsimp only at hh ⊢
    rw [createHashRow_alike h] at hh
    rw [total_alike h]
    exact hr.hash f w ht hh

/-- Columns of the same lengths make a row of the same layout. -/
theorem Kept.alike (hk : Kept z fields zt cr) (h : List.Forall₂ Alike cr.cols cols)
    (he : ∀ c ∈ cols, Exact c) {fields' : List Field} (hc : Carries z zt fields' cols) :
    Kept z fields' zt { cr with cols } where
  laid := ⟨laidFrom_alike h hk.laid.cols, by
    dsimp only
    rw [total_alike h]
    exact hk.laid.rlen⟩
  exact := he
  empties := by
    intro c' hc' hemp
    obtain ⟨i, hi, rfl⟩ := List.mem_iff_getElem.1 hc'
    have hi' : i < cr.cols.length := by rwa [h.length_eq]
    have ha := h.get hi' hi
    simp only [List.get_eq_getElem] at ha
    rw [ha.len]
    exact hk.empties _ (List.getElem_mem hi') (ha.empty ▸ hemp)
  count := by
    dsimp only
    rw [← h.length_eq]
    exact hk.count
  room := hk.room.alike h
  carries := hc

end Exchange

/-- An INT for an INT or a LONG for a LONG, of the same width. -/
structure Swap (f f' : Field) : Prop where
  ctype : f'.ctype = f.ctype
  num : f.ctype = .int ∨ f.ctype = .long
  filled : f.empty = false ∧ f'.empty = false
  len : f'.data.1 = f.data.1

theorem value_of_num {f : Field} (hn : f.ctype = .int ∨ f.ctype = .long) (he : f.empty = false) :
    f.value ≠ .empty := by
  cases f with
  | int v => cases v <;> simp_all [Field.empty, Field.value]
  | long v => cases v <;> simp_all [Field.empty, Field.value]
  | u128 v => simp [Field.ctype] at hn
  | float v => simp [Field.ctype] at hn
  | text v => simp [Field.ctype] at hn

/-- A number has a byte at least. -/
theorem length_num {f : Field} (hn : f.ctype = .int ∨ f.ctype = .long) (he : f.empty = false) :
    f.data.1 ≠ 0 := by
  cases f with
  | int v =>
      cases v with
      | none => simp [Field.empty] at he
      | some i =>
          rw [Field.data, cIcol_len]
          exact Nat.pos_iff_ne_zero.1 (getCSize_pos _ _)
  | long v =>
      cases v with
      | none => simp [Field.empty] at he
      | some l =>
          rw [Field.data, cIcol_len]
          exact Nat.pos_iff_ne_zero.1 (getCSize_pos _ _)
  | u128 v => simp [Field.ctype] at hn
  | float v => simp [Field.ctype] at hn
  | text v => simp [Field.ctype] at hn

/-- Column `i` of a row, between the bytes before it and behind it. -/
theorem flatMap_at {cs : List Crd} {i : Nat} (h : i < cs.length) (c' : Crd) :
    cs.flatMap (·.data.bytes) = (cs.take i).flatMap (·.data.bytes) ++ cs[i].data.bytes ++
        (cs.drop (i + 1)).flatMap (·.data.bytes) ∧
      (cs.set i c').flatMap (·.data.bytes) = (cs.take i).flatMap (·.data.bytes) ++ c'.data.bytes ++
        (cs.drop (i + 1)).flatMap (·.data.bytes) := by
  constructor
  · conv_lhs => rw [← List.take_append_drop i cs, List.drop_eq_getElem_cons h]
    rw [List.flatMap_append, List.flatMap_cons, List.append_assoc]
  · rw [List.set_eq_take_append_cons_drop, if_pos h, List.flatMap_append, List.flatMap_cons,
      List.append_assoc]

/-- A number is written where one of the same width was: the row then carries it, and stands there as
if it had been written so. -/
theorem Kept.swap (hk : Kept z fields zt cr) (hw : writeCols cr zt = some row) {i : Nat}
    (hi : i < fields.length) {f' : Field} (hs : Swap fields[i] f') :
    ∃ cr' row', Kept z (fields.set i f') zt cr' ∧ writeCols cr' zt = some row' ∧
      ∀ mem, poke (follow row mem) (getColData (follow row mem) (i + 1)).1 f'.data.2.bytes =
        follow row' mem := by
  have hic : i < cr.cols.length := by
    by_contra hge
    exact value_of_num hs.num hs.filled.1 (hk.carries.rest i hi (by omega))
  have htext : fields[i].ctype ≠ .text := by
    rcases hs.num with h | h <;> rw [h] <;> simp
  have hcar := hk.carries.carried i hic hi
  unfold Carried at hcar
  rw [if_neg htext] at hcar
  obtain ⟨hd, hemp⟩ := hcar
  obtain ⟨c', hc'⟩ : ∃ c' : Crd, c' = ⟨f'.data.2, f'.empty, cr.cols[i].mcofsts⟩ := ⟨_, rfl⟩
  have hemp' : c'.empty = cr.cols[i].empty := by rw [hc', hemp, hs.filled.1, hs.filled.2]
  have hlen : colLen cr.cols[i] = fields[i].data.1 := by
    rw [← colLen_field fields[i] cr.cols[i].mcofsts, ← hd, ← hemp]
  have hlen' : colLen c' = f'.data.1 := by rw [hc', colLen_field]
  have ha : List.Forall₂ Alike cr.cols (cr.cols.set i c') :=
    alike_set hic ⟨hemp', by rw [hc'], by rw [hlen, hlen', hs.len]⟩
  have hex : Exact cr.cols[i] := hk.exact _ (List.getElem_mem hic)
  have hex' : Exact c' := by
    rw [hc', exact_field]
    rintro rfl
    exact absurd hs.filled.2 (by simp [Field.empty])
  have hk' : Kept z (fields.set i f') zt { cr with cols := cr.cols.set i c' } := by
    refine hk.alike ha (fun c hc => ?_) ⟨?_, fun j h h' => ?_, fun j h' h => ?_⟩
    · rcases List.mem_or_eq_of_mem_set hc with h | rfl
      · exact hk.exact c h
      · exact hex'
    · simpa using hk.carries.le
    · rw [List.getElem_set, List.getElem_set]
      by_cases hij : i = j
      · rw [if_pos hij, if_pos hij]
        unfold Carried
        rw [if_neg (by rw [hs.ctype]; exact htext), hc']
        exact ⟨rfl, rfl⟩
      · rw [if_neg hij, if_neg hij]
        exact hk.carries.carried j (by simpa using h) (by simpa using h')
    · rw [List.length_set] at h
      rw [List.getElem_set, if_neg (by omega)]
      exact hk.carries.rest j (by simpa using h') h
  obtain ⟨hd₀, hh, rfl, -⟩ := writeCols_eq_some.1 hw
  obtain ⟨row', hw'⟩ := hk'.written
  refine ⟨_, row', hk', hw', fun mem => ?_⟩
  obtain ⟨hd₁, hh', rfl, -⟩ := writeCols_eq_some.1 hw'
  rw [rowHead_alike ha, hh] at hh'
  cases hh'
  have hpos : colLen cr.cols[i] ≠ 0 := by
    rw [hlen]
    exact length_num hs.num hs.filled.1
  obtain ⟨h1, h2⟩ := flatMap_at hic c'
  have hpre : hd₀.1.length + total (cr.cols.take i) =
      (hd₀.1 ++ (cr.cols.take i).flatMap (·.data.bytes)).length := by
    rw [List.length_append,
      (total_le_written _).2.2 fun c hc => hk.exact c (List.mem_of_mem_take hc)]
  have hbytes : c'.data.bytes.length = cr.cols[i].data.bytes.length := by
    rw [hex', hex, hlen, hlen', hs.len]
  rw [placed_of_room hk.laid hk.empties hk.count hk.room hh mem hic hpos]
  dsimp only
  rw [hpre, h1, h2, ← List.append_assoc, ← List.append_assoc, ← List.append_assoc,
    ← List.append_assoc, show f'.data.2 = c'.data by rw [hc']]
  exact poke_follow mem hbytes _ _

end Kept

end AlchemyDB.Format
