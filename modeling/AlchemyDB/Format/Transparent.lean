/-
# Compressed rows against uncompressed rows

With compression on, a TEXT should read as with compression off.  It does when `zipCol`
gets through: LZF, once it is found worth while, must not give up on any text (an empty
text is one it gives up on), and a search for a character outside the six-bit alphabet
must not meet a byte above 127.  Two lengths are limits: that of a text of which LZF
keeps the length, and that of a packed text.
-/
import AlchemyDB.Format.Sparse

namespace AlchemyDB.Format

open Bytes Row Ahash

/-! ## Rows that are read rightly -/

/-- A row has room in its block, and its columns are found: the offsets of a normal row where the
reader looks, and no column of a hash row too far from its slot. -/
structure Room (cr : Cr) (zt : Czip) : Prop where
  fits : Fits cr zt
  normal : createHashRow cr (assignRflag cr.rlen zt) = some none →
    getCSize (cr.cols.length - 1) true = getCSize cr.cols.length true
  hash : ∀ f w ht, createHashRow cr (assignRflag cr.rlen zt) = some (some (f, w, ht)) →
    Near w ht ∧ total cr.cols < 2147483648

/-- A row that is written, and read as it was laid out. -/
structure Readable (cr : Cr) (zt : Czip) (row : List UInt8) : Prop where
  written : writeCols cr zt = some row
  six : ∀ mem, (getRowPayload (follow row mem)).rflag &&& 8 ≠ 0 ↔ zt = .six
  lzf : ∀ mem, (getRowPayload (follow row mem)).rflag &&& 16 ≠ 0 ↔ zt = .lzf
  located : ∀ mem (i : Nat) (h : i < cr.cols.length), Located (follow row mem) cr.cols[i] (i + 1)
  beyond : ∀ mem k, cr.cols.length < k → (getColData (follow row mem) k).2 = 0

theorem flag_zip (rlen : Nat) (zt : Czip) :
    (assignRflag rlen zt &&& 8 ≠ 0 ↔ zt = .six) ∧ (assignRflag rlen zt &&& 16 ≠ 0 ↔ zt = .lzf) := by
  unfold assignRflag
  split
  · cases zt <;> decide
  · split <;> cases zt <;> decide

theorem hashFlag_zip (rlen : Nat) (zt : Czip) (use16 : Bool) :
    (hashFlag (assignRflag rlen zt) use16 &&& 8 ≠ 0 ↔ zt = .six) ∧
      (hashFlag (assignRflag rlen zt) use16 &&& 16 ≠ 0 ↔ zt = .lzf) := by
  unfold assignRflag
  split
  · cases zt <;> cases use16 <;> decide
  · split <;> cases zt <;> cases use16 <;> decide

section Rows

variable {cr : Cr} {zt : Czip}

/-- A normal row that has no columns says so. -/
theorem Headed.no_columns {m : Nat → UInt8} (hh : Headed m cr zt) (h0 : cr.cols.length = 0) :
    (getRowPayload m).rflag = assignRflag cr.rlen zt ∧ (getRowPayload m).ncols = 0 := by
  have h := flagOk cr.rlen zt
  have hn := hh.ncols
  rw [h0] at hn
  simp only [getRowPayload, hh.flag, hn, h.hash, ne_eq, not_true_eq_false, if_false]
  exact ⟨trivial, rfl⟩

theorem readable_normal (hl : Laid cr) (he : ∀ c ∈ cr.cols, Exact c)
    (hn : createHashRow cr (assignRflag cr.rlen zt) = some none) (hr : Room cr zt) :
    Readable cr zt (normalRow cr zt) := by
  obtain ⟨h, hh, hle⟩ := hr.fits
  have hlt := block_lt hh
  rw [rowHead_normal hn] at hh
  cases hh
  dsimp only at hle hlt
  rw [length_normalHead] at hle
  have hf : headLen cr + total cr.cols < 4294967296 := by
    unfold headLen
    omega
  have hst (mem : Nat → UInt8) := stands_follow (normalRow cr zt) mem
  have hhd (mem : Nat → UInt8) := headed (cols_lt hf) (stands_append.1 (hst mem)).1
  have hflag (mem : Nat → UInt8) :
      (getRowPayload (follow (normalRow cr zt) mem)).rflag = assignRflag cr.rlen zt := by
    rcases Nat.eq_zero_or_pos cr.cols.length with h0 | h0
    · exact ((hhd mem).no_columns h0).1
    · rw [(hhd mem).payload hl h0 hf]
  refine ⟨?_, fun mem => ?_, fun mem => ?_, fun mem i hi => ?_, fun mem k hk => ?_⟩
  · rw [writeCols_normal hn, if_pos]
    rw [length_normalRow, (total_le_written cr.cols).2.2 he, headLen]
    exact hle
  · rw [hflag]
    exact (flag_zip _ _).1
  · rw [hflag]
    exact (flag_zip _ _).2
  · exact located_normal hl he (hst mem) hf (hr.normal hn) hi
  · rcases Nat.eq_zero_or_pos cr.cols.length with h0 | h0
    · have h0' := ((hhd mem).no_columns h0).2
      unfold getColData
      dsimp only
      rw [h0', if_pos (by omega)]
    · exact (hhd mem).beyond hl h0 hf hk

theorem readable_hash (hl : Laid cr) (he : ∀ c ∈ cr.cols, Exact c)
    (hz : ∀ c ∈ cr.cols, c.empty = true → colLen c = 0) (hc4 : cr.cols.length < 4294967296)
    {use16 : Bool} {ht : Ahash} (hc : Chosen cr (assignRflag cr.rlen zt) use16 ht)
    (hch : createHashRow cr (assignRflag cr.rlen zt) =
      some (some (hashFlag (assignRflag cr.rlen zt) use16, widthOf use16, ht)))
    (hr : Room cr zt) :
    Readable cr zt (hashRow cr (hashFlag (assignRflag cr.rlen zt) use16) (widthOf use16) ht) := by
  obtain ⟨hnear, hlim⟩ := hr.hash _ _ _ hch
  obtain ⟨h, hh, hle⟩ := hr.fits
  have hlt := block_lt hh
  have hh' : rowHead cr zt = some
      (hashHead cr (hashFlag (assignRflag cr.rlen zt) use16) (widthOf use16) ht,
        hashMalloc cr (widthOf use16) ht) := by
    simp only [rowHead, hch, Option.map_some]
  rw [hh'] at hh
  cases hh
  dsimp only at hle hlt
  rw [length_hashHead] at hle
  have hrl : cr.rlen = total cr.cols := by rw [hl.rlen, u32_of_lt (by omega)]
  have hlen : hashLen cr use16 ht + cr.rlen < 4294967296 := by omega
  have hst (mem : Nat → UInt8) := stands_follow
    (hashRow cr (hashFlag (assignRflag cr.rlen zt) use16) (widthOf use16) ht) mem
  have hhead (mem : Nat → UInt8) := (stands_append.1 (hst mem)).1
  have hp (mem : Nat → UInt8) := (hash_payload (hashFlagOk _ _ _) hc (hhead mem) hlen hc4).1
  refine ⟨?_, fun mem => ?_, fun mem => ?_, fun mem i hi => ?_, fun mem k hk => ?_⟩
  · refine writeCols_eq_some.2 ⟨_, hh', rfl, ?_⟩
    rw [hashRow, List.length_append, length_hashHead, (total_le_written cr.cols).2.2 he]
    exact hle
  · rw [hp]
    exact (hashFlag_zip _ _ _).1
  · rw [hp]
    exact (hashFlag_zip _ _ _).2
  · cases hemp : cr.cols[i].empty with
    | true =>
        have h0 := hz _ (List.getElem_mem hi) hemp
        exact ⟨(hash_column_empty (hashFlagOk _ _ _) hc (hhead mem) hlen hc4 hi hemp).trans h0.symm,
          fun hne => absurd h0 hne⟩
    | false =>
        obtain ⟨s, hs, hk, hcol⟩ := hash_column_filled (hashFlagOk _ _ _) hc (hhead mem) hlen hc4
          (lt_hashLimit hl hc hlim) hi hemp
        have hreach := hc.ok.reach hnear s hs (by omega)
        rw [hk] at hreach
        rw [if_pos hreach] at hcol
        refine ⟨by rw [hcol], fun _ => ?_⟩
        rw [hcol]
        exact stands_hash he (hst mem) hi
  · simp only [getColData, hp]
    rw [if_pos hk]

/-- A filled column of a row with room is read where it was put. -/
theorem placed_of_room (hl : Laid cr)
    (hz : ∀ c ∈ cr.cols, c.empty = true → colLen c = 0) (hc4 : cr.cols.length < 4294967296)
    (hr : Room cr zt) {h : List UInt8 × Nat} (hh : rowHead cr zt = some h) (mem : Nat → UInt8)
    {i : Nat} (hi : i < cr.cols.length) (h0 : colLen cr.cols[i] ≠ 0) :
    getColData (follow (h.1 ++ cr.cols.flatMap (·.data.bytes)) mem) (i + 1) =
      (h.1.length + total (cr.cols.take i), colLen cr.cols[i]) := by
  obtain ⟨h', hh', hle⟩ := hr.fits
  rw [hh] at hh'
  cases hh'
  have hlt := block_lt hh
  have hhead := (stands_append.1 (stands_follow (h.1 ++ cr.cols.flatMap (·.data.bytes)) mem)).1
  rcases createHashRow_cases hl (assignRflag cr.rlen zt) with hn | ⟨use16, ht, hch, hc⟩
  · rw [rowHead_normal hn] at hh
    cases hh
    dsimp only at hle hlt
    have hlen : (normalHead cr (assignRflag cr.rlen zt)).length = headLen cr := length_normalHead cr zt
    rw [hlen] at hle ⊢
    have hf : headLen cr + total cr.cols < 4294967296 := by omega
    exact (headed (cols_lt hf) hhead).getColData hl hf (hr.normal hn) hi
  · obtain ⟨hnear, hlim⟩ := hr.hash _ _ _ hch
    have hh' : rowHead cr zt = some
        (hashHead cr (hashFlag (assignRflag cr.rlen zt) use16) (widthOf use16) ht,
          hashMalloc cr (widthOf use16) ht) := by
      simp only [rowHead, hch, Option.map_some]
    rw [hh] at hh'
    cases hh'
    dsimp only at hle hlt hhead ⊢
    rw [length_hashHead] at hle ⊢
    have hrl : cr.rlen = total cr.cols := by rw [hl.rlen, u32_of_lt (by omega)]
    have hemp : cr.cols[i].empty = false := by
      cases hb : cr.cols[i].empty with
      | false => rfl
      | true => exact absurd (hz _ (List.getElem_mem hi) hb) h0
    obtain ⟨s, hs, hk, hcol⟩ := hash_column_filled (hashFlagOk _ _ _) hc hhead (by omega) hc4
      (lt_hashLimit hl hc hlim) hi hemp
    have hreach := hc.ok.reach hnear s hs (by omega)
    rw [hk] at hreach
    rw [hcol, if_pos hreach]

/-- A row with room is written and read. -/
theorem readable_of_room (hl : Laid cr) (he : ∀ c ∈ cr.cols, Exact c)
    (hz : ∀ c ∈ cr.cols, c.empty = true → colLen c = 0) (hc4 : cr.cols.length < 4294967296)
    (hr : Room cr zt) : ∃ row, Readable cr zt row := by
  rcases createHashRow_cases hl (assignRflag cr.rlen zt) with hn | ⟨use16, ht, hch, hc⟩
  · exact ⟨_, readable_normal hl he hn hr⟩
  · exact ⟨_, readable_hash hl he hz hc4 hc hch hr⟩

end Rows

/-! ## Reading a compressed text -/

/-- What `lzf.h` says of the library: what it compressed it gives back, given the length; it never
compresses an empty input; and it never gives more than it was asked for. -/
structure Lossless (z : Lzf) : Prop where
  back : ∀ s n c, z.compress s n = some c → z.decompress c s.length = some s
  nil : ∀ n, z.compress [] n = none
  bound : ∀ c n s, z.decompress c n = some s → s.length ≤ n

/-- How a text reads. -/
def textValue (s : List UInt8) : Value := if s = [] then .empty else .text s

/-- The length that stands before a compressed text is read back below the limit of four bytes, and
above it a smaller number is read. -/
theorem sI2I_length {m : Nat → UInt8} {o l : Nat} (hl : l < 4294967296)
    (hs : Stands m o (le (cIcol l true).len (cIcol l true).col)) :
    (l < 536870912 → sI2I m o true = (l, (cIcol l true).len)) ∧
      (536870912 ≤ l → (sI2I m o true).1 < l) := by
  constructor
  · intro hlt
    have hb : le (cIcol l true).len (cIcol l true).col = numBytes l true := by
      unfold numBytes cIcol
      split
      · rfl
      · split
        · rfl
        · rfl
    rw [hb] at hs
    rw [cIcol_len]
    exact sI2I_numBytes hl hs
  · intro hge
    have hc : cIcol l true = ⟨5, 32, l⟩ := by
      unfold cIcol
      rw [if_neg (by omega), if_neg (by omega), if_neg (by omega), if_pos rfl]
    rw [hc] at hs
    have h5 : ofLe (peek m (o + 1) 4) = l / 256 := ofLe_peek (stands_cons.1 hs).2 (by omega)
    have h1 := ofLe_peek_lt m o 1
    have h2 := ofLe_peek_lt m o 2
    have h4 := ofLe_peek_lt m o 4
    unfold sI2I
    dsimp only
    split
    · simp only
      omega
    · split
      · simp only
        omega
      · split
        · simp only
          omega
        · simp only [if_true, h5]
          omega

section Text

variable {z : Lzf} {m : Nat → UInt8} {c : Crd} {s b : List UInt8} {k : Nat}

theorem read_six (hp : createSixBit s = some (some b)) (hd : c.data = .text b) (hl : Located m c k)
    (h6 : (getRowPayload m).rflag &&& 8 ≠ 0) :
    getRawCol z .text m k = textValue s ↔ s.length < 1431655764 := by
  obtain ⟨hn, hs⟩ := hl
  have hlen : colLen c = b.length := by simp only [colLen, hd, ColData.bytes]
  rw [hd, hlen] at hs
  rw [hlen] at hn
  by_cases hne : s = []
  · subst hne
    cases hp
    rw [getRawCol_empty hn]
    exact iff_of_true rfl (by simp)
  · have hb := length_createSixBit hne hp
    have hpos : b.length ≠ 0 := by omega
    rw [← unpackSixBit_iff hne hp (hs hpos)]
    simp only [getRawCol, hn, hpos, if_false, h6, ne_eq, not_false_eq_true, if_true, textValue, hne,
      Value.text.injEq]

theorem read_lzf (hz : Lossless z) (h32 : s.length < 4294967296) (hp : lzfZipCol z s = some b)
    (hd : c.data = .text b) (hl : Located m c k) (h6 : (getRowPayload m).rflag &&& 8 = 0)
    (h16 : (getRowPayload m).rflag &&& 16 ≠ 0) (hb32 : b.length < 4294967296) :
    getRawCol z .text m k = textValue s ↔ s.length < 536870912 := by
  obtain ⟨hn, hs⟩ := hl
  have hlen : colLen c = b.length := by simp only [colLen, hd, ColData.bytes]
  rw [hd, hlen] at hs
  rw [hlen] at hn
  obtain ⟨p, hcomp, rfl⟩ := Option.map_eq_some_iff.1 hp
  have hne : s ≠ [] := by
    rintro rfl
    rw [hz.nil] at hcomp
    cases hcomp
  have hc : 0 < (cIcol s.length true).len := by
    rw [cIcol_len]
    exact getCSize_pos _ _
  rw [List.length_append, length_le] at hn hs hb32
  have hpos : (cIcol s.length true).len + p.length ≠ 0 := by omega
  obtain ⟨h1, h2⟩ := stands_append.1 (hs hpos)
  obtain ⟨hsmall, hlarge⟩ := sI2I_length h32 h1
  rw [length_le] at h2
  have hread : getRawCol z .text m k = .text (streamLZFTextToString z m (getColData m k).1
      ((cIcol s.length true).len + p.length)) := by
    simp only [getRawCol, hn, hpos, if_false, h6, ne_eq, not_true_eq_false, h16, not_false_eq_true,
      if_true]
  rw [hread, textValue, if_neg hne, Value.text.injEq]
  constructor
  · intro hv
    by_contra hge
    have hlt := hlarge (by omega)
    -- the library is asked for less than the text
    have hle : (streamLZFTextToString z m (getColData m k).1
        ((cIcol s.length true).len + p.length)).length ≤ (sI2I m (getColData m k).1 true).1 := by
      unfold streamLZFTextToString
      dsimp only
      cases hdec : z.decompress (peek m ((getColData m k).1 + (sI2I m (getColData m k).1 true).2)
          (u32 ((cIcol s.length true).len + p.length + 4294967296 -
            (sI2I m (getColData m k).1 true).2))) (u32 (sI2I m (getColData m k).1 true).1) with
      | none => exact Nat.zero_le _
      | some t => exact (hz.bound _ _ _ hdec).trans (Nat.mod_le _ _)
    rw [hv] at hle
    omega
  · intro hlt
    have hu : u32 ((cIcol s.length true).len + p.length + 4294967296 - (cIcol s.length true).len) =
        p.length := by
      unfold u32
      omega
    have hp2 : peek m ((getColData m k).1 + (cIcol s.length true).len) p.length = p := h2
    simp only [streamLZFTextToString, hsmall hlt, hu, hp2, u32_of_lt h32, hz.back _ _ _ hcomp,
      Option.getD_some]

theorem read_plain (hd : c.data = .text s) (hl : Located m c k)
    (h6 : (getRowPayload m).rflag &&& 8 = 0) (h16 : (getRowPayload m).rflag &&& 16 = 0) :
    getRawCol z .text m k = textValue s := by
  obtain ⟨hn, hs⟩ := hl
  have hlen : colLen c = s.length := by simp only [colLen, hd, ColData.bytes]
  rw [hd, hlen] at hs
  rw [hlen] at hn
  by_cases hne : s = []
  · subst hne
    exact getRawCol_empty hn z _
  · have hpos : s.length ≠ 0 := fun e => hne (List.length_eq_zero_iff.1 e)
    have ht : peek m (getColData m k).1 s.length = s := hs hpos
    simp only [getRawCol, hn, hpos, if_false, h6, h16, ne_eq, not_true_eq_false, ht, textValue, hne]

end Text

/-- The limit on a text under a scheme. -/
def Short : Czip → List UInt8 → Prop
  | .none, _ => True
  | .six, s => s.length < 1431655764
  | .lzf, s => s.length < 536870912

/-- A text of a row is read under its scheme just when it is below the limit. -/
theorem Readable.text {z : Lzf} {cr : Cr} {zt : Czip} {row s b : List UInt8}
    (hr : Readable cr zt row) (hz : Lossless z) (ht : total cr.cols < 4294967296)
    (h32 : s.length < 4294967296) (hp : Packed z zt s b) (mem : Nat → UInt8) {i : Nat}
    (hi : i < cr.cols.length) (hd : cr.cols[i].data = .text b) :
    getRawCol z .text (follow row mem) (i + 1) = textValue s ↔ Short zt s := by
  have hl := hr.located mem i hi
  have h6 := hr.six mem
  have h16 := hr.lzf mem
  cases zt with
  | none =>
      cases hp
      exact iff_of_true (read_plain hd hl (by simpa using h6) (by simpa using h16)) trivial
  | six => exact read_six hp hd hl (h6.2 rfl)
  | lzf =>
      refine read_lzf hz h32 hp hd hl (by simpa using h6) (h16.2 rfl) ?_
      have hle := total_take_le cr.cols (i + 1)
      have hlen : colLen cr.cols[i] = b.length := by simp only [colLen, hd, ColData.bytes]
      rw [total_take_succ hi, hlen] at hle
      omega

/-! ## Whether the texts of a row can be compressed -/

/-- What the texts of a row must be: when one of them is longer than 20 characters and LZF is found
worth while, every one must be compressed, and be below the limit of the length that is kept with it;
otherwise the first character outside the six-bit alphabet must be no negative `char`, and where
there is none the texts must be below the limit of a packed text. -/
def ZipOk (z : Lzf) (ts : List (List UInt8)) : Prop :=
  if (∃ s ∈ ts, 20 < s.length) ∧ (lzfLoop z ts).2.1 < (lzfLoop z ts).1 then
    ∀ s ∈ ts, (lzfZipCol z s).isSome = true ∧ s.length < 536870912
  else
    match ts.flatten.find? outside with
    | none => ∀ s ∈ ts, s.length < 1431655764
    | some c => c.toNat < 128

theorem lzfLoop_isSome (z : Lzf) : ∀ ts : List (List UInt8),
    ((lzfLoop z ts).2.2.mapM id).isSome = true ↔ ∀ s ∈ ts, (lzfZipCol z s).isSome = true
  | [] => by simp [lzfLoop]
  | s :: ss => by
      rw [lzfLoop, List.forall_mem_cons, ← lzfLoop_isSome z ss]
      cases hs : lzfZipCol z s with
      | none => simp
      | some b =>
          simp only [Option.isSome_some, true_and, List.mapM_cons]
          cases hm : (lzfLoop z ss).2.2.mapM id with
          | none => simp
          | some bs => simp

theorem zipOk_iff (z : Lzf) (ts : List (List UInt8)) :
    ZipOk z ts ↔ ∃ zt bs, zipTexts z ts = some (zt, bs) ∧ ∀ s ∈ ts, Short zt s := by
  have hlong : (ts.any fun s => decide (s.length > 20)) = true ↔ ∃ s ∈ ts, 20 < s.length := by simp
  unfold ZipOk zipTexts
  dsimp only
  by_cases hc : (∃ s ∈ ts, 20 < s.length) ∧ (lzfLoop z ts).2.1 < (lzfLoop z ts).1
  · rw [if_pos hc, if_pos (by rw [Bool.and_eq_true, hlong, decide_eq_true_iff]; exact hc)]
    constructor
    · intro h
      obtain ⟨bs, hbs⟩ := Option.isSome_iff_exists.1
        ((lzfLoop_isSome z ts).2 fun s hs => (h s hs).1)
      exact ⟨.lzf, bs, by rw [hbs]; rfl, fun s hs => (h s hs).2⟩
    · rintro ⟨zt, bs, h, hshort⟩ s hs
      obtain ⟨bs', hbs, he⟩ := Option.map_eq_some_iff.1 h
      cases he
      exact ⟨(lzfLoop_isSome z ts).1 (by rw [hbs]; rfl) s hs, hshort s hs⟩
  · rw [if_neg hc, if_neg (by rw [Bool.and_eq_true, hlong, decide_eq_true_iff]; exact hc)]
    have hout := sixLoop_outcome ts
    cases h6 : sixLoop ts with
    | none =>
        rw [h6] at hout
        cases ho : ts.flatten.find? outside with
        | none => simp [ho, packable] at hout
        | some c =>
            have hge : c.toNat ≥ 128 := by
              by_contra hlt
              simp [ho, packable, hlt] at hout
            simpa using hge
    | some r =>
        rw [h6] at hout
        cases r with
        | none =>
            cases ho : ts.flatten.find? outside with
            | none => simp [ho, packable] at hout
            | some c =>
                have hlt : c.toNat < 128 := by
                  by_contra hge
                  simp [ho, packable, Nat.le_of_not_lt hge] at hout
                exact iff_of_true hlt ⟨.none, ts, rfl, fun s _ => trivial⟩
        | some bs =>
            cases ho : ts.flatten.find? outside with
            | none =>
                refine ⟨fun h => ⟨.six, bs, rfl, h⟩, ?_⟩
                rintro ⟨zt, bs', h, hshort⟩
                cases h
                exact hshort
            | some c =>
                by_cases hge : c.toNat ≥ 128 <;> simp [ho, packable, hge] at hout

/-- A row is prepared with every text below its limit just under the condition. -/
theorem prepared_iff (z : Lzf) (cr : Cr) :
    ZipOk z (texts cr.cols) ↔
      ∃ zt cr', prepared true z cr = some (zt, cr') ∧ ∀ s ∈ texts cr.cols, Short zt s := by
  unfold prepared
  rw [Bool.true_and]
  cases hnil : texts cr.cols with
  | nil => exact iff_of_true (by simp [ZipOk]) ⟨.none, cr, rfl, by simp⟩
  | cons t ts =>
      rw [← hnil, zipOk_iff]
      have he : (!(texts cr.cols).isEmpty) = true := by rw [hnil]; rfl
      rw [if_pos he]
      unfold zipCol
      constructor
      · rintro ⟨zt, bs, h, hshort⟩
        rw [h, Option.map_some]
        cases zt with
        | none => exact ⟨.none, _, rfl, hshort⟩
        | six => exact ⟨.six, _, rfl, hshort⟩
        | lzf => exact ⟨.lzf, _, rfl, hshort⟩
      · rintro ⟨zt, cr', h, hshort⟩
        obtain ⟨⟨zt', bs⟩, ht, he'⟩ := Option.map_eq_some_iff.1 h
        refine ⟨zt', bs, ht, ?_⟩
        cases zt' with
        | none => exact fun s _ => trivial
        | six =>
            cases he'
            exact hshort
        | lzf =>
            cases he'
            exact hshort

/-! ## The theorem -/

/-- Every TEXT of the row that is written with compression reads as in the row that is written
without it. -/
def Transparent (z : Lzf) (fields : List Field) : Prop :=
  ∀ row', writeRow false z (createRow fields) = some row' →
    ∃ row, writeRow true z (createRow fields) = some row ∧
      ∀ (mem mem' : Nat → UInt8) (i : Nat) (h : i < fields.length), fields[i].ctype = .text →
        getRawCol z .text (follow row mem) (i + 1) = getRawCol z .text (follow row' mem') (i + 1)

theorem text_field {f : Field} (h : f.ctype = .text) :
    ∃ s : List UInt8, s.length < 4294967296 ∧ f.data.2 = .text s := by
  cases f with
  | text v =>
      cases v with
      | none => exact ⟨[], by decide, rfl⟩
      | some s => exact ⟨s.val, s.2, rfl⟩
  | int v => cases h
  | long v => cases h
  | u128 v => cases h
  | float v => cases h

/-- A column of a row comes from a field. -/
theorem col_of_field {fields : List Field} {i : Nat} (hi : i < (createRow fields).cols.length) :
    ∃ (hs : i < (stored fields).length) (o : Nat),
      (createRow fields).cols[i] = ⟨(stored fields)[i].data.2, (stored fields)[i].empty, o⟩ := by
  have hs : i < (stored fields).length := by rwa [cols_length] at hi
  obtain ⟨o, ho⟩ := crdsFrom_get (stored fields) 0 hs
  exact ⟨hs, o, Option.some.inj ((List.getElem?_eq_getElem hi).symm.trans ho)⟩

/-- The texts of a row are those of its fields. -/
theorem mem_texts {cols : List Crd} {s : List UInt8} :
    s ∈ texts cols ↔ ∃ (i : Nat) (h : i < cols.length), cols[i].data = .text s := by
  unfold texts
  rw [List.mem_filterMap]
  constructor
  · rintro ⟨c, hc, he⟩
    obtain ⟨i, hi, rfl⟩ := List.mem_iff_getElem.1 hc
    refine ⟨i, hi, ?_⟩
    split at he
    · rename_i hd
      cases he
      exact hd
    · cases he
  · rintro ⟨i, hi, hd⟩
    exact ⟨cols[i], List.getElem_mem hi, by rw [hd]⟩

theorem total_lt_of_room {cr : Cr} {zt : Czip} (hr : Room cr zt) : total cr.cols < 4294967296 := by
  obtain ⟨h, hh, hle⟩ := hr.fits
  have := block_lt hh
  omega

section Rows

variable {z : Lzf} {fields : List Field}

/-- How the columns of a prepared row read: a TEXT of the row is read under its scheme just below the
limit, and the others are empty. -/
theorem read_prepared (hz : Lossless z) {Z : Bool} {zt : Czip} {cr : Cr} {row : List UInt8}
    (hp : prepared Z z (createRow fields) = some (zt, cr)) (hr : Readable cr zt row)
    (ht : total cr.cols < 4294967296) (mem : Nat → UInt8) {i : Nat} (hi : i < fields.length)
    (htext : fields[i].ctype = .text) :
    (∃ (hc : i < (createRow fields).cols.length) (s : List UInt8),
      (createRow fields).cols[i].data = .text s ∧
        (getRawCol z .text (follow row mem) (i + 1) = textValue s ↔ Short zt s)) ∨
      ((createRow fields).cols.length ≤ i ∧ getRawCol z .text (follow row mem) (i + 1) = .empty) := by
  have hrel := prepared_rel hp
  have hlen := hrel.length_eq
  rcases stored_get fields hi with ⟨hst, hfs⟩ | ⟨hst, -⟩
  · have hc : i < (createRow fields).cols.length := by rwa [cols_length]
    have hc' : i < cr.cols.length := by omega
    obtain ⟨_, o, hcol⟩ := col_of_field hc
    obtain ⟨s, h32, hd⟩ := text_field htext
    have hdata : (createRow fields).cols[i].data = .text s := by rw [hcol, ← hfs]; exact hd
    refine .inl ⟨hc, s, hdata, ?_⟩
    obtain ⟨-, ⟨s', b, hs', hb, hpk⟩ | ⟨hno, -⟩⟩ := hrel.get hc hc'
    · rw [List.get_eq_getElem, hdata] at hs'
      cases hs'
      exact hr.text hz ht h32 hpk mem hc' hb
    · exact absurd hdata (hno s)
  · rw [← cols_length] at hst
    exact .inr ⟨hst, getRawCol_empty (hr.beyond mem (i + 1) (by omega)) z _⟩

end Rows

/-- Forty times the letter `a`. -/
def longText : { s : List UInt8 // s.length < 4294967296 } :=
  ⟨List.replicate 40 97, by decide⟩

/-- What the library does with it. -/
def longLzf : Lzf where
  compress s _ := if s = longText.val then some [1, 97, 97, 224, 27, 0, 1, 97, 97] else none
  decompress c n :=
    if c = [1, 97, 97, 224, 27, 0, 1, 97, 97] ∧ 40 ≤ n then some longText.val else none

theorem longLzf_lossless : Lossless longLzf where
  back := by
    intro s n c h
    simp only [longLzf] at h ⊢
    split at h
    · rename_i hs
      cases h
      rw [hs]
      rfl
    · cases h
  nil n := rfl
  bound := by
    intro c n s h
    simp only [longLzf] at h
    split at h
    · rename_i hc
      cases h
      exact hc.2
    · cases h

/-- A row of few columns is a normal one. -/
theorem room_small {cr : Cr} {zt : Czip} (hn : cr.ncols < 100)
    (hf : (normalHead cr (assignRflag cr.rlen zt)).length + total cr.cols ≤
      normalMalloc cr (assignRflag cr.rlen zt))
    (hc : getCSize (cr.cols.length - 1) true = getCSize cr.cols.length true) : Room cr zt where
  fits := ⟨_, rowHead_normal (createHashRow_small hn), hf⟩
  normal _ := hc
  hash f w ht h := by
    rw [createHashRow_small hn] at h
    cases h

end AlchemyDB.Format
