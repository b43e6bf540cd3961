/-
# Hash rows at an address — what a read leaves behind

The table of a hash row is written with a null pointer to its entries, which come right
behind it.  The first search puts the address of the entries there, into the row itself:
from then on the row is bound to the place where it stands.
-/
import AlchemyDB.Format.Kept
import AlchemyDB.Format.Sparse

namespace AlchemyDB.Format.Relocation

open Bytes Row

/-! ## Reading at an address -/

/-- A row at an address of a memory. -/
def view (m : Nat → UInt8) (b : Nat) : Nat → UInt8 := fun i => m (b + i)

/-- `ht->entries`, of the table at an address. -/
def entriesPtr (m : Nat → UInt8) (o : Nat) : Nat := ofLe (peek m (o + 16) 8)

/-- `SIMULATE_16HT_ENTRIES` and `SIMULATE_32HT_ENTRIES`. -/
def simulateEntries (m : Nat → UInt8) (o : Nat) : Nat → UInt8 :=
  if entriesPtr m o = 0 then poke m (o + 16) (le 8 (o + 24)) else m

/-- The entries behind a pointer. -/
def entriesIn (w : Width) (m : Nat → UInt8) (p i : Nat) : Entry :=
  let a := p + i * w.entry
  { nColijns := ofLe (peek m a w.count)
    key := ofLe (peek m (a + w.count) w.key)
    val := ofLe (peek m (a + w.count + w.key) w.val) }

/-- `alc_hash16_fetch` and `alc_hash32_fetch`: what is fetched, and the memory afterwards. -/
def alcHashFetch (w : Width) (m : Nat → UInt8) (o key : Nat) : Nat × (Nat → UInt8) :=
  if key = 0 then (0, m)
  else
    (Ahash.fetch (Ahash.nentriesAt (simulateEntries m o) o)
      (entriesIn w (simulateEntries m o) (entriesPtr (simulateEntries m o) o)) key,
      simulateEntries m o)

/-- `getColData` of the row at address `b`: where a column is in the row, its length, and the memory
afterwards. -/
def getColData (m : Nat → UInt8) (b cmatch : Nat) : (Nat × Nat) × (Nat → UInt8) :=
  let p := getRowPayload (view m b)
  let piece (start next : Nat) : Nat × Nat := (p.row + start, u32 (next + 4294967296 - start))
  if cmatch > p.ncols then ((p.row, 0), m)
  else if p.rflag &&& 64 ≠ 0 then
    let f := alcHashFetch hash32 m (b + getHashFromRow (view m b)) cmatch
    let val := Index.wrap64 f.1
    (piece (val.tdiv 4294967295 % 4294967296).toNat (val.tmod 4294967295 % 4294967296).toNat, f.2)
  else if p.rflag &&& 32 ≠ 0 then
    let f := alcHashFetch hash16 m (b + getHashFromRow (view m b)) (cmatch % 65536)
    (piece (f.1 / 65535 % 65536) (f.1 % 65535), f.2)
  else
    (piece (if cmatch = 1 then 0 else getCofst (view m b) p.rflag (cmatch - 2))
      (getCofst (view m b) p.rflag (cmatch - 1)), m)

/-- The value of a column that was found. -/
def colValue (z : Lzf) (t : CType) (rflag : Nat) (m : Nat → UInt8) (d : Nat × Nat) : Value :=
  if d.2 = 0 then .empty
  else
    match t with
    | .int => .int (UInt32.ofNat (sI2I m d.1 true).1)
    | .long => .long (UInt64.ofNat (sI2I m d.1 false).1)
    | .u128 => .u128 (BitVec.ofNat 128 (ofLe (peek m d.1 16)))
    | .float => .float (BitVec.ofNat 32 (ofLe (peek m d.1 4)))
    | .text =>
        if rflag &&& 8 ≠ 0 then .text (unpackSixBit m d.1 d.2)
        else if rflag &&& 16 ≠ 0 then .text (streamLZFTextToString z m d.1 d.2)
        else .text (peek m d.1 d.2)

/-- `getRawCol` of the row at address `b`, for the columns behind the primary key. -/
def getRawCol (z : Lzf) (t : CType) (m : Nat → UInt8) (b cmatch : Nat) : Value :=
  colValue z t (getRowPayload (view m b)).rflag (view (getColData m b cmatch).2 b)
    (getColData m b cmatch).1

/-- The memory after columns were read; the primary key is not in the row. -/
def reads (m : Nat → UInt8) (b : Nat) : List Nat → Nat → UInt8
  | [] => m
  | c :: cs => reads (if c = 0 then m else (getColData m b c).2) b cs

/-! ## Memories that agree -/

variable {m m' : Nat → UInt8} {o b : Nat}

theorem sI2I_congr {I : Bool} (h : ∀ a, o ≤ a → a < o + (sI2I m o I).2 → m a = m' a) :
    sI2I m' o I = sI2I m o I := by
  have hpos : 0 < (sI2I m o I).2 := by
    unfold sI2I
    simp only
    split_ifs <;> exact Nat.zero_lt_succ _
  have h0 : m' o = m o := (h o le_rfl (by omega)).symm
  unfold sI2I at h ⊢
  simp only [h0] at h ⊢
  split_ifs at h ⊢ with h1 h2 h4 hI h8 h16
  · rw [← peek_congr fun i hi hlt => h i hi hlt]
  · rw [← peek_congr fun i hi hlt => h i hi hlt]
  · rw [← peek_congr fun i hi hlt => h i hi hlt]
  · rw [← peek_congr fun i hi hlt => h i (by omega) (by omega)]
  · rw [← peek_congr fun i hi hlt => h i hi hlt]
  · rw [← peek_congr fun i hi hlt => h i hi hlt]
  · rw [← peek_congr fun i hi hlt => h i (by omega) (by omega)]

/-- Numbers, texts and packed texts are read from their address on. -/
theorem sI2I_from {I : Bool} (h : ∀ a, o ≤ a → m a = m' a) : sI2I m' o I = sI2I m o I :=
  sI2I_congr fun a ha _ => h a ha

theorem unpackFrom_from : ∀ {n s_i o : Nat}, (∀ a, o ≤ a → m a = m' a) →
    unpackFrom m' n s_i o = unpackFrom m n s_i o
  | 0, _, _, _ => rfl
  | n + 1, s_i, o, h => by
      have hu : sixBitUnpack m' s_i o = sixBitUnpack m s_i o := by
        simp only [sixBitUnpack, h o le_rfl, h (o + 1) (Nat.le_succ o)]
      have hle : o ≤ (sixBitUnpack m s_i o).2 := by
        unfold sixBitUnpack
        simp only
        split <;> simp
      rw [unpackFrom, unpackFrom]
      simp only [hu]
      rw [unpackFrom_from fun a ha => h a (Nat.le_trans hle ha)]

theorem colValue_from (z : Lzf) (t : CType) (rflag : Nat) {d : Nat × Nat}
    (h : ∀ a, d.1 ≤ a → m a = m' a) : colValue z t rflag m' d = colValue z t rflag m d := by
  have hpeek {n k : Nat} (hn : d.1 ≤ n) : peek m' n k = peek m n k :=
    peek_congr fun i hi _ => (h i (Nat.le_trans hn hi)).symm
  have hsix : unpackSixBit m' d.1 d.2 = unpackSixBit m d.1 d.2 := by
    unfold unpackSixBit
    rw [unpackFrom_from h]
  have hlzf : streamLZFTextToString z m' d.1 d.2 = streamLZFTextToString z m d.1 d.2 := by
    unfold streamLZFTextToString
    simp only [sI2I_from h, hpeek (Nat.le_add_right _ _)]
  unfold colValue
  simp only [sI2I_from h, hpeek le_rfl, hsix, hlzf]

/-- The header of a hash row is read in front of the pointer. -/
theorem getRowPayload_congr (hf : (m 0).toNat &&& 96 ≠ 0)
    (h : ∀ a, a < getHashFromRow m + 16 → m a = m' a) :
    getRowPayload m' = getRowPayload m ∧ getHashFromRow m' = getHashFromRow m := by
  unfold getHashFromRow at h
  simp only at h
  have h0 : m' 0 = m 0 := (h 0 (by omega)).symm
  have h1 : sI2I m' 1 true = sI2I m 1 true := sI2I_congr fun a _ ha => h a (by omega)
  have h2 : sI2I m' (1 + (sI2I m 1 true).2) true = sI2I m (1 + (sI2I m 1 true).2) true :=
    sI2I_congr fun a _ ha => h a (by omega)
  have hn : Ahash.nentriesAt m' (1 + (sI2I m 1 true).2 + (sI2I m (1 + (sI2I m 1 true).2) true).2) =
      Ahash.nentriesAt m (1 + (sI2I m 1 true).2 + (sI2I m (1 + (sI2I m 1 true).2) true).2) := by
    unfold Ahash.nentriesAt
    rw [← peek_congr fun i _ hi => h i (by omega)]
  constructor
  · unfold getRowPayload
    simp only [h0, if_pos hf, h1, h2, hn]
  · unfold getHashFromRow
    simp only [h1, h2]

/-! ## A hash row, wherever it stands -/

/-- Bytes that are a hash row with a table at `o`: the pointer in it is null, and the columns come
behind the pointer. -/
structure IsHashRow (row : Nat → UInt8) (o : Nat) : Prop where
  flag : (row 0).toNat &&& 96 ≠ 0
  narrow : (row 0).toNat &&& 64 = 0 → (row 0).toNat &&& 32 ≠ 0 ∧ (getRowPayload row).ncols < 65536
  table : getHashFromRow row = o
  null : entriesPtr row o = 0
  behind : o + 24 ≤ (getRowPayload row).row

/-- The row stands at `b`, with a pointer that is null or leads to its own entries. -/
structure Home (row : Nat → UInt8) (o : Nat) (m : Nat → UInt8) (b : Nat) : Prop where
  outside : ∀ i, i < o + 16 ∨ o + 24 ≤ i → row i = view m b i
  ptr : entriesPtr m (b + o) = 0 ∨ entriesPtr m (b + o) = b + o + 24

/-- A read of a column looks into the table. -/
def Searches (row : Nat → UInt8) (c : Nat) : Prop := c ≠ 0 ∧ c ≤ (getRowPayload row).ncols

variable {row : Nat → UInt8} {c : Nat}

theorem Home.payload (h : Home row o m b) (hr : IsHashRow row o) :
    getRowPayload (view m b) = getRowPayload row ∧ getHashFromRow (view m b) = o := by
  obtain ⟨h1, h2⟩ := getRowPayload_congr hr.flag fun a ha =>
    h.outside a (.inl (by rw [hr.table] at ha; exact ha))
  exact ⟨h1, h2.trans hr.table⟩

theorem entriesPtr_poke (m : Nat → UInt8) (o : Nat) {p : Nat} (hp : p < 18446744073709551616) :
    entriesPtr (poke m (o + 16) (le 8 p)) o = p :=
  ofLe_peek (stands_poke m (o + 16) (le 8 p)) hp

theorem poke_outside (m : Nat → UInt8) (o a p : Nat) (h : a < o + 16 ∨ o + 24 ≤ a) :
    poke m (o + 16) (le 8 p) a = m a := by
  unfold poke
  split
  · rfl
  · rename_i hge
    rw [List.getElem?_eq_none (by rw [length_le]; omega)]
    rfl

/-- The pointer is set once, and only the pointer. -/
theorem simulateEntries_home (h : Home row o m b) (hb : b + o + 24 < 18446744073709551616) :
    Home row o (simulateEntries m (b + o)) b ∧
      entriesPtr (simulateEntries m (b + o)) (b + o) = b + o + 24 := by
  unfold simulateEntries
  split
  · have hptr := entriesPtr_poke m (b + o) hb
    refine ⟨⟨fun i hi => ?_, .inr hptr⟩, hptr⟩
    rw [view, poke_outside _ _ _ _ (by omega)]
    exact h.outside i hi
  · rename_i hne
    exact ⟨h, h.ptr.resolve_left hne⟩

/-- The search finds what it would find in the row itself. -/
theorem alcHashFetch_home (h : Home row o m b) (hb : b + o + 24 < 18446744073709551616)
    (w : Width) (k : Nat) :
    (alcHashFetch w m (b + o) k).1 =
      Ahash.fetch (Ahash.nentriesAt row o) (Ahash.entriesAt w row o) k := by
  obtain ⟨h', hp⟩ := simulateEntries_home h hb
  have hn : Ahash.nentriesAt (simulateEntries m (b + o)) (b + o) = Ahash.nentriesAt row o := by
    unfold Ahash.nentriesAt
    rw [Nat.add_assoc b o 4, ← peek_add_right]
    exact congrArg ofLe (peek_congr fun i _ hi => (h'.outside i (.inl (by omega))).symm)
  have hread {a n : Nat} (ha : o + 24 ≤ a) :
      peek (simulateEntries m (b + o)) (b + a) n = peek row a n := by
    rw [← peek_add_right]
    exact peek_congr fun i hi _ => (h'.outside i (.inr (Nat.le_trans ha hi))).symm
  have he : entriesIn w (simulateEntries m (b + o)) (b + o + 24) = Ahash.entriesAt w row o := by
    funext i
    have e (x : Nat) : b + o + 24 + i * w.entry + x = b + (o + 24 + i * w.entry + x) := by omega
    have e0 : b + o + 24 + i * w.entry = b + (o + 24 + i * w.entry) := by omega
    simp only [entriesIn, Ahash.entriesAt]
    rw [show b + o + 24 + i * w.entry + w.count + w.key =
        b + (o + 24 + i * w.entry + w.count + w.key) by omega, e w.count, e0,
      hread (by omega), hread (by omega), hread (by omega)]
  unfold alcHashFetch
  split
  · rename_i hk
    rw [hk]
    rfl
  · rw [hn, hp, he]

theorem getRowPayload_flag (m : Nat → UInt8) : (getRowPayload m).rflag = (m 0).toNat := by
  unfold getRowPayload
  simp only
  split <;> rfl

theorem alcHashFetch_snd (w : Width) (m : Nat → UInt8) (o : Nat) {k : Nat} (hk : k ≠ 0) :
    (alcHashFetch w m o k).2 = simulateEntries m o := by
  rw [alcHashFetch, if_neg hk]

/-- A read finds what it would find in the row itself, and sets the pointer if it searches. -/
theorem getColData_home (h : Home row o m b) (hr : IsHashRow row o)
    (hb : b + o + 24 < 18446744073709551616) (hc : c ≠ 0) :
    (getColData m b c).1 = Format.getColData row c ∧ (getColData m b c).2 =
      if c > (getRowPayload row).ncols then m else simulateEntries m (b + o) := by
  obtain ⟨hp, ho⟩ := h.payload hr
  have hflag := getRowPayload_flag row
  unfold getColData Format.getColData
  simp only [hp, ho, hr.table, alcHashFetch_home h hb]
  by_cases hn : c > (getRowPayload row).ncols
  · simp only [if_pos hn, and_self]
  · simp only [if_neg hn]
    by_cases h64 : (getRowPayload row).rflag &&& 64 ≠ 0
    · simp only [if_pos h64, alcHashFetch_snd hash32 m (b + o) hc, and_self]
    · obtain ⟨h32, hlt⟩ := hr.narrow (by rw [← hflag]; exact not_not.1 h64)
      rw [← hflag] at h32
      have hc16 : c % 65536 ≠ 0 := by omega
      simp only [if_neg h64, if_pos h32, alcHashFetch_snd hash16 m (b + o) hc16, and_self]

/-- The row stays at home under any reads. -/
theorem Home.read (h : Home row o m b) (hr : IsHashRow row o)
    (hb : b + o + 24 < 18446744073709551616) (hc : c ≠ 0) : Home row o (getColData m b c).2 b := by
  rw [(getColData_home h hr hb hc).2]
  split
  · exact h
  · exact (simulateEntries_home h hb).1

theorem Home.reads {cs : List Nat} (h : Home row o m b) (hr : IsHashRow row o)
    (hb : b + o + 24 < 18446744073709551616) : Home row o (reads m b cs) b := by
  induction cs generalizing m with
  | nil => exact h
  | cons c cs ih =>
    refine ih ?_
    split
    · exact h
    · rename_i hc
      exact h.read hr hb hc

theorem getColData_ge (row : Nat → UInt8) (c : Nat) :
    (getRowPayload row).row ≤ (Format.getColData row c).1 := by
  unfold Format.getColData
  simp only
  split_ifs <;> simp

/-- The value is the one in the row itself. -/
theorem getRawCol_home (h : Home row o m b) (hr : IsHashRow row o)
    (hb : b + o + 24 < 18446744073709551616) (hc : c ≠ 0) (z : Lzf) (t : CType) :
    getRawCol z t m b c = Format.getRawCol z t row c := by
  have hd := (getColData_home h hr hb hc).1
  have hhome := h.read hr hb hc
  have hval : Format.getRawCol z t row c =
      colValue z t (getRowPayload row).rflag row (Format.getColData row c) := rfl
  unfold getRawCol
  rw [hval, hd, (h.payload hr).1]
  refine colValue_from z t _ fun a ha => hhome.outside a (.inr ?_)
  exact Nat.le_trans hr.behind (Nat.le_trans (getColData_ge row c) ha)

/-! ## What the reads leave -/

/-- Once the pointer is set it stays. -/
theorem reads_bound {cs : List Nat} (h : Home row o m b) (hr : IsHashRow row o)
    (hb : b + o + 24 < 18446744073709551616) (hp : entriesPtr m (b + o) = b + o + 24) :
    Relocation.reads m b cs = m := by
  have hsim : simulateEntries m (b + o) = m := by
    rw [simulateEntries, if_neg (by omega)]
  induction cs with
  | nil => rfl
  | cons c cs ih =>
    rw [Relocation.reads]
    split
    · exact ih
    · rename_i hc
      rw [(getColData_home h hr hb hc).2, hsim, ite_self]
      exact ih

/-- The pointer is set by the first read that searches, and by no other. -/
theorem entriesPtr_reads (h : Home row o m b) (hr : IsHashRow row o)
    (hb : b + o + 24 < 18446744073709551616) (cs : List Nat) :
    (∀ c ∈ cs, ¬ Searches row c) ∧ Relocation.reads m b cs = m ∨
      (∃ c ∈ cs, Searches row c) ∧ entriesPtr (Relocation.reads m b cs) (b + o) = b + o + 24 := by
  induction cs with
  | nil => exact .inl ⟨fun c hc => absurd hc List.not_mem_nil, rfl⟩
  | cons c cs ih =>
    rw [Relocation.reads]
    by_cases hs : Searches row c
    · refine .inr ⟨⟨c, List.mem_cons_self, hs⟩, ?_⟩
      obtain ⟨h', hp'⟩ := simulateEntries_home h hb
      rw [if_neg hs.1, (getColData_home h hr hb hs.1).2, if_neg (Nat.not_lt.2 hs.2),
        reads_bound h' hr hb hp']
      exact hp'
    · have hsame : (if c = 0 then m else (getColData m b c).2) = m := by
        split
        · rfl
        · rename_i hc
          rw [(getColData_home h hr hb hc).2, if_pos (Nat.not_le.1 fun hle => hs ⟨hc, hle⟩)]
      rw [hsame]
      rcases ih with ⟨hno, heq⟩ | ⟨⟨d, hd, hsd⟩, heq⟩
      · exact .inl ⟨List.forall_mem_cons.2 ⟨hs, hno⟩, heq⟩
      · exact .inr ⟨⟨d, List.mem_cons_of_mem c hd, hsd⟩, heq⟩

/-! ## Rows of a table -/

section Rows

variable {z : Lzf} {fields : List Field} {zt : Czip} {cr : Cr} {bytes : List UInt8} {f : Nat}
  {w : Width} {ht : Ahash}

/-- A hash row of a table, as it was written. -/
structure Written (z : Lzf) (fields : List Field) (zt : Czip) (cr : Cr) (bytes : List UInt8) :
    Prop where
  kept : Kept z fields zt cr
  written : writeCols cr zt = some bytes
  hash : ∃ h, createHashRow cr (assignRflag cr.rlen zt) = some (some h)

theorem Written.isHashRow (hw : Written z fields zt cr bytes) (mem : Nat → UInt8) :
    IsHashRow (follow bytes mem) (tableAt cr) ∧
      (getRowPayload (follow bytes mem)).ncols = cr.cols.length ∧ tableAt cr + 24 ≤ bytes.length := by
  obtain ⟨hk, hwr, h, hch⟩ := hw
  rcases createHashRow_cases hk.laid (assignRflag cr.rlen zt) with hn | ⟨use16, ht, hch', hc⟩
  · rw [hn] at hch
    cases hch
  · have hhead : rowHead cr zt = some
        (hashHead cr (hashFlag (assignRflag cr.rlen zt) use16) (widthOf use16) ht,
          hashMalloc cr (widthOf use16) ht) := by
      simp only [rowHead, hch', Option.map_some]
    obtain ⟨h', hh', hle⟩ := hk.room.fits
    rw [hhead] at hh'
    cases hh'
    have hlt := block_lt hhead
    dsimp only at hle hlt
    rw [length_hashHead] at hle
    have hrl : cr.rlen = total cr.cols := by rw [hk.laid.rlen, u32_of_lt (by omega)]
    obtain ⟨h'', hh'', rfl, -⟩ := writeCols_eq_some.1 hwr
    rw [hhead] at hh''
    cases hh''
    have hf := hashFlagOk cr.rlen zt use16
    have hst := (stands_append.1 (stands_follow
      (hashHead cr (hashFlag (assignRflag cr.rlen zt) use16) (widthOf use16) ht ++
        cr.cols.flatMap (·.data.bytes)) mem)).1
    obtain ⟨hp, hat, htab⟩ := hash_payload hf hc hst (by omega) hk.count
    have hflag := getRowPayload_flag (follow
      (hashHead cr (hashFlag (assignRflag cr.rlen zt) use16) (widthOf use16) ht ++
        cr.cols.flatMap (·.data.bytes)) mem)
    rw [hp] at hflag
    dsimp only at hflag
    refine ⟨⟨?_, ?_, hat, ?_, ?_⟩, ?_, ?_⟩
    · rw [← hflag]
      exact hf.hash
    · rw [← hflag, hp]
      intro h64
      obtain rfl : use16 = true := by
        cases use16 with
        | true => rfl
        | false => exact absurd h64 (hf.wide.2 rfl)
      have := (hc.narrow rfl).2
      exact ⟨hf.narrow rfl, show cr.cols.length < 65536 by simp only [Cr.ncols] at this; omega⟩
    · -- the four bytes of padding and the pointer are zero
      unfold Ahash.bytes at htab
      simp only [stands_append, List.length_append, length_le] at htab
      have hz := htab.1.2
      rw [show le 12 0 = le 4 0 ++ le 8 0 from rfl, stands_append, length_le] at hz
      exact ofLe_peek hz.2 (by decide)
    · rw [hp]
      unfold hashLen
      dsimp only
      omega
    · rw [hp]
    · rw [List.length_append, length_hashHead]
      unfold hashLen
      omega

/-- Memory in which bytes stand, seen from them. -/
theorem view_of_stands (h : Stands m b bytes) :
    view m b = follow bytes fun i => m (b + (bytes.length + i)) := by
  funext i
  rw [follow_eq, view]
  rcases Nat.lt_or_ge i bytes.length with hi | hi
  · have hsplit : peek m b bytes.length = bytes := h
    have hat : (peek m b bytes.length)[i]? = some (m (b + i)) := by
      have hadd := peek_add m b i (bytes.length - i)
      rw [show i + (bytes.length - i) = bytes.length by omega] at hadd
      rw [hadd, List.getElem?_append_right (by rw [length_peek]), length_peek, Nat.sub_self]
      obtain ⟨n, hn⟩ := Nat.exists_eq_succ_of_ne_zero (show bytes.length - i ≠ 0 by omega)
      rw [hn, peek]
      rfl
    rw [hsplit] at hat
    rw [hat]
    rfl
  · rw [List.getElem?_eq_none hi, show bytes.length + (i - bytes.length) = i by omega]
    rfl

/-- A row that was just written, or copied as it was written, is at home. -/
theorem Written.home (hw : Written z fields zt cr bytes) (hs : Stands m b bytes) :
    Home (view m b) (tableAt cr) m b ∧ IsHashRow (view m b) (tableAt cr) ∧
      entriesPtr m (b + tableAt cr) = 0 := by
  obtain ⟨hr, -, -⟩ := hw.isHashRow fun i => m (b + (bytes.length + i))
  rw [← view_of_stands hs] at hr
  have hnull : entriesPtr m (b + tableAt cr) = 0 := by
    have h0 := hr.null
    unfold entriesPtr at h0 ⊢
    unfold view at h0
    rw [peek_add_right] at h0
    rwa [Nat.add_assoc]
  exact ⟨⟨fun _ _ => rfl, .inl hnull⟩, hr, hnull⟩

/-- The row reads as its columns, whatever was read before. -/
theorem Written.reads (hz : Lossless z) (hw : Written z fields zt cr bytes) (hs : Stands m b bytes)
    (hb : b + bytes.length < 18446744073709551616) (cs : List Nat) {i : Nat} (hi : i < fields.length) :
    getRawCol z fields[i].ctype (Relocation.reads m b cs) b (i + 1) = fields[i].value := by
  obtain ⟨-, -, hlen⟩ := hw.isHashRow fun i => m (b + (bytes.length + i))
  obtain ⟨hh, hr, -⟩ := hw.home hs
  have hb : b + tableAt cr + 24 < 18446744073709551616 := by omega
  rw [getRawCol_home (hh.reads hr hb) hr hb (Nat.succ_ne_zero i), view_of_stands hs]
  exact hw.kept.reads hz hw.written _ hi

/-- Reads leave a row as it was, and a copy of it, anywhere in any memory, reads as the row itself. -/
def Relocatable (z : Lzf) (fields : List Field) (bytes : List UInt8) (m : Nat → UInt8) (b : Nat)
    (cs : List Nat) : Prop :=
  Stands (Relocation.reads m b cs) b bytes ∧
    ∀ m' b', peek m' b' bytes.length = peek (Relocation.reads m b cs) b bytes.length →
      b' + bytes.length < 18446744073709551616 →
      ∀ cs' i (hi : i < fields.length),
        getRawCol z fields[i].ctype (Relocation.reads m' b' cs') b' (i + 1) =
          getRawCol z fields[i].ctype (Relocation.reads m b cs) b (i + 1)

/-- A hash row can be moved just as long as no read has looked into its table: every column that the
row has, stored or not, is looked up there. -/
theorem relocatable_iff (hz : Lossless z) (hw : Written z fields zt cr bytes) (hs : Stands m b bytes)
    (hb : b + bytes.length < 18446744073709551616) (cs : List Nat) :
    Relocatable z fields bytes m b cs ↔ ∀ c ∈ cs, c = 0 ∨ cr.cols.length < c := by
  obtain ⟨-, hn, hlen⟩ := hw.isHashRow fun i => m (b + (bytes.length + i))
  obtain ⟨hh, hr, hnull⟩ := hw.home hs
  rw [← view_of_stands hs] at hn
  have hb' : b + tableAt cr + 24 < 18446744073709551616 := by omega
  have hsearch (c : Nat) : ¬ Searches (view m b) c ↔ c = 0 ∨ cr.cols.length < c := by
    unfold Searches
    rw [hn]
    omega
  rcases entriesPtr_reads hh hr hb' cs with ⟨hno, hsame⟩ | ⟨⟨c, hc, hcs⟩, hptr⟩
  · refine iff_of_true ⟨?_, fun m' b' hcopy hb2 cs' i hi => ?_⟩ fun c hc => (hsearch c).1 (hno c hc)
    · rw [hsame]
      exact hs
    · rw [hsame] at hcopy
      have hs' : Stands m' b' bytes := hcopy.trans hs
      rw [hw.reads hz hs' hb2 cs' hi, hw.reads hz hs hb cs hi]
  · refine iff_of_false (fun hrel => ?_) fun hall => (hsearch c).2 (hall c hc) hcs
    -- where the row still stood the pointer would be null
    have hnull' := (hw.home hrel.1).2.2
    omega

theorem fits_hash (hch : createHashRow cr (assignRflag cr.rlen zt) = some (some (f, w, ht)))
    (hle : (hashHead cr f w ht).length + total cr.cols ≤ hashMalloc cr w ht) : Fits cr zt := by
  have hhead : rowHead cr zt = some (hashHead cr f w ht, hashMalloc cr w ht) := by
    simp only [rowHead, hch, Option.map_some]
  exact ⟨_, hhead, hle⟩

/-- A row of 120 columns of which the last is filled. -/
def lateBytes : List UInt8 := (writeCols (createRow (lateColumn 119)) .none).getD []

theorem lateBytes_written :
    Written longLzf (lateColumn 119) .none (createRow (lateColumn 119)) lateBytes := by
  have hchosen : (createHashRow (createRow (lateColumn 119))
      (assignRflag (createRow (lateColumn 119)).rlen .none)).map Option.isSome = some true := by
    decide +kernel
  have hlaid := createRow_laid (lateColumn 119)
  have hexact := lateColumn_exact 119
  rcases createHashRow_cases hlaid (assignRflag (createRow (lateColumn 119)).rlen .none) with
    hn | ⟨use16, ht, hch, hc⟩
  · rw [hn] at hchosen
    cases hchosen
  · have hle := hash_room hlaid hexact (by decide +kernel) _ _ _ hch
    rw [hashRow, List.length_append, (total_le_written _).2.2 hexact] at hle
    have hroom : Room (createRow (lateColumn 119)) .none := by
      refine ⟨fits_hash hch hle, fun hno => ?_, fun f w ht' hch' => ?_⟩
      · rw [hno] at hch
        cases hch
      · rw [hch] at hch'
        cases hch'
        have hsize := hc.ok.size
        have hlen : (createRow (lateColumn 119)).cols.length = 120 := by decide +kernel
        refine ⟨fun i hi _ => ?_, by decide +kernel⟩
        have hdist := Ahash.dist_lt (k := (ht.entries i).key) hi
        have hcount : 256 ≤ 256 ^ (widthOf use16).count := by cases use16 <;> decide
        omega
    have hk : Kept longLzf (lateColumn 119) .none (createRow (lateColumn 119)) := by
      refine kept_createRow longLzf_lossless (by decide +kernel) (fun f hf e => ?_)
        (show prepared false _ _ = _ from rfl) hroom fun _ _ => trivial
      exact lateColumn_int f (mem_stored hf) (by rw [e]; rfl)
    obtain ⟨bytes, hw⟩ := hk.written
    have hbytes : lateBytes = bytes := by
      unfold lateBytes
      rw [hw]
      rfl
    rw [hbytes]
    exact ⟨hk, hw, _, hch⟩

theorem stands_lateBytes (b : Nat) : Stands (poke (fun _ => 0) b lateBytes) b lateBytes :=
  stands_poke _ b lateBytes

theorem relocatable_late :
    Relocatable longLzf (lateColumn 119) lateBytes (poke (fun _ => 0) 4096 lateBytes) 4096 [0] ↔
      ∀ c ∈ [0], c = 0 ∨ (createRow (lateColumn 119)).cols.length < c :=
  relocatable_iff longLzf_lossless lateBytes_written (stands_lateBytes 4096) (by decide +kernel) [0]

/-- What the row and a copy of it, elsewhere, read as once its last column was read. -/
theorem not_relocatable_late :
    let m := Relocation.reads (poke (fun _ => 0) 4096 lateBytes) 4096 [120]
    let m' := poke (fun _ => 0) 8192 (peek m 4096 lateBytes.length)
    getRawCol longLzf .int m 4096 120 = .int 7 ∧ getRawCol longLzf .int m' 8192 120 = .empty ∧
      ¬ Relocatable longLzf (lateColumn 119) lateBytes (poke (fun _ => 0) 4096 lateBytes) 4096
        [120] := by
  refine ⟨by decide +kernel, by decide +kernel, fun h => ?_⟩
  have hbytes : peek (Relocation.reads (poke (fun _ => 0) 4096 lateBytes) 4096 [120]) 4096
    lateBytes.length = lateBytes := h.1
  exact absurd hbytes (by decide +kernel)

end Rows

end AlchemyDB.Format.Relocation
