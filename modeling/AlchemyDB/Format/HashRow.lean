/-
# Hash rows — what the reader finds

The table of a hash row is built in memory, copied into the row and searched there.
A filled column has the numbers of its beginning and its end packed into one; a column
that is not in the table is empty.
-/
import AlchemyDB.Format.Probing
import AlchemyDB.Format.RoundTrip
import Mathlib.Data.List.Find

namespace AlchemyDB.Format

open Bytes Row Store

/-! ## The table in memory -/

namespace Ahash

variable {w : Width} {K : Nat} {ht : Ahash} {m : Nat → UInt8} {o : Nat}

theorem length_entryBytes (w : Width) (e : Entry) : (entryBytes w e).length = w.entry := by
  simp only [entryBytes, List.length_append, length_le, Width.entry]

theorem length_bytes (w : Width) (ht : Ahash) : (ht.bytes w).length = ht.nentries * w.entry + 24 := by
  have ht' := length_table (fun i => length_entryBytes w (ht.entries i)) (List.range ht.nentries)
  rw [List.length_range] at ht'
  simp only [bytes, List.length_append, length_le, ht']
  omega

/-- The table that stands in a row is the table that was built. -/
theorem read_table (h : Ok w K ht) (hn : ht.nentries < 4294967296) (hk : K < 256 ^ w.key)
    (hs : Stands m o (ht.bytes w)) :
    nentriesAt m o = ht.nentries ∧ ∀ i < ht.nentries, entriesAt w m o i = ht.entries i := by
  unfold bytes at hs
  simp only [stands_append, List.length_append, length_le] at hs
  obtain ⟨⟨⟨⟨-, h1⟩, -⟩, -⟩, h2⟩ := hs
  refine ⟨ofLe_peek h1 hn, fun i hi => ?_⟩
  have ht' := stands_table (fun i => length_entryBytes w (ht.entries i)) h2 (i := i)
    (by simpa using hi)
  rw [List.getElem_range] at ht'
  simp only [entryBytes, stands_append, List.length_append, length_le] at ht'
  obtain ⟨⟨hc, hkey⟩, hv⟩ := ht'
  have ha : o + 24 + i * w.entry = o + (4 + 4 + 4 + 12) + i * w.entry := rfl
  simp only [entriesAt, ha]
  rw [ofLe_peek hc (h.byte i hi), ofLe_peek hkey (Nat.lt_of_le_of_lt (h.keys i hi) hk)]
  rw [show o + (4 + 4 + 4 + 12) + i * w.entry + w.count + w.key =
    o + (4 + 4 + 4 + 12) + i * w.entry + (w.count + w.key) by omega, ofLe_peek hv (h.vals i hi)]

/-- A search only looks at slots of the table. -/
theorem lookupEntry_congr (h : Ok w K ht) {es : Nat → Entry}
    (he : ∀ i < ht.nentries, es i = ht.entries i) (k : Nat) :
    lookupEntry ht.nentries es k = lookupEntry ht.nentries ht.entries k := by
  have hhome : k % ht.nentries < ht.nentries := Nat.mod_lt _ h.pos
  simp only [lookupEntry, he _ hhome]
  split
  · rfl
  · split
    · refine List.find?_congr fun i hi => ?_
      rw [he i (probes_lt h hhome hi)]
    · rfl

/-- What is fetched for a key that the table holds: its value, unless it is out of reach. -/
theorem fetch_held (h : Ok w K ht) {es : Nat → Entry} (he : ∀ i < ht.nentries, es i = ht.entries i)
    {k i : Nat} (hk : k ≠ 0) (hi : i < ht.nentries) (hkey : (ht.entries i).key = k) :
    fetch ht.nentries es k =
      if dist ht.nentries i k ≤ (ht.entries (k % ht.nentries)).nColijns then (ht.entries i).val
      else 0 := by
  unfold fetch
  rw [if_neg hk, lookupEntry_congr h he, lookupEntry_held h hk hi hkey]
  split
  · rename_i hr
    split at hr
    · rename_i hd
      cases hr
      rw [if_pos hd, he i hi]
    · cases hr
  · rename_i hr
    split at hr
    · cases hr
    · rename_i hd
      rw [if_neg hd]

theorem fetch_absent (h : Ok w K ht) {es : Nat → Entry}
    (he : ∀ i < ht.nentries, es i = ht.entries i) {k : Nat}
    (habs : ∀ i < ht.nentries, (ht.entries i).key ≠ k) : fetch ht.nentries es k = 0 := by
  unfold fetch
  rw [lookupEntry_congr h he, lookupEntry_absent h habs]
  exact ite_self 0

end Ahash

/-! ## Filling the table -/

open Ahash

/-- The table for narrow or wide offsets. -/
def widthOf (use16 : Bool) : Width := if use16 then hash16 else hash32

theorem hval_lt (use16 : Bool) (prev cur : Nat) : hval use16 prev cur < 256 ^ (widthOf use16).val := by
  cases use16 with
  | true =>
      have hlt : u32 (cur + prev * 65535) < 4294967296 := Nat.mod_lt _ (by decide)
      simpa [hval, widthOf, hash16] using hlt
  | false =>
      have hlt := Int.emod_lt_of_pos (int32 cur + int32 prev * 4294967295)
        (show (0 : Int) < 18446744073709551616 by decide)
      simp only [hval, widthOf, hash32, Bool.false_eq_true, if_false]
      norm_num
      omega

/-- A filled column of a row, laid out from `r` on and numbered from `i` on, with what the table
should hold for it. -/
def Packs (use16 : Bool) (r i : Nat) (cs : List Crd) (k v : Nat) : Prop :=
  ∃ j, ∃ h : j < cs.length, k = i + j ∧ cs[j].empty = false ∧
    v = hval use16 (u32 (r + total (cs.take j))) (u32 (r + total (cs.take (j + 1))))

theorem packs_cons {use16 : Bool} {r i : Nat} {c : Crd} {cs : List Crd} {k v : Nat} :
    Packs use16 r i (c :: cs) k v ↔
      (k = i ∧ c.empty = false ∧ v = hval use16 (u32 r) (u32 (r + colLen c))) ∨
        Packs use16 (r + colLen c) (i + 1) cs k v := by
  constructor
  · rintro ⟨j, h, hk, he, hv⟩
    cases j with
    | zero => exact .inl ⟨by omega, he, by simpa using hv⟩
    | succ j =>
        refine .inr ⟨j, by simpa using h, by omega, he, ?_⟩
        simpa [Nat.add_assoc] using hv
  · rintro (⟨hk, he, hv⟩ | ⟨j, h, hk, he, hv⟩)
    · exact ⟨0, by simp, by omega, he, by simpa using hv⟩
    · refine ⟨j + 1, by simpa using h, by omega, he, ?_⟩
      simpa [Nat.add_assoc] using hv

/-- The loop over the columns: the table ends with the filled columns. -/
theorem hashCols_spec {u : Bool} {K f : Nat} (hfuel : 0 < f) :
    ∀ (cs : List Crd) (i r : Nat) (ht : Ahash), Ok (widthOf u) K ht → LaidFrom r cs →
    i ≠ 0 → i + cs.length ≤ K + 1 → (∀ k v, Holds ht k v → k < i) → K + 2 ≤ ht.nentries + f →
    ∃ ht', hashCols (widthOf u) u f i (u32 r) cs ht = some ht' ∧
      Ok (widthOf u) K ht' ∧
      ∀ k v, k ≠ 0 → (Holds ht' k v ↔ Holds ht k v ∨ Packs u r i cs k v)
  | [], i, r, ht, hok, _, _, _, _, _ => by
      refine ⟨ht, rfl, hok, fun k v _ => ⟨.inl, fun h => h.resolve_right ?_⟩⟩
      rintro ⟨j, h, -⟩
      exact absurd h (by simp)
  | c :: cs, i, r, ht, hok, hl, hi, hK, hlt, hf => by
      rw [List.length_cons] at hK
      rw [hashCols, hl.1]
      by_cases he : c.empty = true
      · rw [if_pos he]
        obtain ⟨ht', hh, hok', hholds⟩ := hashCols_spec hfuel cs (i + 1) (r + colLen c) ht hok hl.2
          (by omega) (by omega) (fun k v hk => Nat.lt_succ_of_lt (hlt k v hk)) hf
        refine ⟨ht', hh, hok', fun k v hk => ?_⟩
        rw [hholds k v hk, packs_cons]
        simp [he]
      · rw [if_neg he]
        have habs : ∀ j < ht.nentries, (ht.entries j).key ≠ i := fun j hj hji =>
          absurd (hlt i _ ⟨j, hj, hji, rfl⟩) (by omega)
        obtain ⟨ht₁, hins, hin⟩ := insert_spec f i (hval u (u32 r) (u32 (r + colLen c))) 0 ht
          hok hi (by omega) (hval_lt _ _ _) habs hf hfuel
        have hlt₁ : ∀ k v, Holds ht₁ k v → k < i + 1 := by
          intro k v hk
          by_cases hk0 : k = 0
          · omega
          · rcases (hin.holds k v hk0).1 hk with h | h
            · exact Nat.lt_succ_of_lt (hlt k v h)
            · omega
        obtain ⟨ht', hh, hok', hholds⟩ := hashCols_spec hfuel cs (i + 1) (r + colLen c) ht₁ hin.ok
          hl.2 (by omega) (by omega) hlt₁ (by have := hin.grows; omega)
        refine ⟨ht', by rw [hins]; exact hh, hok', fun k v hk => ?_⟩
        rw [hholds k v hk, hin.holds k v hk, packs_cons, or_assoc]
        simp [he]

/-! ## The row -/

/-- The table that was chosen for a row. -/
structure Chosen (cr : Cr) (rflag : Nat) (use16 : Bool) (ht : Ahash) : Prop where
  ok : Ok (widthOf use16) cr.cols.length ht
  holds : ∀ k v, k ≠ 0 → (Holds ht k v ↔ Packs use16 0 1 cr.cols k v)
  narrow : use16 = true → rflag &&& 4 = 0 ∧ cr.ncols < 65535

/-- The flag of a hash row. -/
def hashFlag (rflag : Nat) (use16 : Bool) : Nat := rflag ||| (if use16 then 32 else 64)

/-- A hash row is not chosen, or chosen with a table of the filled columns. -/
theorem createHashRow_cases {cr : Cr} (hl : Laid cr) (rflag : Nat) :
    createHashRow cr rflag = some none ∨ ∃ use16 ht,
      createHashRow cr rflag = some (some (hashFlag rflag use16, widthOf use16, ht)) ∧
        Chosen cr rflag use16 ht := by
  unfold createHashRow
  split
  · exact .inl rfl
  · generalize hu : (decide (rflag &&& 4 = 0) && decide (cr.ncols < 65535)) = use16
    obtain ⟨ht, hh, hok, hholds⟩ := hashCols_spec (u := use16) (K := cr.cols.length)
      (f := cr.ncols + 2) (by omega) cr.cols 1 0 (Ahash.make 2)
      (ok_empty (by decide) (by simp)) hl.cols (by decide) (by omega)
      (fun k v ⟨i, _, hi, _⟩ => by subst hi; exact Nat.zero_lt_one)
      (by simp only [Cr.ncols, Ahash.make]; omega)
    have hmake : ∀ k v, k ≠ 0 → ¬ Holds (Ahash.make 2) k v := fun k v hk ⟨i, _, hi, _⟩ => hk hi.symm
    have hchosen : Chosen cr rflag use16 ht := by
      refine ⟨hok, fun k v hk => ?_, fun hn => ?_⟩
      · rw [hholds k v hk]
        exact ⟨fun e => e.resolve_left (hmake k v hk), .inr⟩
      · rw [hn, Bool.and_eq_true, decide_eq_true_eq, decide_eq_true_eq] at hu
        exact hu
    have h0 : hashCols (if use16 = true then hash16 else hash32) use16 (cr.ncols + 2) 1 0 cr.cols
        (Ahash.make 2) = some ht := hh
    simp only [h0, Option.map_some, Option.some_inj]
    by_cases hz : 5 * u32 (cr.ncols * (rflag &&& 7)) > 6 * Ahash.size (widthOf use16) ht.nentries
    · exact .inr ⟨use16, ht, if_pos hz, hchosen⟩
    · exact .inl (if_neg hz)

/-- The bits of the flag of a hash row. -/
structure HashFlagOk (f : Nat) (use16 : Bool) : Prop where
  byte : f < 256
  hash : f &&& 96 ≠ 0
  wide : f &&& 64 ≠ 0 ↔ use16 = false
  narrow : use16 = true → f &&& 32 ≠ 0

theorem hashFlagOk (rlen : Nat) (zt : Czip) (use16 : Bool) :
    HashFlagOk (hashFlag (assignRflag rlen zt) use16) use16 := by
  unfold assignRflag
  by_cases h1 : rlen < 255
  · rw [if_pos h1]
    cases zt <;> cases use16 <;> constructor <;> decide
  · by_cases h2 : rlen < 65535
    · rw [if_neg h1, if_pos h2]
      cases zt <;> cases use16 <;> constructor <;> decide
    · rw [if_neg h1, if_neg h2]
      cases zt <;> cases use16 <;> constructor <;> decide

/-- Where the table of a hash row begins. -/
def tableAt (cr : Cr) : Nat := 1 + getCSize cr.rlen true + getCSize cr.cols.length true

/-- The length of the header of a hash row. -/
def hashLen (cr : Cr) (use16 : Bool) (ht : Ahash) : Nat :=
  tableAt cr + (ht.nentries * (widthOf use16).entry + 24)

theorem length_hashHead (cr : Cr) (f : Nat) (use16 : Bool) (ht : Ahash) :
    (hashHead cr f (widthOf use16) ht).length = hashLen cr use16 ht := by
  simp only [hashHead, List.length_append, List.length_cons, length_numBytes, length_bytes, hashLen,
    tableAt, Cr.ncols, Nat.add_sub_cancel]
  omega

section Reading

variable {m : Nat → UInt8} {cr : Cr} {rflag : Nat} {use16 : Bool} {ht : Ahash}

/-- The header of a hash row that stands in memory. -/
theorem hash_payload {f : Nat} (hf : HashFlagOk rflag use16) (hc : Chosen cr f use16 ht)
    (hs : Stands m 0 (hashHead cr rflag (widthOf use16) ht))
    (hlen : hashLen cr use16 ht + cr.rlen < 4294967296) (hn : cr.cols.length < 4294967296) :
    getRowPayload m = ⟨rflag, cr.cols.length, hashLen cr use16 ht + cr.rlen, hashLen cr use16 ht⟩ ∧
      getHashFromRow m = tableAt cr ∧ Stands m (tableAt cr) (ht.bytes (widthOf use16)) := by
  have hrc : cr.ncols - 1 = cr.cols.length := rfl
  have hsize : ht.nentries * (widthOf use16).entry + 24 < 4294967296 := by
    unfold hashLen at hlen
    omega
  have hent : 0 < (widthOf use16).entry := by cases use16 <;> decide
  have hnent : ht.nentries < 4294967296 := by
    have := Nat.le_mul_of_pos_right ht.nentries hent
    omega
  unfold hashHead at hs
  simp only [stands_append, stands_cons, List.length_append, length_numBytes, List.cons_append,
    hrc, Nat.zero_add] at hs
  obtain ⟨h0, ⟨h1, h2⟩, h3⟩ := hs
  have e1 : sI2I m 1 true = (cr.rlen, getCSize cr.rlen true) := sI2I_numBytes (by simp [limit]; omega) h1
  have e2 : sI2I m (1 + getCSize cr.rlen true) true =
      (cr.cols.length, getCSize cr.cols.length true) := sI2I_numBytes hn h2
  rw [show 1 + (getCSize cr.rlen true + getCSize cr.cols.length true) = tableAt cr by
    unfold tableAt; omega] at h3
  have hflag : (m 0).toNat = rflag := by rw [h0, UInt8.toNat_ofNat', Nat.mod_eq_of_lt hf.byte]
  have hget : getHashFromRow m = tableAt cr := by
    simp only [getHashFromRow, e1, e2, tableAt]
  have hw : (if rflag &&& 64 ≠ 0 then hash32 else hash16) = widthOf use16 := by
    cases use16 with
    | true => rw [if_neg (fun e => by simpa using hf.wide.1 e)]; rfl
    | false => rw [if_pos (hf.wide.2 rfl)]; rfl
  have hkey : cr.cols.length < 256 ^ (widthOf use16).key := by
    cases use16 with
    | true =>
        have := (hc.narrow rfl).2
        simp only [Cr.ncols] at this
        simp only [widthOf, hash16, if_true]
        omega
    | false => exact hn
  obtain ⟨hnt, -⟩ := read_table hc.ok hnent hkey h3
  refine ⟨?_, hget, h3⟩
  simp only [getRowPayload, hflag, hf.hash, ne_eq, not_false_eq_true, if_true, e1, e2]
  rw [show 1 + getCSize cr.rlen true + getCSize cr.cols.length true = tableAt cr from rfl, hnt]
  have hw' : (if ¬ rflag &&& 64 = 0 then hash32 else hash16) = widthOf use16 := hw
  rw [hw', Ahash.size, Nat.mod_eq_of_lt hsize, ← hashLen, u32_of_lt hn,
    u32_of_lt (n := cr.rlen) (by omega), u32_of_lt (by omega), Nat.add_comm cr.rlen]

/-- The beginning and the end of a column in a number of 32 bits. -/
theorem hval16 {p c : Nat} (hpc : p ≤ c) (hc : c < 65535) :
    hval true p c / 65535 % 65536 = p ∧ hval true p c % 65535 = c := by
  have h : hval true p c = c + p * 65535 := by
    simp only [hval, if_true]
    exact u32_of_lt (by omega)
  rw [h]
  omega

/-- The beginning and the end of a column in a `long`. -/
theorem hval32 {p c : Nat} (hpc : p ≤ c) (hc : c < 2147483648) :
    ((Index.wrap64 (hval false p c)).tdiv 4294967295 % 4294967296).toNat = p ∧
      ((Index.wrap64 (hval false p c)).tmod 4294967295 % 4294967296).toNat = c := by
  have hi (n : Nat) (hn : n < 2147483648) : int32 n = n := by
    simp only [int32]
    omega
  have h : Index.wrap64 (hval false p c) = (c : Int) + p * 4294967295 := by
    simp only [hval, Bool.false_eq_true, if_false, hi c hc, hi p (by omega), Index.wrap64]
    omega
  obtain ⟨hd, hm⟩ := tdiv_tmod_of_nonneg (z := (c : Int) + p * 4294967295) (k := p) (r := c)
    (by simp only [Index.uintMax]; omega) (by omega) (by omega) (by simp only [Index.uintMax]; omega)
  simp only [Index.uintMax] at hd hm
  rw [h, hd, hm]
  omega

/-- What a hash row says of a column: the number that the table gives for it, taken apart. -/
def unpack (use16 : Bool) (val : Nat) : Nat × Nat :=
  if use16 then (val / 65535 % 65536, val % 65535)
  else (((Index.wrap64 val).tdiv 4294967295 % 4294967296).toNat,
    ((Index.wrap64 val).tmod 4294967295 % 4294967296).toNat)

/-- The lengths of rows that a hash row can hold. -/
def hashLimit (use16 : Bool) : Nat := if use16 then 65535 else 2147483648

theorem unpack_hval {p c : Nat} (hpc : p ≤ c) (hc : c < hashLimit use16) :
    unpack use16 (hval use16 p c) = (p, c) := by
  cases use16 with
  | true =>
      obtain ⟨h1, h2⟩ := hval16 hpc hc
      simp only [unpack, if_true, h1, h2]
  | false =>
      obtain ⟨h1, h2⟩ := hval32 hpc hc
      simp only [unpack, Bool.false_eq_true, if_false, h1, h2]

theorem unpack_zero (use16 : Bool) : unpack use16 0 = (0, 0) := by
  cases use16 <;> decide

/-- The key of a column is where a search gets to. -/
def Reached (ht : Ahash) (k : Nat) : Prop :=
  ∃ s < ht.nentries, (ht.entries s).key = k ∧
    dist ht.nentries s k ≤ (ht.entries (k % ht.nentries)).nColijns

/-- A column of a hash row, by the number in the table. -/
theorem hash_getColData {f : Nat} (hf : HashFlagOk rflag use16) (hc : Chosen cr f use16 ht)
    (hs : Stands m 0 (hashHead cr rflag (widthOf use16) ht))
    (hlen : hashLen cr use16 ht + cr.rlen < 4294967296) (hn : cr.cols.length < 4294967296)
    {k : Nat} (hk : k ≤ cr.cols.length) :
    ∃ es : Nat → Entry, (∀ i < ht.nentries, es i = ht.entries i) ∧
      getColData m k =
        (let u := unpack use16 (fetch ht.nentries es k)
         (hashLen cr use16 ht + u.1, u32 (u.2 + 4294967296 - u.1))) := by
  obtain ⟨hp, hget, htab⟩ := hash_payload hf hc hs hlen hn
  have hent : 0 < (widthOf use16).entry := by cases use16 <;> decide
  have hnent : ht.nentries < 4294967296 := by
    have := Nat.le_mul_of_pos_right ht.nentries hent
    unfold hashLen at hlen
    omega
  cases use16 with
  | true =>
      have hnar := (hc.narrow rfl).2
      simp only [Cr.ncols] at hnar
      obtain ⟨h1, h2⟩ := read_table hc.ok hnent
        (by simp only [widthOf, hash16, if_true]; omega) htab
      refine ⟨entriesAt hash16 m (tableAt cr), h2, ?_⟩
      have h64 : ¬ rflag &&& 64 ≠ 0 := fun e => by simpa using hf.wide.1 e
      have h32 : rflag &&& 32 ≠ 0 := hf.narrow rfl
      simp only [getColData, hp, hget, h1, unpack, if_true]
      rw [if_neg (by omega), if_neg h64, if_pos h32, Nat.mod_eq_of_lt (a := k) (by omega)]
  | false =>
      obtain ⟨h1, h2⟩ := read_table hc.ok hnent hn htab
      refine ⟨entriesAt hash32 m (tableAt cr), h2, ?_⟩
      have h64 : rflag &&& 64 ≠ 0 := hf.wide.2 rfl
      simp only [getColData, hp, hget, h1, unpack, Bool.false_eq_true, if_false]
      rw [if_neg (by omega), if_pos h64]

/-- An empty column is not in the table. -/
theorem hash_column_empty {f : Nat} (hf : HashFlagOk rflag use16) (hc : Chosen cr f use16 ht)
    (hs : Stands m 0 (hashHead cr rflag (widthOf use16) ht))
    (hlen : hashLen cr use16 ht + cr.rlen < 4294967296) (hn : cr.cols.length < 4294967296)
    {i : Nat} (hi : i < cr.cols.length) (he : cr.cols[i].empty = true) :
    (getColData m (i + 1)).2 = 0 := by
  obtain ⟨es, hes, hcol⟩ := hash_getColData hf hc hs hlen hn (k := i + 1) (by omega)
  have habs : ∀ s < ht.nentries, (ht.entries s).key ≠ i + 1 := by
    intro s hs hk
    obtain ⟨j, hj, hij, hej, -⟩ := (hc.holds (i + 1) _ (by omega)).1 ⟨s, hs, hk, rfl⟩
    obtain rfl : i = j := by omega
    rw [he] at hej
    cases hej
  rw [hcol, fetch_absent hc.ok hes habs, unpack_zero]
  rfl

/-- A filled column is in the table; what the reader finds depends on whether it is in reach. -/
theorem hash_column_filled {f : Nat} (hf : HashFlagOk rflag use16) (hc : Chosen cr f use16 ht)
    (hs : Stands m 0 (hashHead cr rflag (widthOf use16) ht))
    (hlen : hashLen cr use16 ht + cr.rlen < 4294967296) (hn : cr.cols.length < 4294967296)
    (hlim : total cr.cols < hashLimit use16) {i : Nat} (hi : i < cr.cols.length)
    (he : cr.cols[i].empty = false) :
    ∃ s < ht.nentries, (ht.entries s).key = i + 1 ∧
      getColData m (i + 1) =
        if dist ht.nentries s (i + 1) ≤ (ht.entries ((i + 1) % ht.nentries)).nColijns then
          (hashLen cr use16 ht + total (cr.cols.take i), colLen cr.cols[i])
        else (hashLen cr use16 ht, 0) := by
  obtain ⟨es, hes, hcol⟩ := hash_getColData hf hc hs hlen hn (k := i + 1) (by omega)
  have hle := total_take_le cr.cols (i + 1)
  rw [total_take_succ hi] at hle
  have h32 : hashLimit use16 ≤ 2147483648 := by cases use16 <;> decide
  obtain ⟨s, hs', hk, hv⟩ := (hc.holds (i + 1)
    (hval use16 (total (cr.cols.take i)) (total (cr.cols.take i) + colLen cr.cols[i]))
    (by omega)).2 ⟨i, hi, by omega, he, by
      rw [total_take_succ hi, Nat.zero_add, Nat.zero_add, u32_of_lt (by omega),
        u32_of_lt (by omega)]⟩
  refine ⟨s, hs', hk, ?_⟩
  rw [hcol, fetch_held hc.ok hes (by omega) hs' hk, hv]
  split
  · rw [unpack_hval (by omega) (by omega)]
    have hu : u32 (total (cr.cols.take i) + colLen cr.cols[i] + 4294967296 -
        total (cr.cols.take i)) = colLen cr.cols[i] := by
      unfold u32
      omega
    simp only [hu]
  · rw [unpack_zero]
    rfl

end Reading

end AlchemyDB.Format
