/-
# Hash rows against normal rows

Both rows of the same values give the same bytes for a column when both are read
rightly: the normal row under the condition on the width of the number of columns, and
the hash row when every filled column is in reach of a search.  In a `hash16` table the
distance of an entry is kept in one byte, and a column farther than 255 slots from its own
is read as empty.
-/
import AlchemyDB.Format.Zip

namespace AlchemyDB.Format

open Bytes Row Ahash

/-- The bytes that `getColData` gives for a column. -/
def colBytes (m : Nat → UInt8) (k : Nat) : List UInt8 := peek m (getColData m k).1 (getColData m k).2

theorem colBytes_empty {m : Nat → UInt8} {k : Nat} (h : (getColData m k).2 = 0) : colBytes m k = [] := by
  rw [colBytes, h]
  rfl

/-- The hash row of the columns. -/
def hashRow (cr : Cr) (f : Nat) (w : Width) (ht : Ahash) : List UInt8 :=
  hashHead cr f w ht ++ cr.cols.flatMap (·.data.bytes)

/-- Whenever a hash row is chosen, it is written inside its block, and every column of it is the
column of the normal row. -/
def SparseAgree (cr : Cr) (zt : Czip) : Prop :=
  ∀ f w ht, createHashRow cr (assignRflag cr.rlen zt) = some (some (f, w, ht)) →
    (hashRow cr f w ht).length ≤ hashMalloc cr w ht ∧
      ∀ (mem mem' : Nat → UInt8) (k : Nat), 1 ≤ k →
        colBytes (follow (hashRow cr f w ht) mem) k = colBytes (follow (normalRow cr zt) mem') k

/-- The rows have room, the offsets of the normal row are found, and the row is below the limit of
the variant. -/
structure SparseRoom (cr : Cr) (zt : Czip) : Prop where
  normal : headLen cr + total cr.cols < 4294967296
  hash : ∀ f w ht, createHashRow cr (assignRflag cr.rlen zt) = some (some (f, w, ht)) →
    (hashRow cr f w ht).length ≤ hashMalloc cr w ht
  width : getCSize (cr.cols.length - 1) true = getCSize cr.cols.length true
  limit : total cr.cols < 2147483648

/-- No filled column is farther from its own slot than the count of a slot can say. -/
def SparseNear (cr : Cr) (zt : Czip) : Prop :=
  ∀ f w ht, createHashRow cr (assignRflag cr.rlen zt) = some (some (f, w, ht)) → Near w ht

/-- The same, for the columns that have bytes. -/
def SparseKept (cr : Cr) (zt : Czip) : Prop :=
  ∀ f w ht, createHashRow cr (assignRflag cr.rlen zt) = some (some (f, w, ht)) →
    ∀ (i : Nat) (h : i < cr.cols.length), cr.cols[i].empty = false → colLen cr.cols[i] ≠ 0 →
      ∀ s < ht.nentries, (ht.entries s).key = i + 1 → dist ht.nentries s (i + 1) < 256 ^ w.count

section Agree

variable {cr : Cr} {zt : Czip}

/-- The bytes of a column of the normal row. -/
theorem colBytes_normal (hl : Laid cr) (he : ∀ c ∈ cr.cols, Exact c) (hr : SparseRoom cr zt)
    (mem : Nat → UInt8) {i : Nat} (hi : i < cr.cols.length) :
    colBytes (follow (normalRow cr zt) mem) (i + 1) =
      if colLen cr.cols[i] = 0 then [] else cr.cols[i].data.bytes := by
  have hloc := located_normal hl he (stands_follow (normalRow cr zt) mem) hr.normal hr.width hi
  split
  · rename_i h0
    exact colBytes_empty (hloc.len.trans h0)
  · rename_i h0
    have hs := hloc.stands h0
    have hex : cr.cols[i].data.bytes.length = colLen cr.cols[i] := he _ (List.getElem_mem hi)
    rw [colBytes, hloc.len, ← hex]
    exact hs

/-- The columns stand behind the header of a hash row. -/
theorem stands_hash {f : Nat} {use16 : Bool} {ht : Ahash} {m : Nat → UInt8}
    (he : ∀ c ∈ cr.cols, Exact c) (hs : Stands m 0 (hashRow cr f (widthOf use16) ht)) {i : Nat}
    (hi : i < cr.cols.length) :
    Stands m (hashLen cr use16 ht + total (cr.cols.take i)) cr.cols[i].data.bytes := by
  obtain ⟨-, h2⟩ := stands_append.1 hs
  rw [length_hashHead, Nat.zero_add] at h2
  have hat := stands_flatMap h2 hi
  rwa [sum_bytes fun c hc => he c (List.mem_of_mem_take hc)] at hat

/-- What a hash row gives for a column that is stored. -/
theorem colBytes_hash {f : Nat} {use16 : Bool} {ht : Ahash} (he : ∀ c ∈ cr.cols, Exact c)
    (hz : ∀ c ∈ cr.cols, c.empty = true → colLen c = 0)
    (hc : Chosen cr (assignRflag cr.rlen zt) use16 ht)
    (hf : f = hashFlag (assignRflag cr.rlen zt) use16)
    (hlen : hashLen cr use16 ht + cr.rlen < 4294967296) (hn : cr.cols.length < 4294967296)
    (hlim : total cr.cols < hashLimit use16) (mem : Nat → UInt8) {i : Nat}
    (hi : i < cr.cols.length) :
    (colLen cr.cols[i] = 0 ∧ colBytes (follow (hashRow cr f (widthOf use16) ht) mem) (i + 1) = []) ∨
      (cr.cols[i].empty = false ∧ ∃ s < ht.nentries, (ht.entries s).key = i + 1 ∧
        colBytes (follow (hashRow cr f (widthOf use16) ht) mem) (i + 1) =
          if dist ht.nentries s (i + 1) ≤ (ht.entries ((i + 1) % ht.nentries)).nColijns then
            cr.cols[i].data.bytes else []) := by
  subst hf
  have hst := stands_follow (hashRow cr (hashFlag (assignRflag cr.rlen zt) use16) (widthOf use16) ht)
    mem
  have hhead := (stands_append.1 hst).1
  cases hemp : cr.cols[i].empty with
  | true =>
      exact .inl ⟨hz _ (List.getElem_mem hi) hemp,
        colBytes_empty (hash_column_empty (hashFlagOk _ _ _) hc hhead hlen hn hi hemp)⟩
  | false =>
      obtain ⟨s, hs, hk, hcol⟩ := hash_column_filled (hashFlagOk _ _ _) hc hhead hlen hn hlim hi hemp
      refine .inr ⟨rfl, s, hs, hk, ?_⟩
      rw [colBytes, hcol]
      split
      · have hex : cr.cols[i].data.bytes.length = colLen cr.cols[i] := he _ (List.getElem_mem hi)
        rw [← hex]
        exact stands_hash he hst hi
      · rfl

/-- Columns beyond the stored ones are empty in a hash row. -/
theorem colBytes_beyond {f : Nat} {use16 : Bool} {ht : Ahash}
    (hc : Chosen cr (assignRflag cr.rlen zt) use16 ht)
    (hf : f = hashFlag (assignRflag cr.rlen zt) use16)
    (hlen : hashLen cr use16 ht + cr.rlen < 4294967296) (hn : cr.cols.length < 4294967296)
    (mem : Nat → UInt8) {k : Nat} (hk : cr.cols.length < k) :
    colBytes (follow (hashRow cr f (widthOf use16) ht) mem) k = [] := by
  subst hf
  have hhead := (stands_append.1 (stands_follow
    (hashRow cr (hashFlag (assignRflag cr.rlen zt) use16) (widthOf use16) ht) mem)).1
  refine colBytes_empty ?_
  simp only [getColData, (hash_payload (hashFlagOk _ _ _) hc hhead hlen hn).1]
  rw [if_pos hk]

/-- A narrow table is only chosen for rows below its limit. -/
theorem lt_hashLimit {use16 : Bool} {ht : Ahash} (hl : Laid cr)
    (hc : Chosen cr (assignRflag cr.rlen zt) use16 ht) (hlim : total cr.cols < 2147483648) :
    total cr.cols < hashLimit use16 := by
  cases use16 with
  | false => exact hlim
  | true =>
      have h4 := (flagOk cr.rlen zt).four.1 (hc.narrow rfl).1
      have hrl : cr.rlen = total cr.cols := by rw [hl.rlen, u32_of_lt (by omega)]
      unfold offWidth at h4
      simp only [hashLimit, if_true]
      split at h4
      · omega
      · split at h4
        · omega
        · exact absurd rfl h4

/-- The facts about a hash row that is chosen and has room. -/
theorem chosen_room (hl : Laid cr) (he : ∀ c ∈ cr.cols, Exact c) (hr : SparseRoom cr zt) {f : Nat}
    {w : Width} {ht : Ahash}
    (hch : createHashRow cr (assignRflag cr.rlen zt) = some (some (f, w, ht))) :
    ∃ use16, w = widthOf use16 ∧ f = hashFlag (assignRflag cr.rlen zt) use16 ∧
      Chosen cr (assignRflag cr.rlen zt) use16 ht ∧
      hashLen cr use16 ht + cr.rlen < 4294967296 := by
  rcases createHashRow_cases hl (assignRflag cr.rlen zt) with hn | ⟨use16, ht', hch', hc⟩
  · rw [hn] at hch
    cases hch
  · rw [hch'] at hch
    cases hch
    refine ⟨use16, rfl, rfl, hc, ?_⟩
    have hlen := hr.hash _ _ _ hch'
    have hrl : cr.rlen = total cr.cols := by rw [hl.rlen, u32_of_lt (by have := hr.limit; omega)]
    rw [hashRow, List.length_append, length_hashHead, (total_le_written cr.cols).2.2 he, ← hrl] at hlen
    exact Nat.lt_of_le_of_lt hlen (u32_lt _)

/-- Rows with room agree when every column is near its slot; and when they agree, every column that
has bytes is. -/
theorem sparse_agree_of (hl : Laid cr) (he : ∀ c ∈ cr.cols, Exact c)
    (hz : ∀ c ∈ cr.cols, c.empty = true → colLen c = 0) (hr : SparseRoom cr zt) :
    (SparseNear cr zt → SparseAgree cr zt) ∧ (SparseAgree cr zt → SparseKept cr zt) := by
  have hn : cr.cols.length < 4294967296 := cols_lt hr.normal
  constructor
  · intro hnear f w ht hch
    obtain ⟨use16, rfl, hf, hc, hlen⟩ := chosen_room hl he hr hch
    refine ⟨hr.hash _ _ _ hch, fun mem mem' k hk => ?_⟩
    obtain ⟨i, rfl⟩ : ∃ i, k = i + 1 := ⟨k - 1, by omega⟩
    by_cases hi : i < cr.cols.length
    · rw [colBytes_normal hl he hr mem' hi]
      rcases colBytes_hash he hz hc hf hlen hn (lt_hashLimit hl hc hr.limit) mem hi with
        ⟨h0, hb⟩ | ⟨-, s, hs, hkey, hb⟩
      · rw [hb, if_pos h0]
      · have hreach := hc.ok.reach (hnear _ _ _ hch) s hs (by omega)
        rw [hkey] at hreach
        rw [hb, if_pos hreach]
        split
        · rename_i h0
          have hex : cr.cols[i].data.bytes.length = colLen cr.cols[i] := he _ (List.getElem_mem hi)
          exact List.length_eq_zero_iff.1 (hex.trans h0)
        · rfl
    · rw [colBytes_beyond hc hf hlen hn mem (by omega)]
      symm
      by_cases h0 : 0 < cr.cols.length
      · have hhead := (stands_append.1 (stands_follow (normalRow cr zt) mem')).1
        exact colBytes_empty ((headed hn hhead).beyond hl h0 hr.normal (by omega))
      · -- a row without columns is never sparse
        exfalso
        have hsmall : cr.ncols < 100 := by unfold Cr.ncols; omega
        rw [createHashRow_small hsmall] at hch
        cases hch
  · intro hag f w ht hch i hi hemp h0 s hs hkey
    obtain ⟨use16, rfl, hf, hc, hlen⟩ := chosen_room hl he hr hch
    have hsame := (hag _ _ _ hch).2 (fun _ => 0) (fun _ => 0) (i + 1) (by omega)
    rw [colBytes_normal hl he hr _ hi, if_neg h0] at hsame
    rcases colBytes_hash he hz hc hf hlen hn (lt_hashLimit hl hc hr.limit) (fun _ => 0) hi with
      ⟨h0', -⟩ | ⟨-, s', hs', hkey', hb⟩
    · exact absurd h0' h0
    · obtain rfl : s' = s := hc.ok.inj s' hs' s hs (hkey'.trans hkey.symm) (by omega)
      rw [hb] at hsame
      split at hsame
      · rename_i hreach
        exact Nat.lt_of_le_of_lt hreach (hc.ok.byte _ (Nat.mod_lt _ hc.ok.pos))
      · have hex : cr.cols[i].data.bytes.length = colLen cr.cols[i] := he _ (List.getElem_mem hi)
        rw [← hsame] at hex
        exact absurd hex.symm h0

end Agree

/-- Rows of a moderate size have room. -/
theorem hash_room {cr : Cr} {zt : Czip} (hl : Laid cr) (he : ∀ c ∈ cr.cols, Exact c)
    (hs : tableAt cr + 16 * (2 * cr.cols.length + 4) + 24 + total cr.cols < 4294967296) (f : Nat)
    (w : Width) (ht : Ahash)
    (hch : createHashRow cr (assignRflag cr.rlen zt) = some (some (f, w, ht))) :
    (hashRow cr f w ht).length ≤ hashMalloc cr w ht := by
  rcases createHashRow_cases hl (assignRflag cr.rlen zt) with hn | ⟨use16, ht', hch', hc⟩
  · rw [hn] at hch
    cases hch
  · rw [hch'] at hch
    cases hch
    have hsize := hc.ok.size
    have hent : (widthOf use16).entry ≤ 16 := by cases use16 <;> decide
    have hmul : ht.nentries * (widthOf use16).entry ≤ (2 * cr.cols.length + 4) * 16 :=
      Nat.mul_le_mul (by omega) hent
    have hrl : cr.rlen = total cr.cols := by rw [hl.rlen, u32_of_lt (by omega)]
    rw [hashRow, List.length_append, length_hashHead, (total_le_written cr.cols).2.2 he, hashMalloc,
      Ahash.size, Nat.mod_eq_of_lt (by omega)]
    simp only [hashLen, Cr.ncols, Nat.add_sub_cancel, tableAt] at hs ⊢
    rw [u32_of_lt (by omega)]
    omega

/-! ## Rows of a table -/

theorem emptyLen_createRow (fields : List Field) :
    ∀ c ∈ (createRow fields).cols, c.empty = true → colLen c = 0 := by
  have hall : ∀ (fs : List Field) (r : Nat), ∀ c ∈ crdsFrom r fs, c.empty = true → colLen c = 0 := by
    intro fs
    induction fs with
    | nil => intro r c hc; cases hc
    | cons f fs ih =>
        intro r c hc he
        rcases List.mem_cons.1 hc with rfl | hc
        · rw [colLen_field]
          exact data_of_empty he
        · exact ih _ c hc he
  exact hall _ 0

/-- LZF does not compress an empty text, and a packed empty text is empty. -/
theorem emptyLen_prepared {zip : Bool} {z : Lzf} {cr cr' : Cr} {zt : Czip}
    (hz : ∀ n, z.compress [] n = none) (hp : prepared zip z cr = some (zt, cr'))
    (h : ∀ c ∈ cr.cols, c.empty = true → colLen c = 0) :
    ∀ c ∈ cr'.cols, c.empty = true → colLen c = 0 := by
  have hrel := prepared_rel hp
  generalize cr'.cols = cs' at hrel
  generalize cr.cols = cs at hrel h
  induction hrel with
  | nil => exact fun c hc => absurd hc List.not_mem_nil
  | @cons c c' cs cs' hcc _ ih =>
      obtain ⟨h1, h2⟩ := List.forall_mem_cons.1 h
      refine List.forall_mem_cons.2 ⟨fun hemp => ?_, ih h2⟩
      obtain ⟨he, ⟨s, b, hs, hb, hpk⟩ | ⟨-, hd⟩⟩ := hcc
      · have hlen := h1 (he ▸ hemp)
        simp only [colLen, hs, ColData.bytes] at hlen
        obtain rfl := List.length_eq_zero_iff.1 hlen
        have hnil : b = [] := by
          cases zt with
          | none => exact hpk
          | six =>
              have h6 : some (some ([] : List UInt8)) = some (some b) := hpk
              cases h6
              rfl
          | lzf => simp [Packed, lzfZipCol, hz] at hpk
        simp only [colLen, hb, ColData.bytes, hnil, List.length_nil]
      · have hlen := h1 (he ▸ hemp)
        unfold colLen at hlen ⊢
        rwa [hd, he]

/-- An INT column that is filled behind empty ones. -/
def lateColumn (n : Nat) : List Field := List.replicate n (.int none) ++ [.int (some 7)]

theorem lateColumn_int {n : Nat} : ∀ f ∈ lateColumn n, f.ctype ≠ .u128 := by
  intro f hf
  rcases List.mem_append.1 hf with h | h
  · rw [List.eq_of_mem_replicate h]
    decide
  · rw [List.mem_singleton.1 h]
    decide

theorem lateColumn_exact (n : Nat) : ∀ c ∈ (createRow (lateColumn n)).cols, Exact c :=
  (exact_createRow_iff _).2 fun f hf e => lateColumn_int f (mem_stored hf) (by rw [e]; rfl)

end AlchemyDB.Format
