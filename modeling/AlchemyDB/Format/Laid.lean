/-
# Where the columns are

The length that is counted for a column is the length that is written for it, except
for an empty U128, of which sixteen bytes are written.  `Laid` says that the offsets of
a row are the sums of the counted lengths; `createRow` leaves a row so, and `zipCol`
keeps it, taking off what the texts shrank.
-/
import AlchemyDB.Format.Read

namespace AlchemyDB.Format

open Bytes Row

/-- The length that was counted for a column. -/
def colLen (c : Crd) : Nat :=
  match c.data with
  | .u128 _ => if c.empty then 0 else 16
  | d => d.bytes.length

/-- A column of which just the counted bytes are written. -/
def Exact (c : Crd) : Prop := c.data.bytes.length = colLen c

theorem colLen_le (c : Crd) : colLen c ≤ c.data.bytes.length := by
  unfold colLen
  split
  · rename_i h
    rw [h]
    simp only [ColData.bytes, length_le]
    split <;> omega
  · exact le_rfl

/-- A row whose columns end at the sums of the lengths before them, and of their own. -/
def LaidFrom : Nat → List Crd → Prop
  | _, [] => True
  | r, c :: cs => c.mcofsts = u32 (r + colLen c) ∧ LaidFrom (r + colLen c) cs

/-- The sum of the counted lengths. -/
def total (cs : List Crd) : Nat := (cs.map colLen).sum

structure Laid (cr : Cr) : Prop where
  cols : LaidFrom 0 cr.cols
  rlen : cr.rlen = u32 (total cr.cols)

@[simp] theorem total_nil : total [] = 0 := rfl

@[simp] theorem total_cons (c : Crd) (cs : List Crd) : total (c :: cs) = colLen c + total cs := rfl

theorem u32_add_u32 (a b : Nat) : u32 (u32 a + b) = u32 (a + b) := by
  unfold u32
  omega

theorem u32_of_lt {n : Nat} (h : n < 4294967296) : u32 n = n := Nat.mod_eq_of_lt h

theorem u32_lt (n : Nat) : u32 n < 4294967296 := Nat.mod_lt _ (by decide)

/-- The end of a column, in a row that is laid out from `r` on. -/
theorem LaidFrom.mcofsts : ∀ {cs : List Crd} {r i : Nat}, LaidFrom r cs → ∀ (h : i < cs.length),
    cs[i].mcofsts = u32 (r + total (cs.take (i + 1)))
  | c :: cs, r, 0, hl, _ => by simpa using hl.1
  | c :: cs, r, i + 1, hl, h => by
      have hi : i < cs.length := by simpa using h
      have := hl.2.mcofsts hi
      simpa [Nat.add_assoc] using this

theorem total_take_le : ∀ (cs : List Crd) (i : Nat), total (cs.take i) ≤ total cs
  | [], i => by simp
  | c :: cs, 0 => by simp
  | c :: cs, i + 1 => by
      have := total_take_le cs i
      simp only [List.take_succ_cons, total_cons]
      omega

theorem total_take_succ : ∀ {cs : List Crd} {i : Nat} (h : i < cs.length),
    total (cs.take (i + 1)) = total (cs.take i) + colLen cs[i]
  | c :: cs, 0, _ => by simp
  | c :: cs, i + 1, h => by
      have hi : i < cs.length := by simpa using h
      have := total_take_succ hi
      simp only [List.take_succ_cons, total_cons, List.getElem_cons_succ, this]
      omega

/-- As many bytes are written as were counted, and just as many when every column is exact. -/
theorem total_le_written (cs : List Crd) :
    total cs ≤ (cs.flatMap (·.data.bytes)).length ∧
      ((cs.flatMap (·.data.bytes)).length = total cs ↔ ∀ c ∈ cs, Exact c) := by
  induction cs with
  | nil => simp
  | cons c cs ih =>
      have hc := colLen_le c
      simp only [List.flatMap_cons, List.length_append, total_cons, List.forall_mem_cons]
      refine ⟨by omega, ?_⟩
      rw [← ih.2]
      unfold Exact
      omega

/-! ## `createRow` -/

theorem colLen_field (f : Field) (r : Nat) : colLen ⟨f.data.2, f.empty, r⟩ = f.data.1 := by
  cases f with
  | int v =>
      cases v with
      | none => rfl
      | some i =>
          simp only [Field.data, colLen, ColData.bytes]
          exact (length_numBytes _ _).trans (cIcol_len _ _).symm
  | long v =>
      cases v with
      | none => rfl
      | some l =>
          simp only [Field.data, colLen, ColData.bytes]
          exact (length_numBytes _ _).trans (cIcol_len _ _).symm
  | u128 v => cases v <;> rfl
  | float v => cases v <;> simp [Field.data, colLen, ColData.bytes]
  | text v => cases v <;> rfl

/-- Only an empty U128 is written without being counted. -/
theorem exact_field (f : Field) (r : Nat) :
    Exact ⟨f.data.2, f.empty, r⟩ ↔ f ≠ .u128 none := by
  unfold Exact
  cases f with
  | int v => cases v <;> exact iff_of_true rfl (by simp)
  | long v => cases v <;> exact iff_of_true rfl (by simp)
  | float v => cases v <;> exact iff_of_true rfl (by simp)
  | text v => cases v <;> exact iff_of_true rfl (by simp)
  | u128 v => cases v <;> simp [Field.data, colLen, ColData.bytes, Field.empty]

theorem u32_congr {a b : Nat} (h : u32 a = u32 b) (c : Nat) : u32 (a + c) = u32 (b + c) := by
  unfold u32 at *
  omega

/-- Only the lowest 32 bits of the beginning count. -/
theorem LaidFrom.congr : ∀ {cs : List Crd} {r r' : Nat}, u32 r = u32 r' → LaidFrom r cs →
    LaidFrom r' cs
  | [], _, _, _, _ => trivial
  | _ :: _, _, _, he, h => ⟨h.1.trans (u32_congr he _), h.2.congr (u32_congr he _)⟩

theorem laidFrom_crds : ∀ (fs : List Field) (r : Nat), LaidFrom r (crdsFrom r fs)
  | [], _ => trivial
  | f :: fs, r => by
      refine ⟨by rw [colLen_field], (laidFrom_crds fs _).congr ?_⟩
      rw [colLen_field]
      exact Nat.mod_mod _ _

theorem total_crds : ∀ (fs : List Field) (r : Nat),
    total (crdsFrom r fs) = (fs.map (·.data.1)).sum
  | [], _ => rfl
  | f :: fs, r => by rw [crdsFrom, total_cons, colLen_field, total_crds fs]; rfl

theorem createRow_laid (fields : List Field) : Laid (createRow fields) where
  cols := laidFrom_crds _ 0
  rlen := by rw [createRow, total_crds]

/-! ## `zipCol` -/

/-- The difference, as an integer of 32 bits. -/
theorem toNat_sub_emod {a b : Nat} {d : Int} (h : (a : Int) - d = b) (c : Nat) (hc : c = u32 a) :
    (((c : Int) - d) % 4294967296).toNat = u32 b := by
  rw [hc]
  unfold u32
  omega

theorem shrink_text {c : Crd} {s : List UInt8} (h : c.data = .text s) (cs : List Crd)
    (b : List UInt8) (bs : List (List UInt8)) (d : Int) :
    shrink d (c :: cs) (b :: bs) =
      let d := d + ((s.length : Int) - b.length)
      ({ c with data := .text b, mcofsts := (((c.mcofsts : Int) - d) % 4294967296).toNat } ::
        (shrink d cs bs).1, (shrink d cs bs).2) := by
  rw [shrink]
  exact h

theorem shrink_other {c : Crd} {bs : List (List UInt8)} (h : (∀ s, c.data ≠ .text s) ∨ bs = [])
    (cs : List Crd) (d : Int) :
    shrink d (c :: cs) bs =
      ({ c with mcofsts := (((c.mcofsts : Int) - d) % 4294967296).toNat } :: (shrink d cs bs).1,
        (shrink d cs bs).2) := by
  rw [shrink]
  intro s b bs' hs hb
  exact h.elim (fun h => h s hs) (fun h => by rw [h] at hb; cases hb)

/-- After the texts shrank the offsets are the sums of the new lengths. -/
theorem shrink_laid : ∀ (cs : List Crd) (bs : List (List UInt8)) (r r' : Nat) (d : Int),
    LaidFrom r cs → (r : Int) - d = r' →
    LaidFrom r' (shrink d cs bs).1 ∧
      ((r + total cs : Nat) : Int) - (shrink d cs bs).2 = r' + total (shrink d cs bs).1
  | [], bs, r, r', d, _, hd => ⟨trivial, by simpa [shrink] using hd⟩
  | c :: cs, bs, r, r', d, h, hd => by
      by_cases ht : (∀ s, c.data ≠ .text s) ∨ bs = []
      · rw [shrink_other ht]
        have hl : colLen { c with mcofsts := (((c.mcofsts : Int) - d) % 4294967296).toNat } =
            colLen c := rfl
        obtain ⟨h1, h2⟩ := shrink_laid cs bs (r + colLen c) (r' + colLen c) d h.2 (by omega)
        refine ⟨⟨?_, by rw [hl]; exact h1⟩, ?_⟩
        · rw [hl]
          exact toNat_sub_emod (a := r + colLen c) (by omega) _ h.1
        · rw [total_cons, total_cons, hl]
          push_cast at h2 ⊢
          omega
      · push Not at ht
        obtain ⟨⟨s, hs⟩, hb⟩ := ht
        obtain ⟨b, bs, rfl⟩ := List.exists_cons_of_ne_nil hb
        rw [shrink_text hs]
        have hlen : colLen c = s.length := by simp only [colLen, hs, ColData.bytes]
        have hl (o : Nat) : colLen { c with data := .text b, mcofsts := o } = b.length := rfl
        obtain ⟨h1, h2⟩ := shrink_laid cs bs (r + colLen c) (r' + b.length)
          (d + ((s.length : Int) - b.length)) h.2 (by omega)
        refine ⟨⟨?_, h1⟩, ?_⟩
        · rw [hl]
          exact toNat_sub_emod (a := r + colLen c) (by omega) _ h.1
        · simp only [total_cons, hl]
          push_cast at h2 ⊢
          omega

/-- `zipCol` leaves the offsets at the sums of the lengths that are written. -/
theorem zipCol_laid {z : Lzf} {cr cr' : Cr} {zt : Czip} (hl : Laid cr)
    (h : zipCol z cr = some (zt, cr')) : Laid cr' := by
  obtain ⟨t, ht, he⟩ := Option.map_eq_some_iff.1 h
  split at he
  · cases he
    exact hl
  · cases he
    obtain ⟨h1, h2⟩ := shrink_laid cr.cols t.2 0 0 0 hl.cols (by omega)
    refine ⟨h1, toNat_sub_emod (a := total cr.cols) ?_ _ hl.rlen⟩
    show (total cr.cols : Int) - (shrink 0 cr.cols t.2).2 = total (shrink 0 cr.cols t.2).1
    push_cast at h2
    omega

end AlchemyDB.Format
