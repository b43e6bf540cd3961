/-
# An index in step with a list of rows

`Holds` is the refinement relation between an index and the rows it should
represent: the nested trees read as the images of the rows whose columns are not
empty, and no tree below the top is empty.  One accepted addition and one removal
keep the relation.
-/
import AlchemyDB.Index.Bottom

namespace AlchemyDB.Index

open Assoc

namespace Kind

variable {k : Kind} {r : Row} {a : Aobj} {l : Leaf}

theorem path_length (k : Kind) (r : Row) : (k.path r).length = k.depth := by
  cases k <;> simp [path, depth]

theorem leafAdd_ne_skip (hb : k.bkey r = some a) : (k.leafAdd r l).1 ≠ .skip := by
  cases k with
  | silent => cases hb
  | single c o =>
      cases o with
      | none => simp [leafAdd, btIndNodeAdd]
      | some o =>
          simp only [leafAdd, btIndNodeAdd]
          split <;> simp
  | uniq c t =>
      simp only [leafAdd, uniqAdd, show getCol r c = some a from hb]
      split <;> simp
  | mci c o =>
      cases o with
      | none => simp [leafAdd, btIndNodeAdd]
      | some o =>
          simp only [leafAdd, btIndNodeAdd]
          split <;> simp
  | umci c last t =>
      simp only [leafAdd, uniqAdd, show getCol r last = some a from hb]
      split <;> simp

end Kind

namespace Ind

variable {x : Ind} {r : Row}

theorem addToIndex_ok (h : (x.tried r).1 = .ok) :
    x.addToIndex r = (true, ⟨x.kind, (x.tried r).2⟩) := by
  simp [addToIndex, h]

theorem addToIndex_viol (h : (x.tried r).1 = .viol) : (x.addToIndex r).1 = false := by
  simp [addToIndex, h]

theorem addToIndex_kind (x : Ind) (r : Row) : (x.addToIndex r).2.kind = x.kind := rfl

theorem delFromIndex_kind {y : Ind} (h : x.delFromIndex r = some y) : y.kind = x.kind := by
  obtain ⟨e, _, rfl⟩ := Option.map_eq_some_iff.1 h
  rfl

end Ind

/-- The index holds the images of the rows and nothing else. -/
structure Holds (ty : Nat → KType) (live : List Row) (x : Ind) : Prop where
  ok : Nest.Ok (Leaf.Fits (x.kind.leafKind ty)) x.kind.depth x.tree
  rows : (Nest.rows x.kind.depth x.tree).Perm (live.filterMap x.kind.image)

namespace Holds

variable {ty : Nat → KType} {live : List Row} {x : Ind} {r : Row} {q : List Aobj × (Aobj × Aobj)}

/-- The tree at the bottom that an addition reaches. -/
theorem bottom_fits (h : Holds ty live x) (hr : r.Of ty) (hi : x.kind.image r = some q) :
    Leaf.Fits (x.kind.leafKind ty) ((Nest.bottom q.1 x.tree).getD (x.kind.newLeaf r)) := by
  cases hb : Nest.bottom q.1 x.tree with
  | none => exact Kind.newLeaf_fits hr (Kind.image_eq hi).2.1
  | some l => exact Nest.bottom_inv h.ok hb

/-- The entries at the bottom are those of rows with the same columns on the way down. -/
theorem bottom_mem (h : Holds ty live x) {new : Leaf} (hnew : new.ents = []) {ks : List Aobj}
    {e : Aobj × Aobj} (he : e ∈ ((Nest.bottom ks x.tree).getD new).ents) :
    (ks, e) ∈ live.filterMap x.kind.image := by
  cases hb : Nest.bottom ks x.tree with
  | none =>
      rw [hb, Option.getD_none, hnew] at he
      exact absurd he List.not_mem_nil
  | some l =>
      rw [hb] at he
      exact h.rows.subset ((Nest.mem_rows h.ok).2 ⟨l, hb, he⟩)

theorem tried_fst (h : Holds ty live x) (hr : r.Of ty) (hi : x.kind.image r = some q) :
    (x.tried r).1 = (x.kind.leafAdd r ((Nest.bottom q.1 x.tree).getD (x.kind.newLeaf r))).1 := by
  obtain ⟨hp, hb, _⟩ := Kind.image_eq hi
  unfold Ind.tried
  rw [hp]
  refine Nest.add_fst (Kind.newLeaf_fits hr hb) ?_ h.ok.shape
  rw [← hp]
  exact Kind.path_length _ _

theorem tried_ok (h : Holds ty live x) (hr : r.Of ty) (hi : x.kind.image r = some q)
    (hok : (x.addToIndex r).1 = true) : (x.tried r).1 = .ok := by
  obtain ⟨_, hb, _⟩ := Kind.image_eq hi
  cases ha : (x.tried r).1 with
  | ok => rfl
  | skip =>
      rw [h.tried_fst hr hi] at ha
      exact absurd ha (Kind.leafAdd_ne_skip hb)
  | viol =>
      rw [Ind.addToIndex_viol ha] at hok
      cases hok

/-- An accepted row is added. -/
theorem add (h : Holds ty live x) (hr : r.Of ty) (hi : x.kind.image r = some q)
    (hs : Stored (x.kind.leafKind ty) q.2.1 r.pk)
    (hn : ∀ e, (q.1, e) ∈ live.filterMap x.kind.image → e.1 = q.2.1 → e.2 = r.pk)
    (hok : (x.addToIndex r).1 = true) : Holds ty (r :: live) (x.addToIndex r).2 := by
  obtain ⟨hp, hb, hq⟩ := Kind.image_eq hi
  have hfst := h.tried_ok hr hi hok
  have hleaf := (h.tried_fst hr hi).symm.trans hfst
  have hadd := Kind.leafAdd_ok hb hleaf
  have hnew := Kind.newLeaf_ents x.kind r
  obtain ⟨h1, h2⟩ := (h.bottom_fits hr hi).add hs
    (fun e he heq => hn e (h.bottom_mem hnew he) heq)
  have hlen : (q.1.map some).length = x.kind.depth := by
    rw [← hp]
    exact Kind.path_length _ _
  have hres := Nest.add_ok (f := x.kind.leafAdd r) (e := (q.2.1, r.pk))
    (Kind.newLeaf_fits hr hb) hnew hlen h.ok (by rw [hadd]; exact h1) (by rw [hadd]; exact h2)
  rw [← hp] at hres
  rw [Ind.addToIndex_ok hfst]
  refine ⟨hres.1, hres.2.2.trans ?_⟩
  rw [List.filterMap_cons_some hi, show q = (q.1, (q.2.1, r.pk)) by rw [← hq]]
  exact h.rows.cons _

/-- A row that is there is removed. -/
theorem rem (h : Holds ty live x) (hm : r ∈ live) (hi : x.kind.image r = some q)
    (hk : createBTKey (x.kind.leafKind ty) (some q.2.1) = some q.2.1)
    (hg : x.kind.leafKind ty = .inode .u128 →
      (live.filterMap x.kind.image).countP (fun p => p.1 = q.1) ≤ 7) :
    ∃ y, x.delFromIndex r = some y ∧ Holds ty (live.erase r) y := by
  obtain ⟨hp, hb, hq⟩ := Kind.image_eq hi
  have hmem : q ∈ live.filterMap x.kind.image := List.mem_filterMap.2 ⟨r, hm, hi⟩
  have hrow : (q.1, q.2) ∈ Nest.rows x.kind.depth x.tree := h.rows.symm.subset hmem
  obtain ⟨l, hl, he⟩ := (Nest.mem_rows h.ok).1 hrow
  have hf := Nest.bottom_inv h.ok hl
  have hgr : l.Granted := by
    intro hu
    have hsub := (Nest.bottom_sublist h.ok hl).countP_le (p := fun p => decide (p.1 = q.1))
    rw [h.rows.countP_eq, List.countP_map, List.countP_eq_length.2 (by simp)] at hsub
    exact Nat.le_trans hsub (hg (hf.kind.symm.trans hu))
  obtain ⟨l', h1, h2, h3⟩ := hf.del hk (show (q.2.1, q.2.2) ∈ l.ents from he) hgr
  obtain ⟨t', h4, h5, h6⟩ := Nest.rem_ok (f := x.kind.leafDel r) h.ok hl
    (by rw [Kind.leafDel_eq hb, h1]) h2 h3
  rw [← hp] at h4
  refine ⟨⟨x.kind, t'⟩, ?_, h5, ?_⟩
  · unfold Ind.delFromIndex
    rw [h4]
    rfl
  · have hperm := (List.perm_cons_erase hm).filterMap x.kind.image
    rw [List.filterMap_cons_some hi] at hperm
    exact (h6.symm.trans (h.rows.trans hperm)).cons_inv

end Holds

end AlchemyDB.Index
