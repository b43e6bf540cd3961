/-
# `AlchemyDB.BTree.Widen` — a DR too large for the stream

`__setDR` makes the entries of a dirty stream wider when the DR to be stored does not
fit: `incr_ds` allocates a new block and copies the old entries.  It copies `2t` of them
for a leaf but only `t` for an inner node, as if a node without leaf flag had `t` keys,
and such a node has up to `2t - 1`.  The DRs behind slot `t` are zero afterwards, and
when the slot to be set is one of them its old DR is not seen any more, so that it is
counted once too often.  `keepsDRs_iff` says that nothing else goes wrong.
-/
import Mathlib.Data.Finset.Card
import AlchemyDB.BTree.Dirtied
import AlchemyDB.BTree.Runs

namespace AlchemyDB

open Store

variable {α : Type} {s : Bt α} {nd : BtN α} {t i v : Nat}

/-! ## The wider stream -/

namespace BtN

/-- The number of keys with a DR, which `ndirty` is to count. -/
def dirtyKeys (nd : BtN α) : Nat := ((Finset.range nd.n).filter fun j => nd.dr j ≠ 0).card

/-- The value does not fit the entries of the stream; a new stream has entries of one
byte. -/
def TooWide (nd : BtN α) (v : Nat) : Prop :=
  nd.dirty ≤ 1 ∧ 255 < v ∨ nd.dirty = 2 ∧ 65535 < v

instance (nd : BtN α) (v : Nat) : Decidable (nd.TooWide v) :=
  inferInstanceAs (Decidable (_ ∨ _))

/-- The number of entries that `incr_ds` copies. -/
def copied (t : Nat) (nd : BtN α) : Nat := if nd.leaf then t * 2 else t

/-- The stream that `__setDR` ends up with: one or two rounds of `incr_ds` copy the same
entries. -/
theorem widen_tooWide (hd : 0 < nd.dirty) (hw : nd.TooWide v) :
    (nd.widen t v).n = nd.n ∧ (nd.widen t v).ndirty = nd.ndirty ∧ 0 < (nd.widen t v).dirty ∧
      ∀ j, (nd.widen t v).ds j = if j < nd.copied t then nd.ds j else 0 := by
  rcases hw with ⟨h1, hv⟩ | ⟨h2, hv⟩
  · have h1 : nd.dirty = 1 := by omega
    by_cases hv2 : 65535 < v
    · have hrun : nd.widen t v = (nd.incrDs t).incrDs t := by
        simp [widen, h1, hv, hv2, incrDs]
      rw [hrun]
      refine ⟨rfl, rfl, by simp [incrDs, h1], fun j => ?_⟩
      show (if j < nd.copied t then (if j < nd.copied t then nd.ds j else 0) else 0) = _
      split_ifs <;> rfl
    · have hrun : nd.widen t v = nd.incrDs t := by
        simp [widen, h1, hv, hv2, incrDs]
      rw [hrun]
      exact ⟨rfl, rfl, by simp [incrDs, h1], fun j => rfl⟩
  · have hrun : nd.widen t v = nd.incrDs t := by
      simp [widen, h2, hv]
    rw [hrun]
    exact ⟨rfl, rfl, by simp [incrDs, h2], fun j => rfl⟩

/-- `__setDR` of a value that does not fit: the entries copied, the value in its slot, and
one more DR counted when the slot holds none after the copy. -/
theorem setDRRaw_tooWide (hd : 0 < nd.dirty) (hw : nd.TooWide v)
    (hpos : i < nd.copied t → nd.ds i ≠ 0 → nd.ndirty ≠ 0) :
    (nd.setDRRaw t i v).n = nd.n ∧
      (∀ j, (nd.setDRRaw t i v).dr j =
        if j = i then v else if j < nd.copied t then nd.ds j else 0) ∧
      (nd.setDRRaw t i v).ndirty =
        nd.ndirty + if i < nd.copied t ∧ nd.ds i ≠ 0 then 0 else 1 := by
  obtain ⟨w1, w2, w3, w4⟩ := widen_tooWide (t := t) hd hw
  have hv : v ≠ 0 := by
    rcases hw with ⟨-, h⟩ | ⟨-, h⟩
    · omega
    · omega
  rw [setDRRaw]
  generalize nd.widen t v = w at w1 w2 w3 w4
  have hds : ∀ j, upd w.ds i v j =
      if j = i then v else if j < nd.copied t then nd.ds j else 0 := by
    intro j
    rw [← w4 j]
    rfl
  by_cases hc : i < nd.copied t ∧ nd.ds i ≠ 0
  · have hodr : w.ds i ≠ 0 := by
      rw [w4, if_pos hc.1]
      exact hc.2
    have hn0 : w.ndirty ≠ 0 := w2 ▸ hpos hc.1 hc.2
    simp only [hodr, hv, false_and, and_false, if_false, hn0]
    refine ⟨w1, fun j => ?_, by rw [if_pos hc, w2]; rfl⟩
    exact (if_neg (not_le.2 w3)).trans (hds j)
  · have hodr : w.ds i = 0 := by
      rw [w4]
      split_ifs with hlt
      · by_contra h
        exact hc ⟨hlt, h⟩
      · rfl
    simp only [hodr, hv, ne_eq, not_false_eq_true, and_self, if_true, Nat.add_one_ne_zero, if_false]
    refine ⟨w1, fun j => ?_, by rw [if_neg hc, w2]⟩
    exact (if_neg (not_le.2 w3)).trans (hds j)

/-- The same for `setDR`, which gives a node without stream an empty one first. -/
theorem stDR_tooWide (hw : nd.TooWide v) (hpos : nd.dr i ≠ 0 → nd.ndirty ≠ 0) :
    (nd.stDR t i v).n = nd.n ∧
      (∀ j, (nd.stDR t i v).dr j =
        if j = i then v else if j < nd.copied t then nd.dr j else 0) ∧
      (nd.stDR t i v).ndirty =
        nd.ndirty + if i < nd.copied t ∧ nd.dr i ≠ 0 then 0 else 1 := by
  have hv : v ≠ 0 := by
    rcases hw with ⟨-, h⟩ | ⟨-, h⟩
    · omega
    · omega
  rw [stDR, if_neg hv]
  by_cases hd : nd.dirty ≤ 0
  · have h1 : 0 < nd.addDS.dirty := Int.one_pos
    have hw1 : nd.addDS.TooWide v := by
      rcases hw with ⟨-, h⟩ | ⟨h, -⟩
      · exact Or.inl ⟨le_refl _, h⟩
      · omega
    have hdr : ∀ j, nd.addDS.ds j = nd.dr j := fun j => (dr_clean hd j).symm
    obtain ⟨r1, r2, r3⟩ := setDRRaw_tooWide (t := t) (i := i) h1 hw1 fun _ h => absurd rfl h
    rw [if_pos hd, r1, r3]
    simp only [r2, hdr]
    exact ⟨rfl, fun _ => rfl, rfl⟩
  · have hd' : 0 < nd.dirty := not_le.1 hd
    have hdr : ∀ j, nd.ds j = nd.dr j := fun j => (dr_dirty hd' j).symm
    obtain ⟨r1, r2, r3⟩ := setDRRaw_tooWide (t := t) (i := i) hd' hw fun _ h => hpos (hdr i ▸ h)
    rw [if_neg hd, r1, r3]
    simp only [r2, hdr]
    exact ⟨trivial, fun _ => trivial, trivial⟩

end BtN

/-- Setting one slot of a row of numbers to a number that is not zero. -/
theorem card_nonzero_set {f g : Nat → Nat} {n i : Nat} (hi : i < n) (hg : g i ≠ 0)
    (h : ∀ j < n, j ≠ i → g j = f j) :
    ((Finset.range n).filter fun j => g j ≠ 0).card =
      ((Finset.range n).filter fun j => f j ≠ 0).card + if f i ≠ 0 then 0 else 1 := by
  have hins : (Finset.range n).filter (fun j => g j ≠ 0) =
      insert i ((Finset.range n).filter fun j => f j ≠ 0) := by
    ext j
    simp only [Finset.mem_insert, Finset.mem_filter, Finset.mem_range]
    by_cases hj : j = i
    · subst hj
      exact iff_of_true ⟨hi, hg⟩ (Or.inl rfl)
    · constructor
      · rintro ⟨hn, h0⟩
        exact Or.inr ⟨hn, h j hn hj ▸ h0⟩
      · rintro (hj' | ⟨hn, h0⟩)
        · exact absurd hj' hj
        · exact ⟨hn, (h j hn hj).symm ▸ h0⟩
  rw [hins]
  split_ifs with hf
  · rw [Finset.insert_eq_of_mem (Finset.mem_filter.2 ⟨Finset.mem_range.2 hi, hf⟩)]
    rfl
  · exact Finset.card_insert_of_notMem fun hm => hf (Finset.mem_filter.1 hm).2

/-! ## What `setDR` is to do -/

/-- A node without stream is moved to a new block; it is the root, or another node `p`
that is not a leaf points at it. -/
def Hung (s : Bt α) (x p : Nat) : Prop :=
  x ≠ s.next ∧ (x ≠ s.root → p ≠ x ∧ p ≠ s.next ∧ ∃ np, s.heap p = some np ∧ np.leaf = false)

/-- The node that `setDR` leaves behind, wherever it is then. -/
theorem setDR_leaves {x p pi : Nat} (hx : s.heap x = some nd) (hv : v ≠ 0)
    (hp : nd.dirty ≤ 0 → Hung s x p) :
    ∃ y s', setDR x i v p pi s = some (y, s') ∧ s'.heap y = some (nd.stDR s.t i v) := by
  by_cases hd : nd.dirty ≤ 0
  · obtain ⟨hnext, hq⟩ := hp hd
    obtain ⟨s', hrun, -, -, hrest, -, hnew, -, -⟩ :=
      addDStoBTN_run (q := p) (j := pi) hx hnext hq
    have ht : s'.t = s.t := congrArg (fun r => r.2.2.1) hrest
    have hlive : ¬ nd.addDS.dirty ≤ 0 := not_le.2 Int.one_pos
    refine ⟨s.next, s'.setHeap s.next (some (nd.addDS.setDRRaw s'.t i v)), ?_, ?_⟩
    · rw [setDR, if_neg hv, run_bind (getN_run hx), if_pos hd, run_bind hrun]
      show (setDRRaw s.next i v >>= fun _ => pure s.next) s' = _
      rw [run_bind (setDRRaw_run hnew hlive i v)]
      rfl
    · rw [BtN.stDR, if_neg hv, if_pos hd, ht]
      exact upd_same _ _ _
  · exact ⟨x, _, setDR_run hx (fun _ => hd) p pi, upd_same _ _ _⟩

/-- `setDR` changes the DR of its key and no other, and counts the DRs right. -/
def KeepsDRs (s : Bt α) (x i v p pi : Nat) : Prop :=
  ∃ nd y s' nd', s.heap x = some nd ∧ setDR x i v p pi s = some (y, s') ∧
    s'.heap y = some nd' ∧ (∀ j < nd.n, j ≠ i → nd'.dr j = nd.dr j) ∧ nd'.dr i = v ∧
    nd'.n = nd.n ∧ nd'.ndirty = nd'.dirtyKeys

/-- A DR that does not fit the stream is stored without harm to the others exactly in a
leaf, and in an inner node that holds no DR from slot `t` on. -/
theorem keepsDRs_iff {x p pi : Nat} (hx : s.heap x = some nd) (hi : i < nd.n)
    (hn : nd.n ≤ 2 * s.t - 1) (hc : nd.ndirty = nd.dirtyKeys) (hw : nd.TooWide v)
    (hp : nd.dirty ≤ 0 → Hung s x p) :
    KeepsDRs s x i v p pi ↔
      nd.leaf = true ∨ ∀ j, s.t ≤ j → j < nd.n → nd.dr j = 0 := by
  have hv : v ≠ 0 := by
    rcases hw with ⟨-, h⟩ | ⟨-, h⟩
    · omega
    · omega
  have hpos : nd.dr i ≠ 0 → nd.ndirty ≠ 0 := by
    intro h0 hz
    rw [hc] at hz
    have hmem : i ∈ (Finset.range nd.n).filter fun j => nd.dr j ≠ 0 :=
      Finset.mem_filter.2 ⟨Finset.mem_range.2 hi, h0⟩
    rw [Finset.card_eq_zero.1 hz] at hmem
    exact absurd hmem (Finset.notMem_empty i)
  obtain ⟨y, s', hrun, hy⟩ : ∃ y s', setDR x i v p pi s = some (y, s') ∧
      s'.heap y = some (nd.stDR s.t i v) := setDR_leaves hx hv hp
  obtain ⟨r1, r2, r3⟩ := BtN.stDR_tooWide (t := s.t) (i := i) hw hpos
  have hset : (nd.stDR s.t i v).dr i = v := by rw [r2, if_pos rfl]
  -- the count once the other keys are known to have kept their DRs
  have hcard : (∀ j < nd.n, j ≠ i → (nd.stDR s.t i v).dr j = nd.dr j) →
      (nd.stDR s.t i v).dirtyKeys = nd.ndirty + if nd.dr i ≠ 0 then 0 else 1 := by
    intro hkeep
    rw [BtN.dirtyKeys, r1, hc]
    exact card_nonzero_set hi (by rw [hset]; exact hv) hkeep
  constructor
  · rintro ⟨nd₀, y', s'', nd', h1, h2, h3, hkeep, -, -, hcount⟩
    obtain rfl : nd = nd₀ := Option.some.inj (hx.symm.trans h1)
    obtain ⟨rfl, rfl⟩ : y = y' ∧ s' = s'' := by
      rw [hrun] at h2
      exact Prod.mk.inj (Option.some.inj h2)
    obtain rfl : nd.stDR s.t i v = nd' := Option.some.inj (hy.symm.trans h3)
    by_cases hl : nd.leaf = true
    · exact Or.inl hl
    · refine Or.inr fun j hj hjn => ?_
      have hcop : ¬ j < nd.copied s.t := by
        rw [BtN.copied, if_neg hl]
        omega
      by_cases hji : j = i
      · subst hji
        by_contra h0
        rw [hcard hkeep, r3, if_neg fun h => hcop h.1, if_pos h0] at hcount
        omega
      · rw [← hkeep j hjn hji, r2, if_neg hji, if_neg hcop]
  · intro hcond
    have hcop : ∀ j < nd.n, nd.dr j ≠ 0 → j < nd.copied s.t := by
      intro j hj h0
      rw [BtN.copied]
      rcases hcond with hl | hz
      · rw [if_pos hl]
        omega
      · split_ifs
        · omega
        · exact not_le.1 fun h => h0 (hz j h hj)
    have hkeep : ∀ j < nd.n, j ≠ i → (nd.stDR s.t i v).dr j = nd.dr j := by
      intro j hj hji
      rw [r2, if_neg hji]
      split_ifs with hlt
      · rfl
      · by_contra h0
        exact hlt (hcop j hj fun h => h0 h.symm)
    refine ⟨nd, y, s', _, hx, hrun, hy, hkeep, hset, r1, ?_⟩
    rw [hcard hkeep, r3]
    by_cases h0 : nd.dr i ≠ 0
    · rw [if_pos ⟨hcop i hi h0, h0⟩, if_pos h0]
    · rw [if_neg fun h => h0 h.2, if_neg h0]

/-! ## An inner node with a DR in its upper half -/

/-- The root of a tree of fan-out 7, with seven keys, and one evicted row behind the key
in slot `i`. -/
def oneDirty (leaf : Bool) (i : Nat) : BtN Cell :=
  { scion := 16, n := 7, leaf := leaf, dirty := 1, ndirty := 1, keys := row,
    nodes := fun j => j + 2, ds := upd (fun _ => 0) i 1 }

def oneDirtyTree (leaf : Bool) (i : Nat) : Bt Cell :=
  (btCreate Cell.cmp .one tableBts true).setHeap 1 (some (oneDirty leaf i))

theorem keepsDRs_low : KeepsDRs (oneDirtyTree false 3) 1 0 256 1 0 :=
  have hlive : (oneDirtyTree false 3).heap 1 = some (oneDirty false 3) := rfl
  (keepsDRs_iff hlive (by decide) (by decide) (by decide) (by decide)
    (fun h => absurd h (by decide))).2 (Or.inr (by decide))

theorem keepsDRs_late : (oneDirty false 5).ndirty = (oneDirty false 5).dirtyKeys ∧
    (oneDirty false 5).TooWide 256 ∧ ¬ KeepsDRs (oneDirtyTree false 5) 1 0 256 1 0 := by
  refine ⟨by decide, by decide, ?_⟩
  rintro ⟨nd, y, s', nd', hx, hrun, hy, hkeep, -⟩
  obtain rfl : oneDirty false 5 = nd := Option.some.inj hx
  have hlost : ((setDR 1 0 256 1 0 (oneDirtyTree false 5)).bind fun r => r.2.heap r.1).map
      (fun nd => nd.dr 5) = some 0 := by decide
  rw [hrun, Option.bind_some, hy] at hlost
  have h0 : nd'.dr 5 = 0 := Option.some.inj hlost
  rw [hkeep 5 (by decide) (by decide)] at h0
  exact absurd h0 (by decide)

end AlchemyDB
