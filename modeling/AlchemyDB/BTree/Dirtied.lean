/-
# `AlchemyDB.BTree.Dirtied` — the tree with all its DRs

`drView` shows every entry with its DR, in a tree whose DRs are at most 255: then every
dirty stream is one byte wide and none is ever widened.  `ndirty` counts the slots of a
stream that are not zero, which is what makes `zeroDR` release a stream only when it is
empty.
-/
import Mathlib.Data.Finset.Insert
import Mathlib.Data.Finset.Card
import AlchemyDB.BTree.Clean

namespace AlchemyDB

open Store Weave

variable {α κ : Type} {t i j v : Nat} {nd : BtN α}

/-! ## One stream -/

/-- The largest DR of a stream one byte wide (`UCHAR_MAX`). -/
def ucharMax : Nat := 255

/-- A node whose stream is one byte wide, with the right count of the DRs that are not zero. -/
structure Streamed (nd : BtN α) : Prop where
  none : nd.dirty ≤ 0 → nd.ndirty = 0
  byte : ∀ i, nd.dr i ≤ ucharMax
  count : 0 < nd.dirty → ∃ S : Finset Nat, (∀ i, i ∈ S ↔ nd.ds i ≠ 0) ∧ S.card = nd.ndirty

namespace BtN

theorem widen_byte (h : v ≤ ucharMax) (t : Nat) (nd : BtN α) : nd.widen t v = nd := by
  have h1 : ¬ v > 255 := not_lt.2 h
  have h2 : ¬ v > 65535 := fun h' => h1 (lt_trans (by decide) h')
  simp only [widen, h1, h2, and_false, if_false]

theorem dr_dirty (h : 0 < nd.dirty) (i : Nat) : nd.dr i = nd.ds i := if_neg (not_le.2 h)

/-- Writing one DR into a stream writes that DR, and keeps the count. -/
theorem setDRRaw_streamed (S : Streamed nd) (h : 0 < nd.dirty) (hv : v ≤ ucharMax) (t i : Nat) :
    Streamed (nd.setDRRaw t i v) ∧ ∀ j, (nd.setDRRaw t i v).dr j = if j = i then v else nd.dr j := by
  obtain ⟨F, hF, hcard⟩ := S.count h
  -- the slots that are not zero afterwards
  obtain ⟨F', hF', hcard'⟩ : ∃ F' : Finset Nat, (∀ j, j ∈ F' ↔ upd nd.ds i v j ≠ 0) ∧ F'.card =
      if nd.ds i = 0 ∧ v ≠ 0 then nd.ndirty + 1
      else if nd.ds i ≠ 0 ∧ v = 0 then nd.ndirty - 1 else nd.ndirty := by
    by_cases hi : nd.ds i = 0
    · have hi' : i ∉ F := fun h => (hF i).1 h hi
      by_cases h0 : v = 0
      · refine ⟨F, fun j => ?_, by simp [hi, h0, hcard]⟩
        rw [hF]
        by_cases hj : j = i
        · simp [hj, hi, h0]
        · rw [upd_ne _ _ hj]
      · refine ⟨insert i F, fun j => ?_, by simp [hi, h0, hcard, Finset.card_insert_of_notMem hi']⟩
        rw [Finset.mem_insert, hF]
        by_cases hj : j = i
        · simp [hj, h0]
        · simp [hj]
    · have hi' : i ∈ F := (hF i).2 hi
      by_cases h0 : v = 0
      · refine ⟨F.erase i, fun j => ?_, by simp [hi, h0, hcard, Finset.card_erase_of_mem hi']⟩
        rw [Finset.mem_erase, hF]
        by_cases hj : j = i
        · simp [hj, h0]
        · simp [hj]
      · refine ⟨F, fun j => ?_, by simp [hi, h0, hcard]⟩
        rw [hF]
        by_cases hj : j = i
        · simp [hj, hi, h0]
        · rw [upd_ne _ _ hj]
  have hds : ∀ j, upd nd.ds i v j = if j = i then v else nd.dr j := by
    intro j
    rw [dr_dirty h]
    rfl
  have hraw : nd.setDRRaw t i v = if F'.card = 0 then
      { nd with dirty := 0, ndirty := 0, ds := fun _ => 0 }
      else { nd with ds := upd nd.ds i v, ndirty := F'.card } := by
    rw [setDRRaw, widen_byte hv, hcard']
    simp only [releaseDirtyStream]
    split_ifs <;> rfl
  rw [hraw]
  by_cases hz : F'.card = 0
  · have hall : ∀ j, upd nd.ds i v j = 0 := by
      intro j
      by_contra hj
      rw [Finset.card_eq_zero.1 hz] at hF'
      exact absurd ((hF' j).2 hj) (Finset.notMem_empty j)
    rw [if_pos hz]
    refine ⟨⟨fun _ => rfl, fun j => Nat.zero_le _, fun h => absurd h (by simp)⟩, fun j => ?_⟩
    rw [← hds, hall]
    rfl
  · rw [if_neg hz]
    have hdr : ∀ j, BtN.dr { nd with ds := upd nd.ds i v, ndirty := F'.card } j =
        if j = i then v else nd.dr j := fun j => (if_neg (not_le.2 h)).trans (hds j)
    refine ⟨⟨fun h' => absurd h' (not_le.2 h), fun j => ?_, fun _ => ⟨F', hF', rfl⟩⟩, hdr⟩
    rw [hdr]
    split_ifs
    · exact hv
    · exact S.byte j

theorem zDR_streamed (S : Streamed nd) (t i : Nat) :
    Streamed (nd.zDR t i) ∧ ∀ j, (nd.zDR t i).dr j = if j = i then 0 else nd.dr j := by
  unfold zDR
  split_ifs with h
  · refine ⟨S, fun j => ?_⟩
    rw [dr_clean h]
    split <;> rfl
  · exact setDRRaw_streamed S (not_le.1 h) (Nat.zero_le _) t i

theorem addDS_streamed (S : Streamed nd) (h : nd.dirty ≤ 0) : Streamed nd.addDS :=
  ⟨fun h => absurd h (by simp [addDS]), fun _ => by simp [addDS, dr],
    fun _ => ⟨∅, fun i => by simp [addDS], (S.none h).symm⟩⟩

theorem stDR_streamed (S : Streamed nd) (hv : v ≤ ucharMax) (h0 : v ≠ 0) (t i : Nat) :
    Streamed (nd.stDR t i v) ∧ ∀ j, (nd.stDR t i v).dr j = if j = i then v else nd.dr j := by
  unfold stDR
  rw [if_neg h0]
  split_ifs with h
  · obtain ⟨h1, h2⟩ := setDRRaw_streamed (addDS_streamed S h) (show 0 < nd.addDS.dirty by simp [addDS])
      hv t i
    refine ⟨h1, fun j => (h2 j).trans ?_⟩
    rw [dr_clean h]
    rfl
  · exact setDRRaw_streamed S (not_le.1 h) hv t i

end BtN

/-! ## The view -/

/-- Entries with their DRs.  `Q` holds of the entries of the tree, and with `c` the scions are the
numbers of the keys and of the rows evicted behind them. -/
def drView (t : Nat) (h : 2 ≤ t) (c : Prop) (Q : α × Nat → Prop) : View α (α × Nat) where
  t := t
  two_le := h
  P := Streamed
  fits v := v ≤ ucharMax
  see := Prod.mk
  ok := Q
  counts := c
  wt b := 1 + b.2
  wt_see _ _ _ := rfl
  shape := fun {nd nd'} hd hn hs S => by
    have hdr : ∀ i, nd'.dr i = nd.dr i := fun i => by simp only [BtN.dr, hd, hs]
    exact ⟨by rw [hd, hn]; exact S.none, fun i => (hdr i).trans_le (S.byte i),
      by rw [hd, hn, hs]; exact S.count⟩
  blank _ _ hn hs := ⟨fun _ => hn, fun i => by simp [BtN.dr, hs],
    fun _ => ⟨∅, fun i => by simp [hs], hn.symm⟩⟩
  zero i S := (BtN.zDR_streamed S t i).1
  set i v S hv := by
    by_cases h0 : v = 0
    · rw [h0, BtN.stDR_zero]
      exact S
    · exact (BtN.stDR_streamed S hv h0 t i).1
  fits_dr i S := S.byte i
  zero_dr i j S := (BtN.zDR_streamed S t i).2 j
  set_dr i v S hv h0 := by rw [(BtN.stDR_streamed S hv h0 t i).2, if_pos rfl]
  see_set_ne k i j v S hv hj _ := by
    by_cases h0 : v = 0
    · rw [h0, BtN.stDR_zero]
    · rw [(BtN.stDR_streamed S hv h0 t i).2, if_neg hj]

section View

variable {h : 2 ≤ t} {c : Prop} {Q : α × Nat → Prop}

@[simp] theorem drView_t : (drView t h c Q).t = t := rfl

theorem keyed_dr (h : 2 ≤ t) (c : Prop) (Q : α × Nat → Prop) (key : α → κ) :
    Keyed (drView t h c Q) key (fun b => key b.1) := ⟨fun _ _ => rfl⟩

/-- The reading of a tree. -/
theorem flat_dr (h : 2 ≤ t) (c : Prop) (Q : α × Nat → Prop) {d : Nat} (T : Sub α d) :
    T.flat (drView t h c Q) = T.cells := by
  rw [Sub.flat_cells]
  exact List.map_id _

/-- The view with another predicate on the entries. -/
theorem Owing.allow {Q' : α × Nat → Prop} {hp : Nat → Option (BtN α)} : ∀ {d : Nat} {T : Sub α d}
    {owe : Int}, Owing (drView t h c Q) hp owe T → (∀ b ∈ T.cells, Q' b) →
    Owing (drView t h c Q') hp owe T
  | _, .nil, _, _, _ => trivial
  | _, .node a nd kid, owe, g, hq => by
      have hmem : ∀ b, (∃ j < nd.n, (nd.keys j, nd.dr j) = b) ∨ (∃ j ≤ nd.n, b ∈ (kid j).cells) →
          b ∈ (Sub.node a nd kid).cells := by
        intro b hb
        rw [Sub.cells, mem_weave]
        rcases hb with ⟨j, hj, e⟩ | hb
        · exact .inl ⟨j, hj, e.symm⟩
        · exact .inr hb
      refine ⟨⟨g.node.live, g.node.leaf, g.node.link, g.node.fill, g.node.low, g.node.disc,
        fun j hj => hq _ (hmem _ (Or.inl ⟨j, hj, rfl⟩)), fun hc => ?_, g.node.apart, g.node.disj⟩,
        fun j hj => (g.kids j hj).allow fun b hb => hq b (hmem b (Or.inr ⟨j, hj, hb⟩))⟩
      have hs := g.node.sci hc
      rw [Sub.weight, flat_dr] at hs ⊢
      exact hs

/-- The predicate on the entries may be changed to any that holds of them. -/
theorem Whole.allow {Q' : α × Nat → Prop} {s : Bt α} {d : Nat} {T : Sub α (d + 1)}
    (W : Whole (drView t h c Q) s T) (hq : ∀ b ∈ T.cells, Q' b) : Whole (drView t h c Q') s T :=
  ⟨W.good.allow hq, W.root, W.bound, W.kept, W.inner⟩

end View

end AlchemyDB
