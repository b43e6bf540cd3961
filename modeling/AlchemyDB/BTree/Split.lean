/-
# `AlchemyDB.BTree.Split` — `btreesplitchild`

A full kid is cut at its median.  The places the code passes for the parent and
for the new node are wrong, so the step is right only if neither is relocated:
`HalfSafe` says when the new node keeps the dirty stream it was allocated with,
`MedianSafe` when the parent has a stream for the DR of the median, if there is
one.
-/
import AlchemyDB.BTree.Insert
import AlchemyDB.BTree.Merge

namespace AlchemyDB

open Store Weave

variable {α β : Type} {d : Nat}

/-! ## Nodes that keep their stream -/

/-- The upper half of a full node does not lose the stream of the node it goes to:
either its first DR is not zero, or none is. -/
def HalfSafe (t : Nat) (ny : BtN α) : Prop :=
  ny.dr t ≠ 0 ∨ ∀ j, t < j → j < 2 * t - 1 → ny.dr j = 0

/-- The stream of `nd` is there after the keys from slot `i` on have moved up; the slot
behind the last key is cleared by this move. -/
def Lasting (nd : BtN α) (i : Nat) : Prop :=
  ¬ nd.dirty ≤ 0 ∧ (i = nd.n ∨ (0 < nd.ndirty ∧ nd.ds nd.n = 0) ∨ 1 < nd.ndirty)

/-- The median of `ny` has no DR, or the parent has a stream for it. -/
def MedianSafe (t : Nat) (nd ny : BtN α) (i : Nat) : Prop :=
  ny.dr (t - 1) = 0 ∨ Lasting nd i

/-- The lower half of a full node keeps its stream: not all the DRs counted in it are
among those of the median and the upper half. -/
def LowerLasts (t : Nat) (ny : BtN α) : Prop :=
  ¬ ny.dirty ≤ 0 ∧ (List.range t).countP (fun j => ny.dr (t - 1 + j) ≠ 0) < ny.ndirty

namespace BtN

/-- Two nodes with the same dirty stream. -/
def SameDs (nd' nd : BtN α) : Prop :=
  nd'.dirty = nd.dirty ∧ nd'.ndirty = nd.ndirty ∧ nd'.ds = nd.ds

theorem SameDs.dr {nd' nd : BtN α} (h : SameDs nd' nd) : nd'.dr = nd.dr := by
  funext j
  simp only [BtN.dr, h.1, h.2.2]

section Stays

variable {t i v : Nat} {nd : BtN α}

theorem widen_zero : nd.widen t 0 = nd := by
  simp [widen]

/-- Widening loses DRs, but keeps the stream and its count. -/
theorem incrDs_spec (hd : ¬ nd.dirty ≤ 0) : ¬ (nd.incrDs t).dirty ≤ 0 ∧
    (nd.incrDs t).ndirty = nd.ndirty ∧
    ∀ j, (nd.incrDs t).ds j = nd.ds j ∨ (nd.incrDs t).ds j = 0 := by
  refine ⟨?_, rfl, fun j => ?_⟩
  · simp only [incrDs]
    omega
  · simp only [incrDs]
    generalize (if nd.leaf = true then t * 2 else t) = num
    split_ifs
    · exact Or.inl rfl
    · exact Or.inr rfl

theorem widen_spec (hd : ¬ nd.dirty ≤ 0) : ¬ (nd.widen t v).dirty ≤ 0 ∧
    (nd.widen t v).ndirty = nd.ndirty ∧
    ∀ j, (nd.widen t v).ds j = nd.ds j ∨ (nd.widen t v).ds j = 0 := by
  have step : ∀ (w : BtN α) (c : Prop) [Decidable c], ¬ w.dirty ≤ 0 →
      ¬ (if c then w.incrDs t else w).dirty ≤ 0 ∧
      (if c then w.incrDs t else w).ndirty = w.ndirty ∧
      ∀ j, (if c then w.incrDs t else w).ds j = w.ds j ∨
        (if c then w.incrDs t else w).ds j = 0 := by
    intro w c _ hw
    split_ifs
    · exact incrDs_spec hw
    · exact ⟨hw, rfl, fun j => Or.inl rfl⟩
  obtain ⟨a1, a2, a3⟩ := step nd (nd.dirty = 1 ∧ v > 255) hd
  obtain ⟨b1, b2, b3⟩ := step _ ((if nd.dirty = 1 ∧ v > 255 then nd.incrDs t else nd).dirty = 2 ∧
    v > 65535) a1
  refine ⟨b1, b2.trans a2, fun j => ?_⟩
  rcases b3 j with h | h
  · exact (a3 j).imp h.trans h.trans
  · exact Or.inr h

/-- A stream with a DR elsewhere is there after a DR has been zeroed. -/
theorem zDR_stays (hd : ¬ nd.dirty ≤ 0) (hn : 0 < nd.ndirty) (hi : nd.ds i ≠ 0 → 1 < nd.ndirty) :
    ¬ (nd.zDR t i).dirty ≤ 0 ∧ 0 < (nd.zDR t i).ndirty ∧ (nd.zDR t i).ds = upd nd.ds i 0 ∧
      (nd.zDR t i).ndirty = nd.ndirty - if nd.ds i = 0 then 0 else 1 := by
  by_cases h : nd.ds i = 0
  · have he : nd.zDR t i = { nd with ds := upd nd.ds i 0 } := by
      simp [zDR, hd, setDRRaw, widen_zero, h, Nat.pos_iff_ne_zero.1 hn]
    rw [he]
    exact ⟨hd, hn, rfl, by simp [h]⟩
  · have h1 := hi h
    have he : nd.zDR t i = { nd with ds := upd nd.ds i 0, ndirty := nd.ndirty - 1 } := by
      simp [zDR, hd, setDRRaw, widen_zero, h, show nd.ndirty - 1 ≠ 0 by omega]
    rw [he]
    exact ⟨hd, show 0 < nd.ndirty - 1 by omega, rfl, by simp [h]⟩

/-- A stream that gets a DR is there. -/
theorem stDR_stays (hd : ¬ nd.dirty ≤ 0) (hv : v ≠ 0) (hi : nd.ds i = 0 ∨ 0 < nd.ndirty) :
    ¬ (nd.stDR t i v).dirty ≤ 0 ∧ 0 < (nd.stDR t i v).ndirty ∧
      nd.ndirty ≤ (nd.stDR t i v).ndirty ∧
      (nd.ds i = 0 → nd.ndirty < (nd.stDR t i v).ndirty) ∧
      ∀ j, j ≠ i → (nd.stDR t i v).ds j = nd.ds j ∨ (nd.stDR t i v).ds j = 0 := by
  obtain ⟨w1, w2, w3⟩ := widen_spec (t := t) (v := v) hd
  rw [stDR, if_neg hv, if_neg hd, setDRRaw]
  simp only
  generalize nd.widen t v = w at w1 w2 w3
  have hds : nd.ds i = 0 → w.ds i = 0 := fun h => by
    rcases w3 i with h' | h'
    · rw [h', h]
    · exact h'
  by_cases h : w.ds i = 0
  · simp only [h, ne_eq, hv, not_false_eq_true, and_self, if_true, Nat.add_one_ne_zero, if_false]
    exact ⟨w1, by omega, by omega, fun _ => by omega, fun j hj => by
      simp only [upd_ne _ _ hj]
      exact w3 j⟩
  · have hn : 0 < nd.ndirty := hi.resolve_left fun h' => h (hds h')
    have h0 : w.ndirty ≠ 0 := by omega
    simp only [h, ne_eq, hv, false_and, not_false_eq_true, and_false, if_false, if_neg h0]
    exact ⟨w1, by omega, by omega, fun h' => absurd (hds h') h, fun j hj => by
      simp only [upd_ne _ _ hj]
      exact w3 j⟩

/-- A slot that is free, in a stream that is not. -/
def Roomy (nd : BtN α) (i : Nat) : Prop := ¬ nd.dirty ≤ 0 ∧ 0 < nd.ndirty ∧ nd.ds i = 0

/-- A round of `setBTKey` within a node hands the free slot on. -/
theorem cpIn_roomy {di si : Nat} (hne : si ≠ di) (hd : ¬ nd.dirty ≤ 0)
    (h : (0 < nd.ndirty ∧ nd.ds di = 0) ∨ 1 < nd.ndirty) : Roomy (nd.cpIn t di si) si := by
  have hdr : nd.dr si = nd.ds si := by simp [dr, hd]
  have key : ∀ w : BtN α, ¬ w.dirty ≤ 0 → 0 < w.ndirty → (w.ds si ≠ 0 → 1 < w.ndirty) →
      Roomy ((w.zDR t si).setKey di (nd.keys si)) si := by
    intro w h1 h2 h3
    obtain ⟨z1, z2, z3, -⟩ := zDR_stays (t := t) (i := si) h1 h2 h3
    exact ⟨z1, z2, by rw [setKey, z3]; exact upd_same _ _ _⟩
  unfold cpIn owDR
  split_ifs with h0
  · obtain ⟨s1, s2, s3, s4, s5⟩ := stDR_stays (t := t) (i := di) (v := nd.dr si) hd h0
      (h.imp (fun h' => h'.2) (fun h' => by omega))
    refine key _ s1 s2 (fun _ => ?_)
    rcases h with ⟨h1, h2⟩ | h1
    · have := s4 h2
      omega
    · omega
  · have hs : nd.ds si = 0 := by rw [← hdr]; exact not_not.1 h0
    obtain ⟨z1, z2, z3, z4⟩ := zDR_stays (t := t) (i := di) hd (by omega)
      (fun hne' => h.resolve_left fun h' => hne' h'.2)
    refine key _ z1 z2 (fun h' => absurd ?_ h')
    rw [z3, upd_ne _ _ hne, hs]

/-- The stream of a `Lasting` node is there after the shift. -/
theorem shift_dirty {n : Nat} (h : Lasting nd i) (hn : nd.n = n) :
    ¬ ((List.range (n - i)).reverse.foldl (fun nd m => nd.cpIn t (i + 1 + m) (i + m))
      nd).dirty ≤ 0 := by
  have key : ∀ (m : Nat) (w : BtN α), ¬ w.dirty ≤ 0 →
      ((0 < w.ndirty ∧ w.ds (i + m) = 0) ∨ 1 < w.ndirty ∨ m = 0) →
      ¬ ((List.range m).reverse.foldl (fun nd m => nd.cpIn t (i + 1 + m) (i + m)) w).dirty ≤ 0 := by
    intro m
    induction m with
    | zero => exact fun w hw _ => hw
    | succ m ih =>
        intro w hw h
        rw [List.range_succ, List.reverse_append, List.reverse_singleton, List.singleton_append,
          List.foldl_cons]
        have hr : Roomy (w.cpIn t (i + 1 + m) (i + m)) (i + m) := cpIn_roomy (by omega) hw (by
          rw [show i + 1 + m = i + (m + 1) by omega]
          rcases h with h | h | h
          · exact Or.inl h
          · exact Or.inr h
          · omega)
        exact ih _ hr.1 (Or.inl hr.2)
  obtain ⟨hd, h⟩ := h
  refine key _ nd hd ?_
  rcases h with rfl | h | h
  · exact Or.inr (Or.inr (by omega))
  · by_cases hi : i ≤ n
    · rw [Nat.add_sub_cancel' hi, ← hn]
      exact Or.inl h
    · exact Or.inr (Or.inr (by omega))
  · exact Or.inr (Or.inl h)

/-- A round of the loop of `splitKeys`, on the contents of the new node and of the old
one. -/
def halfStep (t : Nat) (w : BtN α × BtN α) (j : Nat) : BtN α × BtN α :=
  (w.1.cpDst t w.2 j (j + t) true, w.2.zDR t (j + t))

/-- The new node has got at least one DR, and its slots from `m` on are free. -/
def Begun (nd : BtN α) (m : Nat) : Prop :=
  ¬ nd.dirty ≤ 0 ∧ 0 < nd.ndirty ∧ ∀ j, m ≤ j → nd.ds j = 0

theorem cpDst_begun {ns : BtN α} {m si : Nat} (hd : ¬ nd.dirty ≤ 0) (hz : ∀ j, m ≤ j → nd.ds j = 0)
    (h : 0 < nd.ndirty ∨ ns.dr si ≠ 0) : Begun (nd.cpDst t ns m si true) (m + 1) := by
  simp only [cpDst, if_true, owDR]
  split_ifs with hv
  · obtain ⟨s1, s2, -, -, s5⟩ := stDR_stays (t := t) (v := ns.dr si) hd hv (Or.inl (hz m (le_refl m)))
    refine ⟨s1, s2, fun j hj => ?_⟩
    rcases s5 j (by omega) with e | e
    · exact e.trans (hz j (by omega))
    · exact e
  · have hn := h.resolve_right hv
    obtain ⟨z1, z2, z3, -⟩ := zDR_stays (t := t) (i := m) hd hn (absurd (hz m (le_refl m)))
    refine ⟨z1, z2, fun j hj => ?_⟩
    show (nd.zDR t m).ds j = 0
    rw [z3, upd_ne _ _ (by omega), hz j (by omega)]

end Stays

end BtN

/-- What the first rounds of `splitKeys` leave: the DRs not yet taken, and in the new node
a stream, if there is a first DR. -/
theorem half_begun {V : View α β} {nz ny : BtN α} (hP : V.P ny) (hd : nz.dirty = ny.dirty)
    (hz : nz.ds = fun _ => 0) (m : Nat) :
    V.P ((List.range m).foldl (BtN.halfStep V.t) (nz, ny)).2 ∧
    (∀ j, j < V.t ∨ m + V.t ≤ j →
      ((List.range m).foldl (BtN.halfStep V.t) (nz, ny)).2.dr j = ny.dr j) ∧
    (ny.dr V.t ≠ 0 → ¬ ((List.range m).foldl (BtN.halfStep V.t) (nz, ny)).1.dirty ≤ 0 ∧
      (0 < m → 0 < ((List.range m).foldl (BtN.halfStep V.t) (nz, ny)).1.ndirty) ∧
      ∀ j, m ≤ j → ((List.range m).foldl (BtN.halfStep V.t) (nz, ny)).1.ds j = 0) := by
  induction m with
  | zero =>
      refine ⟨hP, fun j _ => rfl, fun h0 => ⟨?_, fun h => absurd h (Nat.lt_irrefl 0), fun j _ => ?_⟩⟩
      · show ¬ nz.dirty ≤ 0
        rw [hd]
        exact BtN.dirty_of_dr h0
      · show nz.ds j = 0
        rw [hz]
  | succ m ih =>
      obtain ⟨h1, h2, h3⟩ := ih
      rw [List.range_succ, List.foldl_append]
      generalize (List.range m).foldl (BtN.halfStep V.t) (nz, ny) = w at h1 h2 h3
      refine ⟨V.zero _ h1, fun j hj => ?_, fun h0 => ?_⟩
      · show (w.2.zDR V.t (m + V.t)).dr j = ny.dr j
        rw [V.zero_dr _ _ h1, if_neg (by omega), h2 j (by omega)]
      · obtain ⟨a1, a2, a3⟩ := h3 h0
        have hb : BtN.Begun (w.1.cpDst V.t w.2 m (m + V.t) true) (m + 1) := by
          refine BtN.cpDst_begun a1 a3 ?_
          rcases Nat.eq_zero_or_pos m with rfl | hm
          · rw [h2 _ (Or.inr (le_refl _)), Nat.zero_add]
            exact Or.inr h0
          · exact Or.inl (a2 hm)
        exact ⟨hb.1, fun _ => hb.2.1, hb.2.2⟩

/-- The new node is never without a stream when it gets a DR. -/
theorem half_dirty {V : View α β} {nz ny : BtN α} (hP : V.P ny) (hd : nz.dirty = ny.dirty)
    (hz : nz.ds = fun _ => 0) (hs : HalfSafe V.t ny) {m : Nat} (hm : m < V.t - 1)
    (h : (((List.range m).foldl (BtN.halfStep V.t) (nz, ny)).2).dr (m + V.t) ≠ 0) :
    ¬ (((List.range m).foldl (BtN.halfStep V.t) (nz, ny)).1).dirty ≤ 0 := by
  obtain ⟨-, h2, h3⟩ := half_begun hP hd hz m
  rw [h2 _ (Or.inr (le_refl _))] at h
  rcases Nat.eq_zero_or_pos m with rfl | hm0
  · rw [Nat.zero_add] at h
    exact (h3 h).1
  · rcases hs with hs | hs
    · exact (h3 hs).1
    · exact absurd (hs _ (by omega) (by omega)) h

/-- The old node keeps its stream in `splitKeys` while more DRs are counted in it than it
has given away. -/
theorem half_lasts {V : View α β} {nz ny : BtN α} (hP : V.P ny) (hd : nz.dirty = ny.dirty)
    (hz : nz.ds = fun _ => 0) (hy : ¬ ny.dirty ≤ 0) {m : Nat}
    (h : (List.range m).countP (fun j => ny.dr (V.t + j) ≠ 0) < ny.ndirty) :
    ¬ ((List.range m).foldl (BtN.halfStep V.t) (nz, ny)).2.dirty ≤ 0 ∧
    ((List.range m).foldl (BtN.halfStep V.t) (nz, ny)).2.ndirty +
      (List.range m).countP (fun j => ny.dr (V.t + j) ≠ 0) = ny.ndirty := by
  induction m with
  | zero => exact ⟨hy, rfl⟩
  | succ m ih =>
      have hcnt : (List.range (m + 1)).countP (fun j => ny.dr (V.t + j) ≠ 0) =
          (List.range m).countP (fun j => ny.dr (V.t + j) ≠ 0) +
            if ny.dr (V.t + m) = 0 then 0 else 1 := by
        rw [List.range_succ, List.countP_append, List.countP_singleton]
        by_cases h0 : ny.dr (V.t + m) = 0 <;> simp [h0]
      rw [hcnt] at h ⊢
      generalize (List.range m).countP (fun j => ny.dr (V.t + j) ≠ 0) = c at h ih
      obtain ⟨h1, h2⟩ := ih (by omega)
      obtain ⟨-, h3, -⟩ := half_begun hP hd hz m
      have h4 := h3 (m + V.t) (Or.inr (le_refl _))
      rw [List.range_succ, List.foldl_append]
      generalize (List.range m).foldl (BtN.halfStep V.t) (nz, ny) = w at h1 h2 h4
      have h5 : w.2.ds (m + V.t) = ny.dr (V.t + m) := by
        rw [Nat.add_comm V.t, ← h4]
        simp [BtN.dr, h1]
      have hz' := BtN.zDR_stays (t := V.t) (i := m + V.t) h1 (by omega) (fun h6 => by
        rw [h5] at h6
        rw [if_neg h6] at h
        omega)
      rw [h5] at hz'
      refine ⟨hz'.1, ?_⟩
      show (w.2.zDR V.t (m + V.t)).ndirty + _ = _
      rw [hz'.2.2.2]
      omega

/-! ## The parts of `btreesplitchild` -/

section Parts

variable {V : View α β} {J : Job Role α} {s : Bt α} {x y z : Nat} {nd ny nz : BtN α}

/-- The keys of the upper half go to the new node, which stays where it is. -/
theorem splitKeys_run (F : Focus J .up s (tri x y z) (tri nd ny nz)) (hV : J.s.t = V.t)
    (hP : V.P ny) (hd : nz.dirty = ny.dirty) (hz : nz.ds = fun _ => 0) (hs : HalfSafe V.t ny)
    (p pi : Nat) :
    ∃ s', splitKeys V.t z y p pi s = some (z, s') ∧ Focus J .up s' (tri x y z)
      (tri nd ((List.range (V.t - 1)).foldl (BtN.halfStep V.t) (nz, ny)).2
        ((List.range (V.t - 1)).foldl (BtN.halfStep V.t) (nz, ny)).1) := by
  have key : ∀ m ≤ V.t - 1, ∃ s', (List.range m).foldlM
      (fun z j => setBTKey z j y (j + V.t) true p pi) z s = some (z, s') ∧
      Focus J .up s' (tri x y z) (tri nd ((List.range m).foldl (BtN.halfStep V.t) (nz, ny)).2
        ((List.range m).foldl (BtN.halfStep V.t) (nz, ny)).1) := by
    intro m
    induction m with
    | zero => exact fun _ => ⟨s, rfl, F⟩
    | succ m ih =>
        intro hm
        obtain ⟨s₁, hr, F₁⟩ := ih (by omega)
        obtain ⟨s₂, hr', F₂⟩ := F₁.setBTKey_stay (r := .rt) (q := .lf) (by simp) m (m + V.t)
          (half_dirty hP hd hz hs (by omega)) p pi
        refine ⟨s₂, ?_, ?_⟩
        · rw [List.range_succ, List.foldlM_append, run_bind hr]
          simp only [List.foldlM_cons, List.foldlM_nil, bind_pure]
          exact hr'
        · rw [List.range_succ, List.foldl_append]
          simpa [hV, BtN.halfStep] using F₂
  exact key _ (Nat.le_refl _)

/-- The children of the upper half are live, with the scions `f`, throughout a run. -/
def UpperLive (J : Job Role α) (ny : BtN α) (t : Nat) (f : Nat → Int) : Prop :=
  ny.leaf = false → ∀ (s : Bt α) (ad : Role → Nat) (ct : Role → BtN α), Focus J .up s ad ct →
    ∀ j < t, ∃ c, s.heap (ny.nodes (j + t)) = some c ∧ c.scion = f j

/-- The children of the upper half go to the new node, with their scions. -/
theorem splitNodes_run {f : Nat → Int} {t : Nat}
    (F : Focus J .up s (tri x y z) (tri nd ny nz)) (hy : ny.leaf = false) (hz : nz.leaf = false)
    (hf : UpperLive J ny t f) :
    ∃ s', splitNodes t z y s = some ((), s') ∧ Focus J .up s' (tri x y z)
      (tri nd (ny.addSc (-((List.range t).map f).sum))
        ((nz.addSc ((List.range t).map f).sum).mvKids ny.nodes 0 t t)) := by
  have key : ∀ m ≤ t, ∃ s', ((List.range m).forM fun j => do
        let c ← getNode y (j + t)
        let nc ← getN c
        decrScion y nc.scion
        incrScion z nc.scion
        setNode z j c : BtM α Unit) s = some ((), s') ∧ Focus J .up s' (tri x y z)
      (tri nd (ny.addSc (-((List.range m).map f).sum))
        ((nz.addSc ((List.range m).map f).sum).mvKids ny.nodes 0 t m)) := by
    intro m
    induction m with
    | zero =>
        refine fun _ => ⟨s, rfl, ?_⟩
        simpa [BtN.addSc, BtN.mvKids] using F
    | succ m ih =>
        intro hm
        obtain ⟨s₁, hr, F₁⟩ := ih (by omega)
        obtain ⟨c, hc, hsc⟩ := hf hy _ _ _ F₁ m (by omega)
        generalize hS : ((List.range m).map f).sum = S at F₁
        have F₂ := F₁.putLf ((ny.addSc (-S)).addSc (-f m))
        have F₃ := F₂.putRt (((nz.addSc S).mvKids ny.nodes 0 t m).addSc (f m))
        have F₄ := F₃.putRt ((((nz.addSc S).mvKids ny.nodes 0 t m).addSc (f m)).setKid m
          (ny.nodes (m + t)))
        have h1 : (ny.addSc (-S)).addSc (-f m) =
            ny.addSc (-((List.range (m + 1)).map f).sum) := by
          simp only [BtN.addSc, List.range_succ, List.map_append, List.map_cons, List.map_nil,
            List.sum_append, hS, List.sum_cons, List.sum_nil]
          congr 1
          omega
        have h2 : (((nz.addSc S).mvKids ny.nodes 0 t m).addSc (f m)).setKid m
            (ny.nodes (m + t)) =
            (nz.addSc ((List.range (m + 1)).map f).sum).mvKids ny.nodes 0 t (m + 1) := by
          simp only [BtN.addSc, BtN.mvKids, BtN.setKid, List.range_succ, List.map_append,
            List.map_cons, List.map_nil, List.sum_append, hS, List.sum_cons, List.sum_nil]
          congr 1
          · omega
          · funext j
            simp only [upd_apply]
            split_ifs with ha hb hb hb <;> first | omega | (subst ha; congr 1; omega)
        have hct : tri nd ((ny.addSc (-S)).addSc (-f m)) ((((nz.addSc S).mvKids ny.nodes 0 t
            m).addSc (f m)).setKid m (ny.nodes (m + t))) = tri nd
            (ny.addSc (-((List.range (m + 1)).map f).sum))
            ((nz.addSc ((List.range (m + 1)).map f).sum).mvKids ny.nodes 0 t (m + 1)) := by
          rw [h1, h2]
        refine ⟨_, ?_, hct ▸ F₄⟩
        rw [List.forM_eq_forM] at hr ⊢
        rw [List.range_succ, List.forM_append, run_bind hr]
        simp only [List.forM_cons, List.forM_nil, bind_assoc]
        have hyn : getNode y (m + t) s₁ = some (ny.nodes (m + t), s₁) :=
          getNode_run F₁.lf hy (m + t)
        rw [run_bind hyn, run_bind (getN_run hc), hsc, run_bind (decrScion_run F₁.lf _)]
        rw [run_bind (incrScion_run F₂.rt _), run_bind (setNode_run F₃.rt hz _ _)]
        rfl
  exact key t (Nat.le_refl t)

/-- The children of the parent behind slot `i` move up. -/
theorem shiftNodesUp_run (h : s.heap x = some nd) (hl : nd.leaf = false) (i : Nat) :
    shiftNodesUp x i s =
      some ((), s.setHeap x (some (nd.mvKids nd.nodes (i + 2) (i + 1) (nd.n - i)))) := by
  have key : ∀ (m : Nat) (s : Bt α) (nd : BtN α), s.heap x = some nd → nd.leaf = false →
      ((List.range m).reverse.forM fun m => do
        let c ← getNode x (i + 1 + m)
        setNode x (i + 1 + m + 1) c : BtM α Unit) s =
        some ((), s.setHeap x (some (nd.mvKids nd.nodes (i + 2) (i + 1) m))) := by
    intro m
    induction m with
    | zero =>
        intro s nd h _
        have hk : nd.mvKids nd.nodes (i + 2) (i + 1) 0 = nd := by
          simp only [BtN.mvKids, Nat.add_zero]
          congr 1
          funext j
          rw [if_neg (by omega)]
        rw [hk, Bt.setHeap, ← h, upd_self]
        rfl
    | succ m ih =>
        intro s nd h hl
        rw [List.range_succ, List.reverse_append, List.reverse_singleton, List.singleton_append]
        simp only [List.forM, bind_assoc]
        have h' : (s.setHeap x (some (nd.setKid (i + 1 + m + 1) (nd.nodes (i + 1 + m))))).heap x =
            some (nd.setKid (i + 1 + m + 1) (nd.nodes (i + 1 + m))) := by simp
        rw [run_bind (getNode_run h hl _), run_bind (setNode_run h hl _ _), ih _ _ h' hl,
          Bt.setHeap_setHeap]
        congr 4
        simp only [BtN.mvKids, BtN.setKid]
        congr 1
        funext j
        simp only [upd_apply]
        split_ifs <;> first | omega | rfl | (congr 1; omega)
  simp only [shiftNodesUp, run_bind (getN_run h)]
  exact key _ s nd h hl

/-- The keys of the parent from slot `i` on move up. -/
theorem shiftKeysUp_run (h : s.heap x = some nd) (i p pi : Nat) :
    shiftKeysUp x i p pi s = some (x, s.setHeap x (some
      ((List.range (nd.n - i)).reverse.foldl (fun nd m => nd.cpIn s.t (i + 1 + m) (i + m)) nd))) := by
  have key : ∀ (l : List Nat) (s' : Bt α) (nd' : BtN α), s'.heap x = some nd' →
      l.foldlM (fun x m => setBTKey x (i + m + 1) x (i + m) true p pi) x s' =
        some (x, s'.setHeap x (some
          (l.foldl (fun nd m => nd.cpIn s'.t (i + 1 + m) (i + m)) nd'))) := by
    intro l
    induction l with
    | nil =>
        intro s' nd' h'
        simp [Bt.setHeap, ← h']
    | cons m l ih =>
        intro s' nd' h'
        have hx : (s'.setHeap x (some (nd'.cpIn s'.t (i + m + 1) (i + m)))).heap x =
            some (nd'.cpIn s'.t (i + m + 1) (i + m)) := by simp
        rw [List.foldlM_cons, run_bind (setBTKey_in h' _ _ p pi), ih _ _ hx, List.foldl_cons,
          Bt.setHeap_setHeap, show i + m + 1 = i + 1 + m by omega, Bt.setHeap_t]
  simp only [shiftKeysUp, run_bind (getN_run h)]
  exact key _ s nd h

/-- The children of the upper half; a leaf has none. -/
theorem splitKids_run {f : Nat → Int} {t : Nat}
    (F : Focus J .up s (tri x y z) (tri nd ny nz)) (hPy : V.P ny) (hPz : V.P nz)
    (hl : nz.leaf = ny.leaf) (hf : UpperLive J ny t f) :
    ∃ s' ny' nz', unlessLeaf ny.leaf (splitNodes t z y) s = some ((), s') ∧
      Focus J .up s' (tri x y z) (tri nd ny' nz') ∧ V.P ny' ∧ V.P nz' ∧
      (ny'.n = ny.n ∧ ny'.leaf = ny.leaf ∧ ny'.nodes = ny.nodes ∧ ny'.keys = ny.keys ∧
        BtN.SameDs ny' ny) ∧
      (nz'.n = nz.n ∧ nz'.leaf = nz.leaf ∧ nz'.keys = nz.keys ∧ BtN.SameDs nz' nz ∧
        (ny.leaf = false → ∀ j < t, nz'.nodes j = ny.nodes (t + j))) ∧
      ny'.scion = ny.scion - (if ny.leaf then 0 else ((List.range t).map f).sum) ∧
      nz'.scion = nz.scion + (if ny.leaf then 0 else ((List.range t).map f).sum) := by
  cases hy : ny.leaf with
  | true =>
      exact ⟨s, ny, nz, rfl, F, hPy, hPz, ⟨rfl, hy, rfl, rfl, rfl, rfl, rfl⟩,
        ⟨rfl, rfl, rfl, ⟨rfl, rfl, rfl⟩, by simp⟩, by simp, by simp⟩
  | false =>
      obtain ⟨s', hr, F'⟩ := splitNodes_run F hy (hl.trans hy) hf
      refine ⟨s', _, _, hr, F', View.P_addSc _ hPy, View.P_mvKids (View.P_addSc _ hPz),
        ⟨rfl, hy, rfl, rfl, rfl, rfl, rfl⟩, ⟨rfl, rfl, rfl, ⟨rfl, rfl, rfl⟩, fun _ j hj => ?_⟩, ?_,
        rfl⟩
      · have hk : ((nz.addSc ((List.range t).map f).sum).mvKids ny.nodes 0 t t).nodes (0 + j) =
            ny.nodes (t + j) := BtN.mvKids_in hj
        rwa [Nat.zero_add] at hk
      · simp only [BtN.addSc_scion, Bool.false_eq_true, if_false]
        omega

end Parts

/-! ## The split -/

section Split

variable {V : View α β} {s : Bt α} {x p pi i y : Nat} {nd ny : BtN α}
  {kid : Nat → Sub α (d + 1)} {ky : Nat → Sub α d}

/-- The block `btreesplitchild` allocates, once its `leaf` is set. -/
def freshNode [Inhabited α] (ny : BtN α) : BtN α :=
  { scion := 0, n := 0, leaf := ny.leaf, dirty := ny.dirty, ndirty := 0,
    keys := fun _ => default, nodes := fun _ => 0, ds := fun _ => 0 }

theorem alloc_run [Inhabited α] {γ : Type} (ny : BtN α) (f : Nat → BtM α γ) :
    (do
      let z ← allocbtreenode ny.dirty
      modN z (fun nd => { nd with leaf := ny.leaf })
      f z : BtM α γ) s = f s.next (s.withNode (freshNode ny)) := by
  simp [allocbtreenode, mallocN, modN, getN, setN, bind, StateT.bind, Bt.setHeap, Bt.withNode,
    freshNode]

/-- A good subtree does not notice the allocation. -/
theorem Owing.withNode {T : Sub α d} (g : Good V s.heap T) (hb : ∀ b, s.heap b ≠ none → b < s.next)
    (nz : BtN α) : Good V (s.withNode nz).heap T := by
  refine g.frame (fun b hmem => ?_)
  have := hb b (g.live b hmem)
  exact upd_ne _ _ (by omega)

/-- The weight of the upper half of a full node, in the numbers the code adds up. -/
theorem upper_weight (g : Good V s.heap (Sub.node y ny ky)) (hc : V.counts) {m o : Nat}
    (ho : o + m ≤ ny.n) :
    ((weave m (fun j => V.entry ny (o + j)) (fun j => (ky (o + j)).flat V)).map V.wt).sum =
      ((List.range m).map (fun j => V.wt (V.entry ny (o + j)))).sum +
        if ny.leaf then 0 else ((List.range (m + 1)).map (fun j => (ky (o + j)).scion)).sum := by
  rw [sum_weave]
  congr 1
  have hs : ((List.range (m + 1)).map (fun j => (((ky (o + j)).flat V).map V.wt).sum)).sum =
      ((List.range (m + 1)).map (fun j => (ky (o + j)).scion)).sum := by
    congr 1
    refine List.map_congr_left (fun j hj => ?_)
    have := List.mem_range.1 hj
    exact ((g.kids (o + j) (by omega)).scion hc).symm
  rw [hs]
  split_ifs with hl
  · obtain rfl : d = 0 := g.node.leaf.1 hl
    refine List.sum_eq_zero (fun n hn => ?_)
    obtain ⟨j, _, rfl⟩ := List.mem_map.1 hn
    cases ky (o + j)
    rfl
  · rfl

/-- The contents after a split: the parent `nd'`, with the median in slot `i` and the
new node `z` behind it, and the two halves `ny'` and `nz'`.  The children of the upper
half have the scions `f`. -/
structure Halved (V : View α β) (nd ny nd' ny' nz' : BtN α) (i z : Nat) (f : Nat → Int) :
    Prop where
  upDisc : V.P nd'
  upN : nd'.n = nd.n + 1
  upLeaf : nd'.leaf = nd.leaf
  upScion : nd'.scion = nd.scion
  entL : ∀ j < i, V.entry nd' j = V.entry nd j
  entI : V.entry nd' i = V.entry ny (V.t - 1)
  entR : ∀ j, i ≤ j → j < nd.n → V.entry nd' (j + 1) = V.entry nd j
  nodL : ∀ j ≤ i, nd'.nodes j = nd.nodes j
  nodI : nd'.nodes (i + 1) = z
  nodR : ∀ j, i < j → j ≤ nd.n → nd'.nodes (j + 1) = nd.nodes j
  lfDisc : V.P ny'
  lfN : ny'.n = V.t - 1
  lfLeaf : ny'.leaf = ny.leaf
  lfEnt : ∀ j < V.t - 1, V.entry ny' j = V.entry ny j
  lfNod : ny'.nodes = ny.nodes
  lfLast : LowerLasts V.t ny → ∀ j, Lasting ny' j
  lfScion : V.counts → ny'.scion =
    ny.scion - ((List.range (V.t - 1)).map (fun j => V.wt (V.entry ny (V.t + j)))).sum -
      (if ny.leaf then 0 else ((List.range V.t).map f).sum) - V.wt (V.entry ny (V.t - 1))
  rtDisc : V.P nz'
  rtN : nz'.n = V.t - 1
  rtLeaf : nz'.leaf = ny.leaf
  rtEnt : ∀ j < V.t - 1, V.entry nz' j = V.entry ny (V.t + j)
  rtNod : ny.leaf = false → ∀ j < V.t, nz'.nodes j = ny.nodes (V.t + j)
  rtLast : ny.dr V.t ≠ 0 → ∀ j, Lasting nz' j
  rtScion : V.counts → nz'.scion =
    ((List.range (V.t - 1)).map (fun j => V.wt (V.entry ny (V.t + j)))).sum +
      if ny.leaf then 0 else ((List.range V.t).map f).sum

/-- The new node after its keys have come. -/
theorem half_filled [Inhabited α] (hP : V.P ny) (hfull : ny.n = 2 * V.t - 1)
    (hok : ∀ j < ny.n, V.ok (V.entry ny j)) :
    ∃ nz₁ ny₁, (List.range (V.t - 1)).foldl (BtN.halfStep V.t) (freshNode ny, ny) = (nz₁, ny₁) ∧
      V.P nz₁ ∧ BtN.Like nz₁ (freshNode ny) ∧ V.P ny₁ ∧ BtN.Like ny₁ ny ∧ ny₁.keys = ny.keys ∧
      (∀ j < V.t - 1, V.entry nz₁ j = V.entry ny (V.t + j)) ∧
      (∀ j < V.t, ny₁.dr j = ny.dr j) ∧
      (ny.dr V.t ≠ 0 → BtN.Begun nz₁ (V.t - 1)) ∧
      (LowerLasts V.t ny → ¬ ny₁.dirty ≤ 0 ∧
        (if ny.dr (V.t - 1) = 0 then 0 else 1) < ny₁.ndirty) ∧
      (V.counts → ((List.range (V.t - 1)).map (fun j => 1 + (nz₁.dr j : Int))).sum =
        ((List.range (V.t - 1)).map (fun j => V.wt (V.entry ny (V.t + j)))).sum) := by
  obtain ⟨nz₁, ny₁, hfold, hPz, hLz, hPy, hLy, hk, hez, hdy⟩ := View.pass_up
    (f := BtN.halfStep V.t) (fun nd ns m h h' => View.passed_cp true m (m + V.t) h h' (by simp))
    (V.t - 1) (freshNode ny) ny (V.blank hP rfl rfl rfl) hP
  have hent : ∀ j < V.t - 1, V.entry nz₁ j = V.entry ny (V.t + j) := by
    intro j hj
    rw [hez j hj (hok _ (by omega)), Nat.add_comm]
  have h2 := V.two_le
  refine ⟨nz₁, ny₁, hfold, hPz, hLz, hPy, hLy, hk, hent, fun j hj => hdy j (Or.inl hj), ?_, ?_, ?_⟩
  · intro h0
    obtain ⟨-, -, h⟩ := half_begun hP (rfl : (freshNode ny).dirty = ny.dirty) rfl (V.t - 1)
    rw [hfold] at h
    exact ⟨(h h0).1, (h h0).2.1 (by omega), (h h0).2.2⟩
  · rintro ⟨hd, hcnt⟩
    obtain ⟨m, hm⟩ : ∃ m, V.t = m + 1 := ⟨V.t - 1, by omega⟩
    have hc : (List.range V.t).countP (fun j => ny.dr (V.t - 1 + j) ≠ 0) =
        (if ny.dr (V.t - 1) = 0 then 0 else 1) +
          (List.range (V.t - 1)).countP (fun j => ny.dr (V.t + j) ≠ 0) := by
      rw [hm, Nat.add_sub_cancel, List.range_succ_eq_map, List.countP_cons, List.countP_map,
        Nat.add_comm]
      congr 1
      · by_cases h0 : ny.dr m = 0 <;> simp [h0]
      · congr 1
        funext j
        simp only [Function.comp]
        rw [show m + j.succ = m + 1 + j by omega]
    obtain ⟨h3, h4⟩ := half_lasts hP (rfl : (freshNode ny).dirty = ny.dirty) rfl hd
      (m := V.t - 1) (by omega)
    rw [hfold] at h3 h4
    simp only at h4
    exact ⟨h3, by omega⟩
  intro hc
  congr 1
  refine List.map_congr_left (fun j hj => ?_)
  rw [← hent j (List.mem_range.1 hj)]
  exact (V.wt_see hc _ _).symm

theorem split_focus [Inhabited α] {J : Job Role α} {s : Bt α} {z : Nat} {f : Nat → Int}
    (F : Focus J .up s (tri x y z) (tri nd ny (freshNode ny))) (hV : J.s.t = V.t)
    (hP : V.P nd) (hok : ∀ j < nd.n, V.ok (V.entry nd j)) (hx : nd.leaf = false) (hi : i ≤ nd.n)
    (hPy : V.P ny) (hoky : ∀ j < ny.n, V.ok (V.entry ny j)) (hfull : ny.n = 2 * V.t - 1)
    (hf : UpperLive J ny V.t f) (hs : HalfSafe V.t ny) (hm : MedianSafe V.t nd ny i) (q qi : Nat) :
    ∃ s' nd' ny' nz', (do
        let z ← splitKeys V.t z y q qi
        let sc ← getScionRange z 0 (V.t - 1)
        modN z (fun nd => { nd with scion := sc })
        decrScion y sc
        modN z (fun nd => { nd with n := V.t - 1 })
        modN y (fun nd => { nd with n := nd.n - (V.t - 1) })
        unlessLeaf ny.leaf (splitNodes V.t z y)
        shiftNodesUp x i
        setNode x (i + 1) z
        let x ← shiftKeysUp x i q qi
        let ndy ← getN y
        decrScion y (1 + ndy.dr (ndy.n - 1))
        let x ← setBTKey x i y (ndy.n - 1) true q qi
        modN x (fun nd => { nd with n := nd.n + 1 })
        let _ ← trimBTN y false
        pure () : BtM α Unit) s = some ((), s') ∧
      Focus J .up s' (tri x y z) (tri nd' ny' nz') ∧ Halved V nd ny nd' ny' nz' i z f := by
  have h2 := V.two_le
  obtain ⟨s₁, hk, F₁⟩ := splitKeys_run F hV hPy rfl rfl hs q qi
  obtain ⟨nz₁, ny₁, hfold, hPz₁, hLz₁, hPy₁, hLy₁, hky₁, hez₁, hdy₁, hbeg, hlast, hsum⟩ :=
    half_filled hPy hfull hoky
  rw [hfold] at F₁
  have hsc := getScionRange_run F₁.rt (V.t - 1)
  generalize hS : ((List.range (V.t - 1)).map (fun j => 1 + (nz₁.dr j : Int))).sum = sc at hsc hsum
  -- scions and numbers of keys of the halves
  have F₂ := F₁.putRt (nz₁.withSc sc)
  have F₃ := F₂.putLf (ny₁.addSc (-sc))
  have F₄ := F₃.putRt ((nz₁.withSc sc).withN (V.t - 1))
  have F₅ := F₄.putLf ((ny₁.addSc (-sc)).withN (ny₁.n - (V.t - 1)))
  obtain ⟨s₆, ny₆, nz₆, hkids, F₆, hPy₆, hPz₆, ⟨hn₆, hl₆, hnod₆, hkey₆, hds₆⟩,
    ⟨hzn₆, hzl₆, hzk₆, hzds₆, hznod₆⟩, hsc₆, hzsc₆⟩ := splitKids_run (V := V) (t := V.t) F₅
      (View.P_withN _ (View.P_addSc _ hPy₁)) (View.P_withN _ (View.P_withSc _ hPz₁))
      (hLz₁.leaf.trans hLy₁.leaf.symm) (f := f) (by
        intro h s ad ct F j hj
        have := hf (hLy₁.leaf.symm.trans h) s ad ct F j hj
        rwa [← hLy₁.nodes] at this)
  have hleaf₅ : ((ny₁.addSc (-sc)).withN (ny₁.n - (V.t - 1))).leaf = ny.leaf := hLy₁.leaf
  have hn₆' : ny₆.n = V.t := by
    rw [hn₆, BtN.withN_n, hLy₁.n]
    omega
  have hent₆ : ∀ j < V.t, V.entry ny₆ j = V.entry ny j := by
    intro j hj
    rw [View.entry, hkey₆, hds₆.dr]
    show V.see (ny₁.keys j) (ny₁.dr j) = _
    rw [hky₁, hdy₁ j hj]
    rfl
  -- the parent makes room
  have hsn := shiftNodesUp_run F₆.up hx i
  have F₇ := F₆.putUp (nd.mvKids nd.nodes (i + 2) (i + 1) (nd.n - i))
  have hst := setNode_run F₇.up hx (i + 1) z
  have F₈ := F₇.putUp ((nd.mvKids nd.nodes (i + 2) (i + 1) (nd.n - i)).setKid (i + 1) z)
  generalize hnd₈ : (nd.mvKids nd.nodes (i + 2) (i + 1) (nd.n - i)).setKid (i + 1) z = nd₈ at *
  have hP₈ : V.P nd₈ := hnd₈ ▸ View.P_setKid _ _ (View.P_mvKids hP)
  have hn₈ : nd₈.n = nd.n := hnd₈ ▸ rfl
  have hdir : Lasting nd i → ¬ ((List.range (nd₈.n - i)).reverse.foldl
      (fun nd m => nd.cpIn V.t (i + 1 + m) (i + m)) nd₈).dirty ≤ 0 := by
    intro h
    exact BtN.shift_dirty (by subst hnd₈; exact h) rfl
  have hsk := shiftKeysUp_run F₈.up i q qi
  rw [F₈.t, hV] at hsk
  obtain ⟨nd₉, hfold₉, hP₉, hL₉, he1, he2, -⟩ := View.slide_up (V := V) (i := i)
    (f := fun nd m => nd.cpIn V.t (i + 1 + m) (i + m))
    (fun nd m h => View.slid_cpIn h (by omega)) (nd₈.n - i) nd₈ hP₈
  rw [hfold₉] at hsk hdir
  have F₉ := F₈.putUp nd₉
  -- the median goes up
  have F₁₀ := F₉.putLf (ny₆.addSc (-(1 + ny₆.dr (V.t - 1))))
  obtain ⟨s₁₁, hset, F₁₁⟩ := F₁₀.setBTKey_stay (r := .up) (q := .lf) (by simp) i (V.t - 1)
    (fun h => hm.elim (fun h' => absurd (by
      have : ny₆.dr (V.t - 1) = ny.dr (V.t - 1) := by
        rw [hds₆.dr]
        exact hdy₁ _ (by omega)
      exact this.trans h') h) hdir) q qi
  simp only [tri_lf, tri_up, upd_tri_up, upd_tri_lf, hV] at hset F₁₁
  have hcp := View.passed_cp true i (V.t - 1) hP₉
    (View.P_addSc (-(1 + (ny₆.dr (V.t - 1) : Int))) hPy₆) (by simp)
  generalize hnd₁₁ : nd₉.cpDst V.t (ny₆.addSc (-(1 + (ny₆.dr (V.t - 1) : Int)))) i (V.t - 1) true =
    nd₁₁ at F₁₁ hcp
  generalize hny₁₁ : (ny₆.addSc (-(1 + (ny₆.dr (V.t - 1) : Int)))).zDR V.t (V.t - 1) =
    ny₁₁ at F₁₁ hcp
  have F₁₂ := F₁₁.putUp (nd₁₁.addN 1)
  have htr := trimBTN_run F₁₂.lf false
  rw [F₁₂.t, hV] at htr
  have F₁₃ := F₁₂.putLf (ny₁₁.trim V.t false)
  have hent₈ : ∀ j, V.entry nd₈ j = V.entry nd j := fun j => by subst hnd₈; rfl
  have hseen₉ : ∀ j < nd₈.n + 1, j ≠ i → V.ok (V.entry nd₉ j) ∧
      V.entry nd₉ j = V.entry nd (if j < i then j else j - 1) := by
    intro j hj hne
    split_ifs with h
    · have ho : V.ok (V.entry nd₈ j) := hent₈ j ▸ hok j (by omega)
      have he := he2 j (Or.inl h) ho
      exact ⟨he ▸ ho, he.trans (hent₈ j)⟩
    · have ho : V.ok (V.entry nd₈ (j - 1)) := hent₈ _ ▸ hok (j - 1) (by omega)
      have he := he1 j (by omega) (by omega) ho
      exact ⟨he ▸ ho, he.trans (hent₈ _)⟩
  have hnod₁₁ : (nd₁₁.addN 1).nodes = nd₈.nodes := hcp.like.nodes.trans hL₉.nodes
  refine ⟨_, nd₁₁.addN 1, ny₁₁.trim V.t false, nz₆, ?_, F₁₃, ?_⟩
  · rw [hleaf₅] at hkids
    rw [run_bind hk, run_bind hsc, run_bind (withSc_run F₁.rt _),
      run_bind (decrScion_run F₂.lf _), run_bind (withN_run F₃.rt _),
      run_bind (subN_run F₄.lf _)]
    erw [run_bind hkids]
    rw [run_bind hsn, run_bind hst, run_bind hsk, run_bind (getN_run F₉.lf), hn₆',
      run_bind (decrScion_run F₉.lf _), run_bind hset, run_bind (addN_run F₁₁.up _),
      run_bind htr]
    rfl
  · refine ⟨View.P_addN 1 hcp.ok, ?_, ?_, ?_, ?_, ?_, ?_, ?_, ?_, ?_, View.P_trim _ hcp.src, ?_, ?_,
      ?_, ?_, ?_, ?_, hPz₆, ?_, ?_, ?_, ?_, ?_, ?_⟩
    · rw [BtN.addN_n, hcp.like.n, hL₉.n, hn₈]
    · exact hcp.like.leaf.trans (hL₉.leaf.trans (hnd₈ ▸ rfl))
    · exact hcp.like.scion.trans (hL₉.scion.trans (hnd₈ ▸ rfl))
    · intro j hj
      obtain ⟨ho, he⟩ := hseen₉ j (by omega) (by omega)
      rw [View.entry_addN, hcp.off j (by omega) ho, he, if_pos hj]
    · rw [View.entry_addN, hcp.here]
      exact hent₆ _ (by omega)
    · intro j hj hn
      obtain ⟨ho, he⟩ := hseen₉ (j + 1) (by omega) (by omega)
      rw [View.entry_addN, hcp.off _ (by omega) ho, he, if_neg (by omega), Nat.add_sub_cancel]
    · intro j hj
      rw [hnod₁₁, ← hnd₈, BtN.setKid_nodes, upd_ne _ _ (by omega), BtN.mvKids_out (by omega)]
    · rw [hnod₁₁, ← hnd₈, BtN.setKid_nodes, upd_same]
    · intro j hj hn
      obtain ⟨m, rfl⟩ : ∃ m, j = i + 1 + m := ⟨j - (i + 1), by omega⟩
      rw [hnod₁₁, ← hnd₈, BtN.setKid_nodes, upd_ne _ _ (by omega),
        show i + 1 + m + 1 = i + 2 + m by omega, BtN.mvKids_in (by omega)]
    · rw [BtN.trim_n, hcp.srcLike.n, BtN.addSc_n, hn₆']
    · rw [BtN.trim_leaf, hcp.srcLike.leaf, BtN.addSc_leaf, hl₆]
      exact hLy₁.leaf
    · intro j hj
      rw [View.entry_trim false hcp.src (by rw [hcp.srcLike.n, BtN.addSc_n, hn₆']; omega),
        hcp.srcOff j (by omega)]
      exact hent₆ j (by omega)
    · rw [BtN.trim_nodes, hcp.srcLike.nodes, BtN.addSc_nodes, hnod₆]
      exact hLy₁.nodes
    · intro hlow j
      obtain ⟨h3, h4⟩ := hlast hlow
      have hd₆ : ¬ ny₆.dirty ≤ 0 := by rw [hds₆.1]; exact h3
      have hm₆ : ny₆.ndirty = ny₁.ndirty := hds₆.2.1
      have hv₆ : ny₆.ds (V.t - 1) = ny.dr (V.t - 1) := by
        rw [← hdy₁ _ (by omega), hds₆.2.2, BtN.dr, if_neg h3]
        rfl
      obtain ⟨z1, z2, z3, -⟩ := BtN.zDR_stays (t := V.t) (i := V.t - 1)
        (show ¬ (ny₆.addSc (-(1 + (ny₆.dr (V.t - 1) : Int)))).dirty ≤ 0 from hd₆)
        (show 0 < ny₆.ndirty by omega) (fun (h0 : ny₆.ds (V.t - 1) ≠ 0) => by
          rw [hv₆] at h0
          rw [if_neg h0] at h4
          show 1 < ny₆.ndirty
          omega)
      rw [hny₁₁] at z1 z2 z3
      have hnum : (ny₁₁.trim V.t false).n = V.t - 1 := by
        rw [BtN.trim_n, hcp.srcLike.n, BtN.addSc_n, hn₆']
      refine ⟨z1, Or.inr (Or.inl ⟨z2, ?_⟩)⟩
      rw [hnum]
      show ny₁₁.ds (V.t - 1) = 0
      rw [z3, upd_same]
    · intro hc
      have hw : V.wt (V.entry ny (V.t - 1)) = 1 + (ny₆.dr (V.t - 1) : Int) := by
        rw [← hent₆ _ (by omega)]
        exact V.wt_see hc _ _
      rw [BtN.trim_scion, hcp.srcLike.scion, BtN.addSc_scion, hsc₆, BtN.withN_scion,
        BtN.addSc_scion, hLy₁.scion, ← hsum hc, hw, hleaf₅]
      omega
    · rw [hzn₆]
      rfl
    · rw [hzl₆]
      exact hLz₁.leaf
    · intro j hj
      rw [← hez₁ j hj, View.entry, hzk₆, hzds₆.dr]
      rfl
    · intro hl j hj
      have := hznod₆ (hLy₁.leaf.trans hl) j hj
      rw [this]
      exact congrFun hLy₁.nodes _
    · intro h0 j
      obtain ⟨b1, b2, b3⟩ := hbeg h0
      refine ⟨by rw [hzds₆.1]; exact b1, Or.inr (Or.inl ⟨by rw [hzds₆.2.1]; exact b2, ?_⟩)⟩
      rw [hzds₆.2.2, hzn₆]
      exact b3 _ (Nat.le_refl _)
    · intro hc
      rw [hzsc₆, ← hsum hc, hleaf₅]
      rfl

/-- What a split leaves of `T`: kid `i` is now two kids, with the median between them. -/
structure Cut (V : View α β) (s s' : Bt α) (T T' : Sub α (d + 2)) (p pi i : Nat) : Prop where
  out : Out V 0 s s' T T' p pi
  quiet : s'.globals = s.globals
  top : T'.addr = T.addr
  size : T'.size = T.size + 1
  pre : T'.pre V i = T.pre V i
  post : T'.post V (i + 1) = T.post V i
  mid : (T.kid i).flat V = (T'.kid i).flat V ++ V.entry T'.top i :: (T'.kid (i + 1)).flat V
  med : V.entry T'.top i = V.entry (T.kid i).top (V.t - 1)
  sizeL : (T'.kid i).size = V.t - 1
  sizeR : (T'.kid (i + 1)).size = V.t - 1
  lower : Within V (T'.kid i) (T.kid i) 0
  upper : Within V (T'.kid (i + 1)) (T.kid i) V.t
  lastL : LowerLasts V.t (T.kid i).top → ∀ j, Lasting (T'.kid i).top j
  lastR : (T.kid i).top.dr V.t ≠ 0 → ∀ j, Lasting (T'.kid (i + 1)).top j

/-- Between equal ends the readings are equal. -/
theorem Cut.mid_of_flat {T T' : Sub α (d + 1)} (hi : i ≤ T.size) (hi' : i < T'.size)
    (hflat : T'.flat V = T.flat V) (hpre : T'.pre V i = T.pre V i)
    (hpost : T'.post V (i + 1) = T.post V i) :
    (T.kid i).flat V = (T'.kid i).flat V ++ V.entry T'.top i :: (T'.kid (i + 1)).flat V := by
  rw [T'.flat_focus V (Nat.le_of_lt hi'), T.flat_focus V hi, hpre, T'.post_succ V hi', hpost] at hflat
  have h := List.append_cancel_left hflat
  rw [← List.cons_append, ← List.append_assoc] at h
  exact (List.append_cancel_right h).symm

theorem btreesplitchild_run [Inhabited α] (g : Good V s.heap (Sub.node x nd kid))
    (L : Link s (Sub.node x nd kid).addrs x p pi) (ht : s.t = V.t) (hi : i ≤ nd.n)
    (hy : kid i = Sub.node y ny ky) (hfull : ny.n = 2 * V.t - 1) (hroom : nd.n < 2 * V.t - 1)
    (hs : HalfSafe V.t ny) (hm : MedianSafe V.t nd ny i) (q qi : Nat) :
    ∃ s' T', btreesplitchild x i y q qi s = some ((), s') ∧
      Cut V s s' (Sub.node x nd kid) T' p pi i := by
  have h2 := V.two_le
  have gy : Good V s.heap (Sub.node y ny ky) := hy ▸ g.kids i hi
  have hxl : nd.leaf = false := Bool.eq_false_iff.2 fun h => absurd (g.node.leaf.1 h) (by omega)
  have hbound := L.bound
  -- the tree with the new node
  have hz : s.next ∉ (Sub.node x nd kid).addrs := by
    intro h
    have := hbound _ (g.live _ h)
    omega
  have hlive : ∀ {b : Nat} {nb : BtN α}, s.heap b = some nb →
      (s.withNode (freshNode ny)).heap b = some nb := by
    intro b nb h
    have := hbound b (by simp [h])
    exact (upd_ne _ _ (by omega)).trans h
  have g₁ : Good V (s.withNode (freshNode ny)).heap (Sub.node x nd kid) := g.withNode hbound _
  have E₁ := Edit.malloc L (freshNode ny)
  have L₁ : Link (s.withNode (freshNode ny)) (insert s.next (Sub.node x nd kid).addrs) x p pi :=
    E₁.link L (Or.inr (Or.inl rfl)) (by rw [hlive g.node.live]; simp)
  have S := site_one g₁ (L₁.mono (Set.subset_insert _ _)) hi hy
  have hmy : y ∈ (Sub.node x nd kid).addrs := Sub.kid_mem hi (hy ▸ Or.inl rfl)
  have hxy : x ≠ y := fun e => g.node.apart i hi (by rw [hy, e]; exact Or.inl rfl)
  have F : Focus ⟨s.withNode (freshNode ny), tri x y s.next, p, pi⟩ .up (s.withNode (freshNode ny))
      (tri x y s.next) (tri nd ny (freshNode ny)) := by
    refine Focus.start' (fun r => ?_) ?_ (L₁.mono ?_)
    · cases r
      · exact hlive g.node.live
      · exact hlive gy.node.live
      · exact upd_same _ _ _
    · have hxz : x ≠ s.next := fun e => hz (e ▸ Or.inl rfl)
      have hyz : y ≠ s.next := fun e => hz (e ▸ hmy)
      intro r q h
      cases r <;> cases q <;> simp_all
    · rintro b ⟨r, rfl⟩
      cases r
      · exact Or.inr (Or.inl rfl)
      · exact Or.inr hmy
      · exact Or.inl rfl
  have C : Cast (s.withNode (freshNode ny)) x nd kid i 0 p pi
      ⟨s.withNode (freshNode ny), tri x y s.next, p, pi⟩ := by
    refine ⟨rfl, rfl, rfl, rfl, fun r hr => ?_, fun m hm => ⟨.lf, ?_⟩⟩
    · cases r
      · exact absurd rfl hr
      · exact Or.inl ⟨0, Nat.le_refl 0, by rw [Nat.add_zero i, hy]; rfl⟩
      · exact Or.inr hz
    · obtain rfl : m = 0 := by omega
      rw [Nat.add_zero i, hy]
      rfl
  have hf : UpperLive ⟨s.withNode (freshNode ny), tri x y s.next, p, pi⟩ ny V.t
      (fun j => (ky (V.t + j)).scion) := by
    intro hl s' ad ct F' j hj
    have hd : d ≠ 0 := fun e => by simp [gy.node.leaf.2 e] at hl
    obtain ⟨c, h1, h2, -⟩ := S.live_kid C F' hd (j := V.t + j) (by omega)
    refine ⟨c, ?_, h2⟩
    rw [Nat.add_comm, gy.node.link hd _ (by omega)]
    exact h1
  obtain ⟨s', nd', ny', nz', hrun, F', H⟩ := split_focus F ht g.node.disc g.node.seen hxl hi
    gy.node.disc gy.node.seen hfull hf hs hm q qi
  -- the two halves
  have hP : PartOk V ny' (V.entry ny) ky 0 (V.t - 1) := by
    refine ⟨H.lfN, by rw [H.lfLeaf]; exact gy.node.leaf, by omega, Nat.le_refl _, H.lfDisc, ?_, ?_,
      ?_, ?_⟩
    · exact fun j hj => by rw [H.lfEnt j hj, Nat.zero_add]
    · exact fun j hj => gy.node.seen _ (by omega)
    · intro hd j hj
      rw [H.lfNod, Nat.zero_add, gy.node.link hd j (by omega)]
    · intro hc
      have h1 := gy.sci hc
      have h3 := weave_split (e := V.entry ny) (F := fun j => (ky j).flat V) (V.t - 1) (V.t - 1)
      rw [show V.t - 1 + 1 + (V.t - 1) = ny.n by omega, show V.t - 1 + 1 = V.t by omega] at h3
      have h4 := upper_weight gy hc (m := V.t - 1) (o := V.t) (by omega)
      rw [show V.t - 1 + 1 = V.t by omega] at h4
      rw [Sub.weight, Sub.flat_node, h3, sum_wt_append, List.map_cons, List.sum_cons, h4] at h1
      have h5 : weave (V.t - 1) (fun j => V.entry ny (0 + j)) (fun j => (ky (0 + j)).flat V) =
          weave (V.t - 1) (V.entry ny) (fun j => (ky j).flat V) :=
        weave_congr (fun j _ => by rw [Nat.zero_add]) (fun j _ => by rw [Nat.zero_add])
      rw [H.lfScion hc, h1, h5]
      omega
  have hQ : PartOk V nz' (V.entry ny) ky (V.t - 1 + 1) (ny.n - (V.t - 1 + 1)) := by
    rw [show V.t - 1 + 1 = V.t by omega, show ny.n - V.t = V.t - 1 by omega]
    refine ⟨H.rtN, by rw [H.rtLeaf]; exact gy.node.leaf, by omega, Nat.le_refl _, H.rtDisc,
      H.rtEnt, ?_, ?_, ?_⟩
    · exact fun j hj => gy.node.seen _ (by omega)
    · intro hd j hj
      have hl : ny.leaf = false := Bool.eq_false_iff.2 fun h => hd (gy.node.leaf.1 h)
      rw [H.rtNod hl j (by omega), gy.node.link hd _ (by omega)]
    · intro hc
      have h4 := upper_weight gy hc (m := V.t - 1) (o := V.t) (by omega)
      rw [show V.t - 1 + 1 = V.t by omega] at h4
      rw [H.rtScion hc, h4]
  have hU : UpOk V nd nd' i 0 1 := by
    refine ⟨by rw [H.upN], by have := H.upN; omega, H.upLeaf, H.upDisc,
      H.upScion, H.entL, ?_, fun j hj => H.nodL j (by omega), ?_⟩
    · exact fun j hj hn => H.entR j (by omega) hn
    · exact fun j hj hn => H.nodR j (by omega) hn
  obtain ⟨hg, hflat, hedit, hpre, hpost⟩ := S.cut C F' hU (c := V.t - 1) (by omega) H.entI
    ((H.nodL i (Nat.le_refl i)).trans (by rw [g.node.link (by omega) i hi, hy]; rfl)) H.nodI hP hQ
  have hset : (Sub.node x nd kid).addrs ∪ Set.range (tri x y s.next) =
      insert s.next (Sub.node x nd kid).addrs := by
    refine Set.Subset.antisymm ?_ ?_
    · rintro b (hb | ⟨r, rfl⟩)
      · exact Or.inr hb
      · cases r
        · exact Or.inr (Or.inl rfl)
        · exact Or.inr hmy
        · exact Or.inl rfl
    · rintro b (rfl | hb)
      · exact Or.inr ⟨.rt, rfl⟩
      · exact Or.inl hb
  rw [hset] at hedit
  have hedit' := E₁.trans hedit L (Or.inr (Or.inl rfl))
  have hk := Site.cutTree_kid kid (tri x y s.next) (tri nd' ny' nz') ky i 0 (V.t - 1)
  refine ⟨s', _, ?_, ⟨hg, hedit'⟩, F'.quiet, rfl, H.upN, hpre, hpost, ?_, ?_, ?_,
    ?_, ?_, ?_, ?_, ?_⟩
  · rw [btreesplitchild, run_bind (run_get s), run_bind (getN_run gy.node.live), alloc_run, ht]
    exact hrun
  · exact Cut.mid_of_flat hi (Nat.lt_of_lt_of_eq (Nat.lt_succ_of_le hi) H.upN.symm) hflat hpre hpost
  · rw [Sub.kid_node, hy]
    exact H.entI
  · rw [hk.1]
    exact H.lfN
  · rw [hk.2]
    exact H.rtN
  · have hn : 0 + ny'.n ≤ ny.n := by
      have := H.lfN
      omega
    rw [hk.1, Sub.kid_node, hy]
    refine ⟨hn, fun j hj => ?_, fun j _ => rfl⟩
    rw [Nat.zero_add]
    exact (H.lfEnt j (hj.trans_eq H.lfN)).symm
  · have hn : V.t + nz'.n ≤ ny.n := by
      have := H.rtN
      omega
    rw [hk.2, Sub.kid_node, hy]
    refine ⟨hn, fun j hj => (H.rtEnt j (hj.trans_eq H.rtN)).symm, fun j _ => ?_⟩
    show ky (V.t + j) = ky (V.t - 1 + 1 + j)
    rw [show V.t - 1 + 1 = V.t by omega]
  · intro h
    rw [hk.1]
    rw [Sub.kid_node, hy] at h
    exact H.lfLast h
  · intro h
    rw [hk.2]
    rw [Sub.kid_node, hy] at h
    exact H.rtLast h

end Split

end AlchemyDB
