/-
# `AlchemyDB.BTree.Rebalance` — case 3 as a whole

`rebalanceCase3` is called before a kid is entered and leaves it with at least
`t` keys.  Whatever it does, the kid has only grown: it has taken entries from
its neighbours, and its own entries and kids lie in the new node side by side.
A delete (no `drt`) drops the DRs of the keys it moves through the parent;
`Keeps` says that the view does not see any of them.
-/
import AlchemyDB.BTree.Borrow

namespace AlchemyDB

open Store Weave

variable {α β : Type} {d : Nat} {owe : Int}

/-- The DRs that a delete drops when it enters kid `i` are not seen. -/
def Keeps (V : View α β) (T : Sub α (d + 2)) (i : Nat) : Prop :=
  (T.kid i).size = V.t - 1 →
    if 0 < i ∧ V.t ≤ (T.kid (i - 1)).size then
      V.see (T.top.keys (i - 1)) 0 = V.entry T.top (i - 1) ∧
      V.see ((T.kid (i - 1)).top.keys ((T.kid (i - 1)).size - 1)) 0 =
        V.entry (T.kid (i - 1)).top ((T.kid (i - 1)).size - 1)
    else if i < T.size ∧ V.t ≤ (T.kid (i + 1)).size then
      V.see (T.top.keys i) ((T.kid i).top.dr (T.kid i).size) = V.entry T.top i ∧
      V.see ((T.kid (i + 1)).top.keys 0) 0 = V.entry (T.kid (i + 1)).top 0
    else if 0 < i then
      V.see (T.top.keys (i - 1)) ((T.kid (i - 1)).top.dr (T.kid (i - 1)).size) =
        V.entry T.top (i - 1)
    else V.see (T.top.keys i) ((T.kid i).top.dr (T.kid i).size) = V.entry T.top i

/-- A view that sees no DR of a node it accepts. -/
def View.Blind (V : View α β) : Prop :=
  ∀ {nd : BtN α} (k : α) (j : Nat), V.P nd → V.see k (nd.dr j) = V.see k 0

section Rebalance

variable {V : View α β} {s : Bt α} {p pi : Nat}

theorem keeps_of_blind (hb : V.Blind) {T : Sub α (d + 2)} (g : Owing V s.heap owe T) {i : Nat}
    (hi : i ≤ T.size) : Keeps V T i := by
  have hT := g.top_disc
  have hK : ∀ j ≤ T.size, V.P (T.kid j).top := fun j hj => (g.kid hj).top_disc
  intro _
  simp only [View.entry]
  split_ifs with h1 h2 h3
  · exact ⟨(hb _ _ hT).symm, (hb _ _ (hK _ (by omega))).symm⟩
  · exact ⟨(hb _ _ (hK _ hi)).trans (hb _ _ hT).symm, (hb _ _ (hK _ h2.1)).symm⟩
  · exact (hb _ _ (hK _ (by omega))).trans (hb _ _ hT).symm
  · exact (hb _ _ (hK _ hi)).trans (hb _ _ hT).symm

theorem childN_run {x : Nat} {nd : BtN α} {kid : Nat → Sub α (d + 1)}
    (g : Owing V s.heap owe (Sub.node x nd kid)) {j : Nat} (hj : j ≤ nd.n) :
    childN x j s = some ((kid j).size, s) := by
  have hl : nd.leaf = false := Bool.eq_false_iff.2 fun h => absurd (g.node.leaf.1 h) (by omega)
  obtain ⟨y, ny, ky, hy⟩ := exists_node (kid j)
  have hyl := hy ▸ g.kids j hj
  have hn : nd.nodes j = y := by
    rw [g.node.link (by omega) j hj, hy]
    rfl
  simp only [childN, run_bind (getNode_run g.node.live hl j), hn,
    run_bind (getN_run hyl.node.live), hy]
  rfl

/-- What `rebalanceCase3` leaves of `T`: the kid `i` to be entered is now kid `i'`. -/
structure Ready (V : View α β) (owe : Int) (s s' : Bt α) (T T' : Sub α (d + 2)) (p pi i i' : Nat) : Prop where
  out : Out V owe s s' T T' p pi
  quiet : s'.globals = s.globals
  fits : i' ≤ T'.size
  rich : V.t ≤ (T'.kid i').size
  loss : T.size ≤ T'.size + 1
  grown : Grown V T T' i i'
  within : ∃ o, Within V (T.kid i) (T'.kid i') o
  entered : Shows V (T'.kid i') (T.page.entered V.t i)

theorem pair_of {x : Nat} {nd : BtN α} {kid : Nat → Sub α (d + 1)}
    (g : Owing V s.heap owe (Sub.node x nd kid)) (L : Link s (Sub.node x nd kid).addrs x p pi)
    (ht : s.t = V.t) {l : Nat} (hl : l < nd.n) :
    ∃ y ny ky z nz kz, Pair V owe s x nd kid l y ny ky z nz kz p pi := by
  obtain ⟨y, ny, ky, hy⟩ := exists_node (kid l)
  obtain ⟨z, nz, kz, hz⟩ := exists_node (kid (l + 1))
  exact ⟨y, ny, ky, z, nz, kz, g, L, hl, hy, hz, ht⟩

theorem rebalanceCase3_run {T : Sub α (d + 2)} {i : Nat} (drt : Bool) (g : Owing V s.heap owe T)
    (L : Link s T.addrs T.addr p pi) (ht : s.t = V.t) (hi : i ≤ T.size) (h0 : 0 < T.size)
    (hk : drt = false → Keeps V T i) :
    ∃ i' s' T', rebalanceCase3 T.addr i drt p pi s =
        some ((T'.addr, (T'.kid i').addr, i'), s') ∧ Ready V owe s s' T T' p pi i i' := by
  obtain ⟨x, nd, kid, rfl⟩ := exists_node T
  have hleaf : nd.leaf = false :=
    Bool.eq_false_iff.2 fun h => absurd (g.node.leaf.1 h) (by omega)
  have hi' : i ≤ nd.n := hi
  have hlow := g.node.low (by omega) i hi
  have h2 := V.two_le
  have hxp : nd.nodes i = (kid i).addr := g.node.link (by omega) i hi
  have hlive : ∃ np, s.heap (kid i).addr = some np ∧ np.n = (kid i).size := by
    obtain ⟨y, ny, ky, hy⟩ := exists_node (kid i)
    rw [hy]
    exact ⟨ny, (hy ▸ g.kids i hi).node.live, rfl⟩
  obtain ⟨np, hnp, hnn⟩ := hlive
  -- the sizes of the neighbours, as the code reads them
  obtain ⟨yn, hy, hyn⟩ := run_ite_bind (c := i > 0) (B := Nat × Nat × Nat) 0
    (fun _ => childN_run g (show i - 1 ≤ nd.n by omega))
  obtain ⟨zn, hz', hzn⟩ := run_ite_bind (c := i < nd.n) (B := Nat × Nat × Nat) 0
    (fun h => childN_run g (show i + 1 ≤ nd.n from h))
  simp only [Keeps, Sub.kid_node, Sub.top_node, Sub.size_node] at hk
  simp only [rebalanceCase3, Sub.addr_node, run_bind (run_get s), run_bind (getN_run g.node.live),
    run_bind (getNode_run g.node.live hleaf i), hxp, run_bind (getN_run hnp), hnn, ht]
  by_cases hfull : (kid i).size = V.t - 1
  swap
  · refine ⟨i, s, Sub.node x nd kid, ?_, ⟨⟨g, Edit.refl L⟩, rfl, hi, ?_, ?_, ?_, ⟨0, Within.refl V _⟩, ?_⟩⟩
    · simp only [if_pos hfull]
      rfl
    · show V.t ≤ (kid i).size
      omega
    · omega
    · exact ⟨[], [], by simp, by simp, by simp⟩
    · have hn : ((Sub.node x nd kid).page.kid i).n ≠ V.t - 1 := by
        rw [Page.kid, Sub.page_n]
        exact hfull
      rw [Page.entered, if_pos hn]
      exact Shows.rfl' V _
  simp only [if_neg (not_not.2 hfull), hyn, ge_iff_le]
  by_cases hc1 : 0 < i ∧ V.t ≤ (kid (i - 1)).size
  · -- 3a, left sibling
    obtain ⟨l, rfl⟩ : ∃ l, i = l + 1 := ⟨i - 1, by omega⟩
    obtain ⟨y, ny, ky, z, nz, kz, B⟩ := pair_of g L ht (l := l) (by omega)
    have hyv := hy hc1.1
    simp only [Nat.add_sub_cancel, Nat.succ_pos, true_and, B.y, B.z, Sub.size_node,
      Sub.top_node] at hk hc1 hfull hyv
    subst hyv
    obtain ⟨b, a, s', T', hrun, hq, hout, hb, hsz, ha, hks, hgr, hwi, hsp⟩ :=
      B.borrowCase3a1_run hc1 hfull
        (fun hd => by simpa [hc1] using hk hd hfull)
    refine ⟨l + 1, s', T', ?_, hout, hq, ?_, ?_, ?_, hgr, ⟨1, hwi⟩, ?_⟩
    · rw [if_pos ⟨Nat.succ_pos l, hc1⟩, run_bind hrun, hb, ha]
      rfl
    · omega
    · omega
    · rw [hsz]
      exact Nat.le_succ _
    · have he : (Sub.node x nd kid).page.entered V.t (l + 1) =
          Page.join (Sub.node y ny ky).page (Sub.node z nz kz).page (nd.keys l) (nd.dr l) ny.n
            (nz.n + 1) := by
        simp [Page.entered, Page.kid, B.y, B.z, hfull, hc1]
      rw [he]
      exact hsp.shows
  have hc1' : ¬ (i > 0 ∧ V.t ≤ yn) := fun h => hc1 ⟨h.1, hy h.1 ▸ h.2⟩
  simp only [if_neg hc1', hzn]
  replace hk := fun hd => (if_neg hc1).mp (hk hd hfull)
  by_cases hc2 : i < nd.n ∧ V.t ≤ (kid (i + 1)).size
  · -- 3a, right sibling
    obtain ⟨y, ny, ky, z, nz, kz, B⟩ := pair_of g L ht hc2.1
    replace hk := fun hd => (if_pos hc2).mp (hk hd)
    simp only [B.y, B.z, Sub.size_node, Sub.top_node] at hk hfull
    have hz : V.t ≤ nz.n := by
      have := hc2.2
      rwa [B.z] at this
    obtain ⟨b, a, s', T', hrun, hq, hout, hb, hsz, ha, hks, hgr, hwi, hsp⟩ :=
      B.borrowCase3a2_run hfull hz hk
    refine ⟨i, s', T', ?_, hout, hq, ?_, ?_, ?_, hgr, ⟨0, hwi⟩, ?_⟩
    · rw [if_pos ⟨hc2.1, hz' hc2.1 ▸ hc2.2⟩, run_bind hrun, hb, ha]
      rfl
    · omega
    · omega
    · rw [hsz]
      exact Nat.le_succ _
    · have he : (Sub.node x nd kid).page.entered V.t i =
          Page.join (Sub.node y ny ky).page (Sub.node z nz kz).page (nd.keys i) (nd.dr i) 0
            (ny.n + 1) := by
        have hc1' : ¬ (0 < i ∧ V.t ≤ ((Sub.node x nd kid).page.kid (i - 1)).n) := by
          rwa [Page.kid, Sub.page_n]
        rw [Page.entered, if_neg (by simp [Page.kid, B.y, hfull]), if_neg hc1']
        simp [Page.kid, B.y, B.z, hc2.1, hz]
      rw [he]
      exact hsp.shows
  have hc2' : ¬ (i < nd.n ∧ V.t ≤ zn) := fun h => hc2 ⟨h.1, hz' h.1 ▸ h.2⟩
  simp only [if_neg hc2']
  replace hk := fun hd => (if_neg hc2).mp (hk hd)
  by_cases hc3 : 0 < i
  · -- 3b, left sibling
    obtain ⟨l, rfl⟩ : ∃ l, i = l + 1 := ⟨i - 1, by omega⟩
    obtain ⟨y, ny, ky, z, nz, kz, B⟩ := pair_of g L ht (l := l) (by omega)
    have hlow' := B.low
    have hyv := hy hc3
    simp only [Nat.add_sub_cancel, Nat.succ_pos, true_and, B.y, B.z, Sub.size_node, if_true,
      Sub.top_node] at hk hc1 hfull hyv
    obtain ⟨a, s', T', hrun, hq, hout, hx', hsz, ha, hks, -, hgr, -, hwi, hsp⟩ :=
      B.mergeCase3b_run (by omega) hk
    refine ⟨l, s', T', ?_, hout, hq, ?_, ?_, ?_, hgr, ⟨_, hwi⟩, ?_⟩
    · rw [if_pos ⟨hc3, show yn = V.t - 1 by omega⟩, mergeCase3b1, Nat.add_sub_cancel,
        run_bind hrun, hx', ha]
      rfl
    · have := B.lt
      omega
    · omega
    · rw [hsz, Sub.size_node]
      omega
    · have he : (Sub.node x nd kid).page.entered V.t (l + 1) =
          Page.join (Sub.node y ny ky).page (Sub.node z nz kz).page (nd.keys l) (nd.dr l) 0
            (ny.n + 1 + nz.n) := by
        have hc2' : ¬ (l + 1 < (Sub.node x nd kid).page.n ∧
            V.t ≤ ((Sub.node x nd kid).page.kid (l + 1 + 1)).n) := by
          rw [Page.kid, Sub.page_n, Sub.page_n]
          exact hc2
        have hc1' : ¬ V.t ≤ ny.n := hc1
        rw [Page.entered, if_neg (by simp [Page.kid, B.z, hfull]),
          if_neg (by simp [Page.kid, B.y, hc1']), if_neg hc2']
        simp [Page.kid, B.y, B.z]
      rw [he]
      exact hsp.shows
  · -- 3b, right sibling
    obtain rfl : i = 0 := by omega
    have hn : 0 < nd.n := h0
    obtain ⟨y, ny, ky, z, nz, kz, B⟩ := pair_of g L ht hn
    have hlow' := B.low
    have hzv := hz' hn
    simp only [Nat.lt_irrefl, if_false, hn, true_and, B.y, B.z, Sub.size_node, Sub.top_node]
      at hk hc2 hfull hzv
    obtain ⟨a, s', T', hrun, hq, hout, hx', hsz, ha, hks, hgr, -, hwi, -, hsp⟩ :=
      B.mergeCase3b_run (by omega) hk
    refine ⟨0, s', T', ?_, hout, hq, ?_, ?_, ?_, hgr, ⟨_, hwi⟩, ?_⟩
    · rw [if_neg (fun h => absurd h.1 (Nat.lt_irrefl 0)),
        if_pos ⟨hn, show zn = V.t - 1 by omega⟩, mergeCase3b2, run_bind hrun, hx', ha]
      rfl
    · omega
    · omega
    · rw [hsz, Sub.size_node]
      omega
    · have he : (Sub.node x nd kid).page.entered V.t 0 =
          Page.join (Sub.node y ny ky).page (Sub.node z nz kz).page (nd.keys 0) (nd.dr 0) 0
            (ny.n + 1 + nz.n) := by
        rw [Page.entered, if_neg (by simp [Page.kid, B.y, hfull]), if_neg (by simp)]
        simp [Page.kid, B.y, B.z, hn, hc2]
      rw [he]
      exact hsp.shows

end Rebalance

end AlchemyDB
