/-
# `AlchemyDB.BTree.Borrow` — case 3a

A kid that is about to be entered gets a key through its parent from a sibling
that can spare one.  The kids' common sequence is cut one entry further left
(3a1) or one entry further right (3a2).  Without `drt` the DRs of the two keys
that move are dropped, so the view must not see them.
-/
import AlchemyDB.BTree.Merge

namespace AlchemyDB

open Store Weave

variable {α β : Type} {d : Nat} {owe : Int}

section GiveKid

variable {V : View α β} {J : Job Role α} {s : Bt α} {ad : Role → Nat} {ct : Role → BtN α}

/-- The giver has lost a child of scion `f`; the pointer to it is still there. -/
structure Gave (V : View α β) (nd nd' : BtN α) (f : Int) : Prop where
  disc : V.P nd'
  num : nd'.n = nd.n
  leaf : nd'.leaf = nd.leaf
  nodes : nd'.nodes = nd.nodes
  ent : ∀ j, V.entry nd' j = V.entry nd j
  scion : nd'.scion = nd.scion - f

/-- The taker has got the child at `a`, of scion `f`, in slot `o`. -/
structure Took (V : View α β) (nd nd' : BtN α) (f : Int) (o a : Nat) : Prop where
  disc : V.P nd'
  num : nd'.n = nd.n
  leaf : nd'.leaf = nd.leaf
  nodes : nd.leaf = false → nd'.nodes = upd nd.nodes o a
  ent : ∀ j, V.entry nd' j = V.entry nd j
  scion : nd'.scion = nd.scion + f

/-- Child `m` of the node in role `r` goes to slot `o` of the node in role `q`, with its
scion; a leaf has none. -/
theorem giveKid_run (F : Focus J .up s ad ct) {r q : Role} (hrq : r ≠ q)
    (hr : V.P (ct r)) (hq : V.P (ct q)) {lf : Bool} (hlr : (ct r).leaf = lf)
    (hlq : (ct q).leaf = lf) {m : Nat} {f : Int} (h0 : lf = true → f = 0)
    (hf : lf = false → ∃ c, s.heap ((ct r).nodes m) = some c ∧ c.scion = f) (o : Nat) :
    ∃ s' nr nq, unlessLeaf lf (do
        let c ← getNode (ad r) m
        let nc ← getN c
        incrScion (ad q) nc.scion
        decrScion (ad r) nc.scion
        setNode (ad q) o c) s = some ((), s') ∧
      Focus J .up s' ad (upd (upd ct r nr) q nq) ∧ Gave V (ct r) nr f ∧
      Took V (ct q) nq f o ((ct r).nodes m) := by
  cases lf with
  | true =>
      refine ⟨s, ct r, ct q, rfl, by simpa using F, ⟨hr, rfl, rfl, rfl, fun _ => rfl, ?_⟩,
        ⟨hq, rfl, rfl, by simp [hlq], fun _ => rfl, ?_⟩⟩ <;> simp [h0]
  | false =>
      obtain ⟨c, h1, h2⟩ := hf rfl
      have F₁ := F.write q ((ct q).addSc f)
      have F₂ := F₁.write r ((ct r).addSc (-f))
      have F₃ := F₂.write q (((ct q).addSc f).setKid o ((ct r).nodes m))
      have hr₁ := F₁.live r
      have hq₂ := F₂.live q
      rw [upd_ne _ _ hrq] at hr₁
      rw [upd_ne _ _ hrq.symm, upd_same] at hq₂
      rw [upd_upd_upd] at F₃
      refine ⟨_, (ct r).addSc (-f), ((ct q).addSc f).setKid o ((ct r).nodes m), ?_, F₃,
        ⟨View.P_addSc _ hr, rfl, rfl, rfl, fun _ => rfl, Int.sub_eq_add_neg.symm⟩,
        ⟨View.P_setKid _ _ (View.P_addSc _ hq), rfl, rfl, fun _ => rfl, fun _ => rfl, rfl⟩⟩
      simp only [unlessLeaf, Bool.false_eq_true, if_false,
        run_bind (getNode_run (F.live r) hlr m), run_bind (getN_run h1), h2,
        run_bind (incrScion_run (F.live q) f), run_bind (decrScion_run hr₁ f),
        setNode_run hq₂ hlq]

end GiveKid

/-! ## The stretches of two joined kids -/

section Stretch

variable (V : View α β) (y z : Nat) (ny nz : BtN α) (ky kz : Nat → Sub α d) (e : β)

/-- All but the last entry of the left kid. -/
theorem join_butlast (hn : 0 < ny.n) :
    weave (ny.n - 1) (fun j => joinE ny.n (V.entry ny) e (V.entry nz) (0 + j))
      (fun j => (joinF ny.n ky kz (0 + j)).flat V) =
      weave (ny.n - 1) (V.entry ny) (fun j => (ky j).flat V) := by
  refine weave_congr (fun j hj => ?_) (fun j hj => ?_)
  · rw [Nat.zero_add, joinE_lt (by omega)]
  · rw [Nat.zero_add, joinF_le (by omega)]

/-- All but the first entry of the right kid. -/
theorem join_tail :
    weave (nz.n - 1) (fun j => joinE ny.n (V.entry ny) e (V.entry nz) (ny.n + 1 + 1 + j))
      (fun j => (joinF ny.n ky kz (ny.n + 1 + 1 + j)).flat V) =
      weave (nz.n - 1) (fun j => V.entry nz (1 + j)) (fun j => (kz (1 + j)).flat V) := by
  refine weave_congr (fun j hj => ?_) (fun j hj => ?_)
  · rw [show ny.n + 1 + 1 + j = ny.n + 1 + (1 + j) by omega, joinE_gt]
  · rw [show ny.n + 1 + 1 + j = ny.n + 1 + (1 + j) by omega, joinF_gt]

/-- The right kid with the separator and the last child of the left kid. -/
theorem join_right :
    weave (nz.n + 1) (fun j => joinE ny.n (V.entry ny) e (V.entry nz) (ny.n + j))
      (fun j => (joinF ny.n ky kz (ny.n + j)).flat V) =
      (ky ny.n).flat V ++ e :: (Sub.node z nz kz).flat V := by
  rw [show nz.n + 1 = 0 + 1 + nz.n by omega, weave_split, weave_zero]
  simp only [Nat.add_zero, joinE_at, joinF_le (Nat.le_refl _)]
  congr 2
  refine weave_congr (fun j hj => ?_) (fun j hj => ?_)
  · rw [show ny.n + (0 + 1 + j) = ny.n + 1 + j by omega, joinE_gt]
  · rw [show ny.n + (0 + 1 + j) = ny.n + 1 + j by omega, joinF_gt]

/-- The left kid with the separator and the first child of the right kid. -/
theorem join_left :
    weave (ny.n + 1) (fun j => joinE ny.n (V.entry ny) e (V.entry nz) (0 + j))
      (fun j => (joinF ny.n ky kz (0 + j)).flat V) =
      (Sub.node y ny ky).flat V ++ e :: (kz 0).flat V := by
  have h := weave_split (e := fun j => joinE ny.n (V.entry ny) e (V.entry nz) (0 + j))
    (F := fun j => (joinF ny.n ky kz (0 + j)).flat V) ny.n 0
  have h8 : joinF ny.n ky kz (0 + (ny.n + 1 + 0)) = kz 0 := by
    rw [Nat.zero_add, joinF_gt]
  rw [weave_zero, h8, show 0 + ny.n = ny.n by omega, joinE_at] at h
  refine h.trans ?_
  congr 1
  refine weave_congr (fun j hj => ?_) (fun j hj => ?_)
  · rw [Nat.zero_add, joinE_lt hj]
  · rw [Nat.zero_add, joinF_le hj]

end Stretch

namespace Pair

variable {V : View α β} {s : Bt α} {x l y z p pi : Nat} {nd ny nz : BtN α}
  {kid : Nat → Sub α (d + 1)} {ky kz : Nat → Sub α d}

theorem deep (B : Pair V owe s x nd kid l y ny ky z nz kz p pi) (h : nz.leaf = false) : d ≠ 0 := by
  intro e
  have := B.goodZ.node.leaf.2 e
  simp [h] at this

/-- Below a leaf there is nothing to count. -/
theorem scion_nil (B : Pair V owe s x nd kid l y ny ky z nz kz p pi) (h : nz.leaf = true)
    {T : Sub α d} : T.scion = 0 := by
  obtain rfl : d = 0 := B.goodZ.node.leaf.1 h
  cases T
  rfl

/-- The scion of the left kid, without its last key and its last child. -/
theorem sum_init (B : Pair V owe s x nd kid l y ny ky z nz kz p pi) (hc : V.counts)
    (hn : 0 < ny.n) : ny.scion =
      ((weave (ny.n - 1) (V.entry ny) (fun j => (ky j).flat V)).map V.wt).sum +
        (1 + ny.dr (ny.n - 1)) + (ky ny.n).scion := by
  have h1 := B.goodY.sci hc
  have h2 := (B.goodY.kids ny.n (Nat.le_refl _)).scion hc
  have h3 := weave_split (e := V.entry ny) (F := fun j => (ky j).flat V) (ny.n - 1) 0
  rw [show ny.n - 1 + 1 + 0 = ny.n by omega] at h3
  have hw : V.wt (V.entry ny (ny.n - 1)) = 1 + ny.dr (ny.n - 1) := V.wt_see hc _ _
  rw [Sub.weight] at h1 h2
  rw [h1, Sub.flat_node, h3, sum_wt_append, List.map_cons, List.sum_cons, hw, weave_zero, h2]
  simp only [Nat.add_zero]
  omega

/-- The scion of the right kid, without its first key and its first child. -/
theorem sum_tail (B : Pair V owe s x nd kid l y ny ky z nz kz p pi) (hc : V.counts)
    (hn : 0 < nz.n) : nz.scion = (kz 0).scion + (1 + nz.dr 0) +
      ((weave (nz.n - 1) (fun j => V.entry nz (1 + j)) (fun j => (kz (1 + j)).flat V)).map
        V.wt).sum := by
  have h1 := B.goodZ.sci hc
  have h2 := (B.goodZ.kids 0 (Nat.zero_le _)).scion hc
  have h3 := weave_split (e := V.entry nz) (F := fun j => (kz j).flat V) 0 (nz.n - 1)
  rw [show 0 + 1 + (nz.n - 1) = nz.n by omega] at h3
  have hw : V.wt (V.entry nz 0) = 1 + nz.dr 0 := V.wt_see hc _ _
  rw [Sub.weight] at h1 h2
  rw [h1, Sub.flat_node, h3, sum_wt_append, List.map_cons, List.sum_cons, hw, weave_zero, h2]
  simp only [Nat.zero_add]
  omega

/-- The parent after a borrow: one of the two kids may have moved, and slot `l` has got
another key. -/
theorem upOk (B : Pair V owe s x nd kid l y ny ky z nz kz p pi) {nd' ns ns' : BtN α} {m a si : Nat}
    (hm : m = l ∨ m = l + 1)
    (h : View.Passed V ((nd.setKid m a).zDR V.t l) nd' ns ns' l si) : UpOk V nd nd' l 1 1 := by
  have hoff : ∀ j < nd.n, j ≠ l → V.entry nd' j = V.entry nd j := by
    intro j hn hj
    have hz : V.entry ((nd.setKid m a).zDR V.t l) j = V.entry nd j := by
      have := V.see_zero_ne (nd.keys j) (View.P_setKid m a B.good.node.disc) hj
      simpa [View.entry] using this
    rw [h.off j hj (hz ▸ B.good.node.seen j hn), hz]
  have hlt := B.lt
  have hnod : ∀ j, j ≠ l → j ≠ l + 1 → nd'.nodes j = nd.nodes j := by
    intro j hj hj'
    rw [h.like.nodes, BtN.zDR_nodes, BtN.setKid_nodes, upd_ne _ _ (by omega)]
  refine ⟨?_, ?_, ?_, h.ok, ?_, fun j hj => hoff j (by omega) (by omega), ?_,
    fun j hj => hnod j (by omega) (by omega), ?_⟩
  · rw [h.like.n]
    simp
  · rw [h.like.n]
    simpa using B.good.node.fill
  · rw [h.like.leaf]
    simp
  · rw [h.like.scion]
    simp
  · exact fun j hj hn => hoff j hn (by omega)
  · exact fun j hj _ => hnod j (by omega) (by omega)

/-- Case 3a with the left sibling. -/
theorem borrowCase3a1_run (B : Pair V owe s x nd kid l y ny ky z nz kz p pi) {drt : Bool}
    (hy : V.t ≤ ny.n) (hz : nz.n = V.t - 1)
    (hdr : drt = false → V.see (nd.keys l) 0 = V.entry nd l ∧
      V.see (ny.keys (ny.n - 1)) 0 = V.entry ny (ny.n - 1)) :
    ∃ b a s' T', borrowCase3a1 x (l + 1) drt p pi s = some ((b, a), s') ∧
      s'.globals = s.globals ∧ Out V owe s s' (Sub.node x nd kid) T' p pi ∧ T'.addr = b ∧
      T'.size = nd.n ∧ (T'.kid (l + 1)).addr = a ∧ (T'.kid (l + 1)).size = nz.n + 1 ∧
      Grown V (Sub.node x nd kid) T' (l + 1) (l + 1) ∧
      Within V (kid (l + 1)) (T'.kid (l + 1)) 1 ∧
      Spans V (T'.kid (l + 1)) (joinE ny.n (V.entry ny) (V.entry nd l) (V.entry nz)) (joinF ny.n ky kz)
        ny.n (nz.n + 1) := by
  obtain ⟨hx, hny, hnz⟩ := B.nodes
  have h2 := V.two_le
  have hP := B.good.node.disc
  have hPy := B.goodY.node.disc
  have hPz := B.goodZ.node.disc
  have F := B.focus
  -- the right kid makes room
  obtain ⟨nz₁, hfold, hp₁, hl₁, he1, he2, he3⟩ := View.slide_up (V := V) (i := 0)
    (f := fun nd m => nd.mvIn V.t (1 + m) (0 + m))
    (fun nd m h => View.slid_mvIn h (by omega)) nz.n nz hPz
  have hmv := mvXKeys_in F.rt 1 0 nz.n x (l + 1)
  simp only [mvXKeysOrder, if_pos (Nat.zero_le 1), ge_iff_le, B.t, hfold] at hmv
  have F₁ := F.putRt nz₁
  have hsk := shiftKids_run F₁.rt hl₁.leaf 1 0 (nz.n + 1)
  generalize hnz₂ : (if nz.leaf then nz₁ else nz₁.mvKids nz₁.nodes 1 0 (nz.n + 1)) = nz₂ at hsk
  have hz₂ : V.P nz₂ ∧ nz₂.n = nz.n ∧ nz₂.leaf = nz.leaf ∧ nz₂.scion = nz.scion ∧
      nz₂.dr = nz₁.dr ∧ (∀ j, V.entry nz₂ j = V.entry nz₁ j) ∧
      (nz.leaf = false → ∀ j ≤ nz.n, nz₂.nodes (1 + j) = nz.nodes j) := by
    subst hnz₂
    split_ifs with h
    · exact ⟨hp₁, hl₁.n, hl₁.leaf, hl₁.scion, rfl, fun _ => rfl, by simp [h]⟩
    · refine ⟨View.P_mvKids hp₁, hl₁.n, hl₁.leaf, hl₁.scion, rfl, fun _ => rfl, fun _ j hj => ?_⟩
      rw [BtN.mvKids_in (by omega), hl₁.nodes, Nat.zero_add]
  obtain ⟨hp₂, hn₂, hl₂, hs₂, hdr₂, hent₂, hnod₂⟩ := hz₂
  have F₂ := F₁.putRt nz₂
  have F₃ := F₂.putRt (nz₂.addSc (1 + nd.dr l))
  -- the separator goes down
  obtain ⟨a, s₄, hset, F₄⟩ := F₃.setBTKey (r := .rt) (q := .up) (Focus.hangs_rt hx hnz) (by simp)
    0 l drt
  simp only [tri_rt, tri_up, hang_tri_rt, upd_tri_rt, upd_tri_up, B.t] at hset F₄
  have hcp := View.passed_cp drt 0 l (View.P_addSc (1 + nd.dr l) hp₂) hP
    (fun hd => by
      rw [BtN.addSc_dr, hdr₂, he3 (by omega)]
      exact (hdr hd).1)
  generalize hnz₄ : (nz₂.addSc (1 + nd.dr l)).cpDst V.t nd 0 l drt = nz₄ at F₄ hcp
  have hPx := V.zero l (View.P_setKid (l + 1) a hP)
  have F₅ := F₄.putRt (nz₄.addN 1)
  have F₆ := F₅.putLf (ny.addSc (-(1 + ny.dr (ny.n - 1))))
  -- the last key of the left kid goes up
  obtain ⟨b, s₇, hset', F₇⟩ := F₆.setBTKey (r := .up) (q := .lf) Focus.hangs_up (by simp)
    l (ny.n - 1) drt
  simp only [tri_lf, tri_up, hang_tri_up, upd_tri_up, upd_tri_lf, B.t] at hset' F₇
  have hcp' := View.passed_cp drt l (ny.n - 1) hPx
    (View.P_addSc (-(1 + ny.dr (ny.n - 1))) hPy)
    (fun hd => by
      rw [V.see_zero_at _ _ (View.P_setKid (l + 1) a hP)]
      exact (hdr hd).2)
  generalize hnd' : ((nd.setKid (l + 1) a).zDR V.t l).cpDst V.t
    (ny.addSc (-(1 + ny.dr (ny.n - 1)))) l (ny.n - 1) drt = nd' at F₇ hcp'
  generalize hny₁ : (ny.addSc (-(1 + ny.dr (ny.n - 1)))).zDR V.t (ny.n - 1) = ny₁ at F₇ hcp'
  have hP₁ : V.P ny₁ := hcp'.src
  have hly : ny₁.leaf = nz.leaf := by
    rw [hcp'.srcLike.leaf, BtN.addSc_leaf, B.leaf_eq]
  have hlz : (nz₄.addN 1).leaf = nz.leaf := hcp.like.leaf.trans hl₂
  have hnod : ny₁.nodes = ny.nodes := hcp'.srcLike.nodes
  -- so does the last child of the left kid
  obtain ⟨s₈, ny₂, nz₅, hgive, F₈, G, K⟩ := giveKid_run (V := V) (r := .lf) (q := .rt) F₇ (by simp)
    hP₁ (View.P_addN 1 hcp.ok) hly hlz (m := ny.n) (f := (ky ny.n).scion)
    (fun h => B.scion_nil h) (fun h => by
      have hd := B.deep h
      obtain ⟨c, h1, h2, -⟩ := B.site.live_kid B.cast F₇ hd (j := ny.n) (by omega)
      rw [joinF_le (Nat.le_refl _)] at h1 h2
      refine ⟨c, ?_, h2⟩
      show s₇.heap (ny₁.nodes ny.n) = some c
      rwa [hnod, B.goodY.node.link hd _ (Nat.le_refl _)]) 0
  simp only [tri_lf, tri_rt, upd_tri_lf, upd_tri_rt] at hgive F₈ G K
  have htr := trimBTN_run F₈.lf drt
  rw [F₈.t, B.t] at htr
  have F₉ := F₈.putLf (ny₂.trim V.t drt)
  have hU := B.upOk (Or.inr rfl) hcp'
  have hny₁s : ny₁.scion = ny.scion - (1 + ny.dr (ny.n - 1)) := by
    rw [hcp'.srcLike.scion, BtN.addSc_scion]
    omega
  have hny₂n : ny₂.n = ny.n := by
    rw [G.num, hcp'.srcLike.n, BtN.addSc_n]
  have hL : PartOk V (ny₂.trim V.t drt) (joinE ny.n (V.entry ny) (V.entry nd l) (V.entry nz))
      (joinF ny.n ky kz) 0 (ny.n - 1) := by
    have := B.goodY.node.fill
    refine ⟨by rw [BtN.trim_n, hny₂n], ?_, by omega, by omega, View.P_trim drt G.disc, ?_,
      fun j hj => B.site.seen _ (by omega), ?_, ?_⟩
    · rw [BtN.trim_leaf, G.leaf, hly]
      exact B.goodZ.node.leaf
    · intro j hj
      rw [View.entry_trim drt G.disc (by omega), G.ent, hcp'.srcOff j (by omega), Nat.zero_add,
        joinE_lt (by omega)]
      rfl
    · intro hd j hj
      rw [BtN.trim_nodes, G.nodes, hnod, B.goodY.node.link hd j (by omega), Nat.zero_add,
        joinF_le (by omega)]
    · intro hc
      have h3 := B.sum_init hc (by omega)
      rw [join_butlast V ny nz ky kz _ (by omega), BtN.trim_scion, G.scion, hny₁s]
      omega
  have hnz₄s : nz₄.scion = nz.scion + (1 + nd.dr l) := by
    rw [hcp.like.scion, BtN.addSc_scion, hs₂]
  have hnz₄n : nz₄.n = nz.n := by
    rw [hcp.like.n, BtN.addSc_n, hn₂]
  have hN : ny.n + 1 + nz.n - (ny.n - 1 + 1) = nz.n + 1 := by omega
  have hE0 : ny.n - 1 + 1 = ny.n := by omega
  have hR : PartOk V nz₅ (joinE ny.n (V.entry ny) (V.entry nd l) (V.entry nz))
      (joinF ny.n ky kz) (ny.n - 1 + 1) (ny.n + 1 + nz.n - (ny.n - 1 + 1)) := by
    rw [hN, hE0]
    refine ⟨by rw [K.num, BtN.addN_n, hnz₄n], ?_, by omega, by omega, K.disc, ?_,
      fun j hj => B.site.seen _ (by omega), ?_, ?_⟩
    · rw [K.leaf, hlz]
      exact B.goodZ.node.leaf
    · intro j hj
      rw [K.ent, View.entry_addN]
      rcases Nat.eq_zero_or_pos j with rfl | hj0
      · rw [Nat.add_zero, joinE_at, hcp.here]
      · have hz := he1 j hj0 (by omega) (B.goodZ.node.seen _ (by omega))
        rw [← hent₂ j] at hz
        rw [hcp.off j (by omega) (by rw [View.entry_addSc, hz]; exact B.goodZ.node.seen _ (by omega)),
          View.entry_addSc, hz, show ny.n + j = ny.n + 1 + (j - 1) by omega, joinE_gt]
    · intro hd j hj
      have hzl : nz.leaf = false := by
        simpa using fun h => hd (B.goodZ.node.leaf.1 h)
      rw [K.nodes (hlz.trans hzl)]
      rcases Nat.eq_zero_or_pos j with rfl | hj0
      · rw [upd_same, hnod, B.goodY.node.link hd _ (Nat.le_refl _), Nat.add_zero ny.n,
          joinF_le (Nat.le_refl _)]
      · obtain ⟨m, rfl⟩ : ∃ m, j = 1 + m := ⟨j - 1, by omega⟩
        rw [upd_ne _ _ (by omega), BtN.addN_nodes, hcp.like.nodes, BtN.addSc_nodes,
          hnod₂ hzl m (by omega), B.goodZ.node.link hd m (by omega),
          show ny.n + (1 + m) = ny.n + 1 + m by omega, joinF_gt]
    · intro hc
      have h3 := B.goodZ.sci hc
      have h4 := (B.goodY.kids ny.n (Nat.le_refl _)).scion hc
      have h5 : V.wt (V.entry nd l) = 1 + nd.dr l := V.wt_see hc _ _
      rw [join_right V z, sum_wt_append, List.map_cons, List.sum_cons, h5, K.scion, BtN.addN_scion,
        hnz₄s]
      rw [Sub.weight] at h3 h4
      omega
  obtain ⟨hg, hflat, hedit, hpre, hpost⟩ := B.site.cut B.cast F₉ hU (c := ny.n - 1) (by omega)
    (by rw [tri_up, hcp'.here, joinE_lt (by omega)]; rfl)
    (by rw [tri_up, tri_lf, hcp'.like.nodes]; simpa using hny)
    (by rw [tri_up, tri_rt, hcp'.like.nodes]; simp) hL hR
  rw [B.addrs_union] at hedit
  have hnum : nd'.n = nd.n := by
    rw [hcp'.like.n]
    simp
  have hnum' : nz₅.n = nz.n + 1 := by
    rw [K.num, BtN.addN_n, hnz₄n]
  have hlt := B.lt
  have hk := (Site.cutTree_kid kid (tri b y a) (tri nd' (ny₂.trim V.t drt) nz₅)
    (joinF ny.n ky kz) l 1 (ny.n - 1)).2
  refine ⟨b, a, _, _, ?_, F₉.quiet, ⟨hg, hedit⟩, rfl, hnum, by rw [hk]; rfl,
    by rw [hk]; exact hnum', ?_, ?_, ?_⟩
  · simp only [borrowCase3a1, run_bind (getNode_run F.up hx _), Nat.add_sub_cancel, hny, hnz,
      run_bind (getN_run F.rt), run_bind hmv, run_bind hsk, run_bind (getN_run F₂.up),
      run_bind (incrScion_run F₂.rt _), run_bind hset, run_bind (addN_run F₄.rt _),
      run_bind (getN_run F₅.lf), run_bind (decrScion_run F₅.lf _), run_bind hset',
      run_bind hgive, run_bind htr]
    rfl
  · refine Grown.of_post ((ky ny.n).flat V ++ [V.entry nd l]) hlt
      (hlt.trans_eq hnum.symm) hflat hpost ?_
    rw [hk, Sub.kid_node, B.z]
    refine (Site.part_flat hR).trans ?_
    rw [hN, hE0, join_right V z]
    simp
  · rw [hk, B.z]
    refine Site.part_within hR (by omega) (fun j hj => ?_) (fun j hj => ?_)
    · rw [show ny.n - 1 + 1 + (1 + j) = ny.n + 1 + j by omega, joinE_gt]
    · rw [show ny.n - 1 + 1 + (1 + j) = ny.n + 1 + j by omega, joinF_gt]
  · have hsp := hR.spans a
    rw [hN, hE0] at hsp
    rw [hk, part, hE0]
    exact hsp

/-- Case 3a with the right sibling. -/
theorem borrowCase3a2_run (B : Pair V owe s x nd kid l y ny ky z nz kz p pi) {drt : Bool}
    (hy : ny.n = V.t - 1) (hz : V.t ≤ nz.n)
    (hdr : drt = false → V.see (nd.keys l) (ny.dr ny.n) = V.entry nd l ∧
      V.see (nz.keys 0) 0 = V.entry nz 0) :
    ∃ b a s' T', borrowCase3a2 x l drt p pi s = some ((b, a), s') ∧
      s'.globals = s.globals ∧ Out V owe s s' (Sub.node x nd kid) T' p pi ∧ T'.addr = b ∧
      T'.size = nd.n ∧ (T'.kid l).addr = a ∧ (T'.kid l).size = ny.n + 1 ∧
      Grown V (Sub.node x nd kid) T' l l ∧ Within V (kid l) (T'.kid l) 0 ∧
      Spans V (T'.kid l) (joinE ny.n (V.entry ny) (V.entry nd l) (V.entry nz)) (joinF ny.n ky kz) 0
        (ny.n + 1) := by
  obtain ⟨hx, hny, hnz⟩ := B.nodes
  have h2 := V.two_le
  have hP := B.good.node.disc
  have hPy := B.goodY.node.disc
  have hPz := B.goodZ.node.disc
  have F := B.focus
  have F₁ := F.putLf (ny.addSc (1 + nd.dr l))
  have F₂ := F₁.putLf ((ny.addSc (1 + nd.dr l)).addN 1)
  -- the separator goes down
  obtain ⟨a, s₃, hset, F₃⟩ := F₂.setBTKey (r := .lf) (q := .up) (Focus.hangs_lf hx hny) (by simp)
    ny.n l drt
  simp only [tri_lf, tri_up, hang_tri_lf, upd_tri_lf, upd_tri_up, B.t] at hset F₃
  have hcp := View.passed_cp drt ny.n l
    (View.P_addN 1 (View.P_addSc (1 + nd.dr l) hPy)) hP (fun hd => (hdr hd).1)
  generalize hny₃ : ((ny.addSc (1 + nd.dr l)).addN 1).cpDst V.t nd ny.n l drt = ny₃ at F₃ hcp
  have hPx := V.zero l (View.P_setKid l a hP)
  have F₄ := F₃.putRt (nz.addSc (-(1 + nz.dr 0)))
  -- the first key of the right kid goes up
  obtain ⟨b, s₅, hset', F₅⟩ := F₄.setBTKey (r := .up) (q := .rt) Focus.hangs_up (by simp)
    l 0 drt
  simp only [tri_rt, tri_up, hang_tri_up, upd_tri_up, upd_tri_rt, B.t] at hset' F₅
  have hcp' := View.passed_cp drt l 0 hPx
    (View.P_addSc (-(1 + nz.dr 0)) hPz)
    (fun hd => by
      rw [V.see_zero_at _ _ (View.P_setKid l a hP)]
      exact (hdr hd).2)
  generalize hnd' : ((nd.setKid l a).zDR V.t l).cpDst V.t
    (nz.addSc (-(1 + nz.dr 0))) l 0 drt = nd' at F₅ hcp'
  generalize hnz₁ : (nz.addSc (-(1 + nz.dr 0))).zDR V.t 0 = nz₁ at F₅ hcp'
  have hlz : nz₁.leaf = ny.leaf := by
    rw [hcp'.srcLike.leaf, BtN.addSc_leaf, B.leaf_eq]
  have hly : ny₃.leaf = ny.leaf := hcp.like.leaf
  have hnod : nz₁.nodes = nz.nodes := hcp'.srcLike.nodes
  -- so does the first child of the right kid
  obtain ⟨s₆, nz₂, ny₄, hgive, F₆, G, K⟩ := giveKid_run (V := V) (r := .rt) (q := .lf) F₅ (by simp)
    hcp'.src hcp.ok hlz hly (m := 0) (f := (kz 0).scion)
    (fun h => B.scion_nil (B.leaf_eq ▸ h)) (fun h => by
      have hd := B.deep (B.leaf_eq ▸ h)
      obtain ⟨c, h1, h2, -⟩ := B.site.live_kid B.cast F₅ hd (j := ny.n + 1 + 0) (by omega)
      rw [joinF_gt] at h1 h2
      refine ⟨c, ?_, h2⟩
      show s₅.heap (nz₁.nodes 0) = some c
      rwa [hnod, B.goodZ.node.link hd _ (Nat.zero_le _)]) (ny.n + 1)
  simp only [tri_lf, tri_rt, upd_tri_lf, upd_tri_rt] at hgive F₆ G K
  -- the right kid closes the gap
  have hnz₂n : nz₂.n = nz.n := by
    rw [G.num, hcp'.srcLike.n, BtN.addSc_n]
  obtain ⟨nz₃, hfold, hp₃, hl₃, he1, he2, -, -⟩ := View.slide_down (V := V) (i := 0)
    (f := fun nd m => nd.mvIn V.t (0 + m) (1 + m))
    (fun nd m h => View.slid_mvIn h (by omega)) (nz.n - 1) nz₂ G.disc
  have hmv := mvXKeys_in F₆.rt 0 1 (nz.n - 1) b (l + 1)
  simp only [mvXKeysOrder, if_neg (show ¬ 0 ≥ 1 by omega), F₆.t, B.t, hfold] at hmv
  have F₇ := F₆.putRt nz₃
  have hlz₃ : nz₃.leaf = nz.leaf := by
    rw [hl₃.leaf, G.leaf, hlz, B.leaf_eq]
  have hsk := shiftKids_run F₇.rt hlz₃ 0 1 nz.n
  generalize hnz₄ : (if nz.leaf then nz₃ else nz₃.mvKids nz₃.nodes 0 1 nz.n) = nz₄ at hsk
  have hz₄ : V.P nz₄ ∧ nz₄.n = nz.n ∧ nz₄.leaf = nz.leaf ∧ nz₄.scion = nz₂.scion ∧
      (∀ j, V.entry nz₄ j = V.entry nz₃ j) ∧
      (nz.leaf = false → ∀ j < nz.n, nz₄.nodes j = nz.nodes (1 + j)) := by
    subst hnz₄
    split_ifs with h
    · exact ⟨hp₃, hl₃.n.trans hnz₂n, hlz₃, hl₃.scion, fun _ => rfl, by simp [h]⟩
    · refine ⟨View.P_mvKids hp₃, hl₃.n.trans hnz₂n, hlz₃, hl₃.scion, fun _ => rfl,
        fun _ j hj => ?_⟩
      have hk : (nz₃.mvKids nz₃.nodes 0 1 nz.n).nodes (0 + j) = nz₃.nodes (1 + j) :=
        BtN.mvKids_in hj
      rw [Nat.zero_add] at hk
      rw [hk, hl₃.nodes, G.nodes, hnod]
  obtain ⟨hp₄, hn₄, hl₄, hs₄, hent₄, hnod₄⟩ := hz₄
  have F₈ := F₇.putRt nz₄
  have htr := trimBTN_run F₈.rt drt
  rw [F₈.t, B.t] at htr
  have F₉ := F₈.putRt (nz₄.trim V.t drt)
  have hL : PartOk V ny₄ (joinE ny.n (V.entry ny) (V.entry nd l) (V.entry nz))
      (joinF ny.n ky kz) 0 (ny.n + 1) := by
    refine ⟨by rw [K.num, hcp.like.n]; rfl, ?_, by omega, by omega, K.disc, ?_,
      fun j hj => B.site.seen _ (by omega), ?_, ?_⟩
    · rw [K.leaf, hly]
      exact B.goodY.node.leaf
    · intro j hj
      rw [K.ent, Nat.zero_add]
      rcases Nat.lt_or_ge j ny.n with h | h
      · rw [hcp.off j (by omega) (B.goodY.node.seen j h), joinE_lt h]
        rfl
      · obtain rfl : j = ny.n := by omega
        rw [hcp.here, joinE_at]
    · intro hd j hj
      have hyl : ny.leaf = false := by
        simpa using fun h => hd (B.goodY.node.leaf.1 h)
      rw [K.nodes (hly.trans hyl), Nat.zero_add]
      rcases Nat.lt_or_ge ny.n j with h | h
      · obtain rfl : j = ny.n + 1 := by omega
        rw [upd_same, hnod, B.goodZ.node.link hd 0 (Nat.zero_le _)]
        exact congrArg Sub.addr joinF_gt.symm
      · rw [upd_ne _ _ (by omega), hcp.like.nodes, joinF_le h]
        exact B.goodY.node.link hd j h
    · intro hc
      have h3 := B.goodY.sci hc
      have h4 := (B.goodZ.kids 0 (Nat.zero_le _)).scion hc
      have h5 : V.wt (V.entry nd l) = 1 + nd.dr l := V.wt_see hc _ _
      rw [join_left V y, sum_wt_append, List.map_cons, List.sum_cons, h5, K.scion, hcp.like.scion,
        BtN.addN_scion, BtN.addSc_scion]
      rw [Sub.weight] at h3 h4
      omega
  have hN : ny.n + 1 + nz.n - (ny.n + 1 + 1) = nz.n - 1 := by omega
  have hR : PartOk V (nz₄.trim V.t drt) (joinE ny.n (V.entry ny) (V.entry nd l) (V.entry nz))
      (joinF ny.n ky kz) (ny.n + 1 + 1) (ny.n + 1 + nz.n - (ny.n + 1 + 1)) := by
    rw [hN]
    have := B.goodZ.node.fill
    refine ⟨by rw [BtN.trim_n, hn₄], ?_, by omega, by omega, View.P_trim drt hp₄, ?_,
      fun j hj => B.site.seen _ (by omega), ?_, ?_⟩
    · rw [BtN.trim_leaf, hl₄]
      exact B.goodZ.node.leaf
    · intro j hj
      have hz : V.entry nz₂ (j + 1) = V.entry nz (j + 1) :=
        (G.ent _).trans (hcp'.srcOff (j + 1) (by omega))
      rw [View.entry_trim drt hp₄ (by omega), hent₄,
        he1 j (by omega) (by omega) (hz ▸ B.goodZ.node.seen _ (by omega)), hz,
        show ny.n + 1 + 1 + j = ny.n + 1 + (j + 1) by omega, joinE_gt]
    · intro hd j hj
      have hzl : nz.leaf = false := by
        simpa using fun h => hd (B.goodZ.node.leaf.1 h)
      rw [BtN.trim_nodes, hnod₄ hzl j (by omega), B.goodZ.node.link hd _ (by omega),
        show ny.n + 1 + 1 + j = ny.n + 1 + (1 + j) by omega, joinF_gt]
    · intro hc
      have h3 := B.sum_tail hc (by omega)
      have h5 : nz₁.scion = nz.scion + -(1 + nz.dr 0) := hcp'.srcLike.scion
      rw [join_tail, BtN.trim_scion, hs₄, G.scion, h5]
      omega
  obtain ⟨hg, hflat, hedit, hpre, hpost⟩ := B.site.cut B.cast F₉ (B.upOk (Or.inl rfl) hcp') (c := ny.n + 1)
    (by omega)
    (by rw [tri_up, hcp'.here]; exact (joinE_gt (j := 0)).symm)
    (by rw [tri_up, tri_lf, hcp'.like.nodes]; simp)
    (by rw [tri_up, tri_rt, hcp'.like.nodes]; simpa using hnz) hL hR
  rw [B.addrs_union] at hedit
  have hnum : nd'.n = nd.n := by
    rw [hcp'.like.n]
    simp
  have hnum' : ny₄.n = ny.n + 1 := by
    rw [K.num, hcp.like.n]
    rfl
  have hle := Nat.le_of_lt B.lt
  have hk := (Site.cutTree_kid kid (tri b a z) (tri nd' ny₄ (nz₄.trim V.t drt))
    (joinF ny.n ky kz) l 1 (ny.n + 1)).1
  refine ⟨b, a, _, _, ?_, F₉.quiet, ⟨hg, hedit⟩, rfl, hnum, by rw [hk]; rfl,
    by rw [hk]; exact hnum', ?_, ?_, ?_⟩
  · simp only [borrowCase3a2, run_bind (getNode_run F.up hx _), hny, hnz,
      run_bind (getN_run F.up), run_bind (incrScion_run F.lf _), run_bind (getN_run F₁.lf),
      BtN.addSc_n, BtN.addSc_leaf, run_bind (addN_run F₁.lf _), run_bind hset,
      run_bind (getN_run F₃.rt), run_bind (decrScion_run F₃.rt _), run_bind hset',
      run_bind hgive, run_bind hmv, run_bind hsk, run_bind htr]
    rfl
  · refine Grown.of_pre (V.entry nd l :: (kz 0).flat V) hle (hle.trans_eq hnum.symm) hflat hpre ?_
    rw [hk, Sub.kid_node, B.y]
    exact (Site.part_flat hL).trans (join_left V y ny nz ky kz _)
  · rw [hk, B.y]
    refine Site.part_within hL (by omega) (fun j hj => ?_) (fun j hj => ?_)
    · rw [Nat.zero_add, Nat.zero_add, joinE_lt hj]
    · rw [Nat.zero_add, Nat.zero_add, joinF_le hj]
  · rw [hk]
    exact hL.spans a

end Pair

end AlchemyDB
