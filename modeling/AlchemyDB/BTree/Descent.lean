/-
# `AlchemyDB.BTree.Descent` — going down one kid

The recursions of `bt_insertnonfull` and `deletekey` work on a kid of the node
they are in, and then, at most, correct the node itself.  `Link.toKid` hands the
place of the kid down, `Out.lift` brings the changed kid back up.
-/
import AlchemyDB.BTree.Site

namespace AlchemyDB

open Store Weave

variable {α β : Type} {d : Nat} {owe owe' : Int} {V : View α β} {s s₁ : Bt α} {x p pi i : Nat} {nd nd' : BtN α}
  {kid : Nat → Sub α (d + 1)} {K' : Sub α (d + 1)}

theorem Owing.inner (g : Owing V s.heap owe (Sub.node x nd kid)) : nd.leaf = false :=
  Bool.eq_false_iff.2 fun h => absurd (g.node.leaf.1 h) (by omega)

/-- The place of a kid. -/
theorem Link.toKid (L : Link s (Sub.node x nd kid).addrs x p pi)
    (g : Owing V s.heap owe (Sub.node x nd kid)) (hi : i ≤ nd.n) :
    Link s (kid i).addrs (kid i).addr x i := by
  refine ⟨L.bound, L.root, fun h => ?_, fun _ => ⟨g.node.apart i hi, nd, g.node.live, g.inner,
    g.node.link (by omega) i hi⟩⟩
  have hx := L.top (Sub.kid_mem hi h)
  exact absurd (hx ▸ h) (g.node.apart i hi)

/-- The kid is not the root. -/
theorem Link.kid_ne_root (L : Link s (Sub.node x nd kid).addrs x p pi)
    (g : Owing V s.heap owe (Sub.node x nd kid)) (hi : i ≤ nd.n) : (kid i).addr ≠ s.root := by
  intro e
  have hx := L.top (Sub.kid_mem hi (e ▸ Sub.addr_mem _))
  exact g.node.apart i hi (hx ▸ e ▸ Sub.addr_mem _)

/-- The node after kid `i` has become `K'`: its pointer follows, its keys are as before,
and its scion has changed with that of the kid, up to what it owes. -/
structure Follows (V : View α β) (owe owe' : Int) (nd nd' : BtN α) (i : Nat)
    (K K' : Sub α (d + 1)) : Prop where
  num : nd'.n = nd.n
  leaf : nd'.leaf = nd.leaf
  disc : V.P nd'
  ent : ∀ j < nd.n, V.entry nd' j = V.entry nd j
  nodes : nd'.nodes = upd nd.nodes i K'.addr
  scion : V.counts → nd'.scion + owe' + K.weight V = nd.scion + owe + K'.weight V

/-- What the parent sees of a run on its kid. -/
theorem Out.parent (o : Out V 0 s s₁ (kid i) K' x i) (g : Owing V s.heap owe (Sub.node x nd kid))
    (L : Link s (Sub.node x nd kid).addrs x p pi) (hi : i ≤ nd.n) :
    s₁.heap x = some (nd.setKid i K'.addr) := by
  have hx : x < s.next := L.bound x (by simp [g.node.live])
  rw [o.edit.away x hx (g.node.apart i hi), if_pos ⟨L.kid_ne_root g hi, rfl⟩, g.node.live]
  rfl

theorem Out.lift (o : Out V 0 s s₁ (kid i) K' x i) (g : Owing V s.heap owe (Sub.node x nd kid))
    (L : Link s (Sub.node x nd kid).addrs x p pi) (hi : i ≤ nd.n) (hlow : V.t - 1 ≤ K'.size)
    (H : Follows V owe owe' nd nd' i (kid i) K') :
    Out V owe' s (s₁.setHeap x (some nd')) (Sub.node x nd kid)
      (Sub.node x nd' (splice i 0 0 (fun _ => K') kid)) p pi ∧
    (Sub.node x nd' (splice i 0 0 (fun _ => K') kid)).flat V =
      (Sub.node x nd kid).pre V i ++ (K'.flat V ++ (Sub.node x nd kid).post V i) := by
  have hx : x < s.next := L.bound x (by simp [g.node.live])
  have hK : ∀ b ∈ K'.addrs, b ∈ (kid i).addrs ∨ b ∉ (Sub.node x nd kid).addrs := by
    intro b hb
    rcases o.edit.fresh b hb with h | h
    · exact Or.inl h
    · refine Or.inr (fun h' => ?_)
      have := L.bound b (g.live b h')
      omega
  have hxK : x ∉ K'.addrs := fun h => by
    rcases hK x h with h | h
    · exact g.node.apart i hi h
    · exact h (Or.inl rfl)
  have hP : ∀ b ∈ K'.addrs, (s₁.setHeap x (some nd')).heap b = s₁.heap b := by
    intro b hb
    exact upd_ne _ _ (fun e => hxK (e ▸ hb))
  have hW : Window V owe owe' s.heap (s₁.setHeap x (some nd')).heap x x nd nd' kid i 0 0 (fun _ => K') := by
    have hn := H.num
    have hfill := g.node.fill
    refine ⟨hi, by omega, by omega, upd_same _ _ _, H.leaf, H.disc, fun j hj => H.ent j (by omega),
      fun j hj => by omega, fun j hj hn => H.ent j hn, fun _ j hj => ?_, fun _ j hj => ?_,
      fun _ j hj hn => ?_, fun _ _ => o.good.frame hP, fun _ _ _ => hlow, ?_, ?_, Or.inl rfl,
      fun _ _ => hxK, fun a ha b hb hne => by omega, ?_⟩
    · rw [H.nodes, upd_ne _ _ (by omega)]
    · obtain rfl : j = 0 := by omega
      rw [H.nodes, Nat.add_zero i, upd_same]
    · rw [H.nodes]
      exact upd_ne _ _ (by omega)
    · intro j hj ho b hb
      have hne : b ≠ x := fun e => g.node.apart j hj (e ▸ hb)
      have hb' : b ∉ (kid i).addrs := g.node.disj j hj i hi (by omega) b hb
      have hlt : b < s.next := L.bound b ((g.kids j hj).live b hb)
      rw [Bt.setHeap_heap, upd_ne _ _ hne, o.edit.away b hlt hb', if_neg (fun h => hne h.2)]
    · intro j _ b hb
      exact (hK b hb).imp (fun h => ⟨0, Nat.le_refl 0, h⟩) id
    · intro hc
      have := H.scion hc
      simp only [weave_zero, Nat.add_zero]
      exact this
  refine ⟨⟨hW.node_good g, ?_⟩, ?_⟩
  · have hsub : insert x (kid i).addrs ⊆ (Sub.node x nd kid).addrs := by
      rintro b (rfl | hb)
      · exact Or.inl rfl
      · exact Sub.kid_mem hi hb
    have hn := H.num
    have hE : Edit s s₁ (Sub.node x nd kid).addrs
        (Sub.node x nd' (splice i 0 0 (fun _ => K') kid)).addrs x x p pi := by
      refine (o.edit.lift (L.kid_ne_root g hi) (L.mono hsub)).widen hsub (fun b hb => ?_)
        (fun b hb => ?_) (fun b hb hr => ?_)
      · rcases hW.mem_addrs hb with rfl | ⟨j, _, hb⟩ | ⟨j, hj, _, hb⟩
        · exact Or.inl (Or.inl rfl)
        · exact (o.edit.fresh b hb).imp (fun h => Sub.kid_mem hi h) id
        · exact Or.inl (Sub.kid_mem hj hb)
      · rcases hb with rfl | hb
        · exact Or.inl rfl
        · exact Sub.kid_mem (j := i) (by omega) (by rwa [splice_at])
      · rcases hb with rfl | ⟨j, hj, hb⟩
        · exact absurd (Or.inl rfl) hr
        · have hne : j ≠ i := fun e => hr (Or.inr (e ▸ hb))
          exact Sub.kid_mem (j := j) (by omega) (by rwa [splice_off hne])
    have hlive : s₁.heap x ≠ none := by simp [o.parent g L hi]
    exact hE.trans (Edit.write (hE.link L (Or.inl rfl) hlive) (Or.inl rfl) hlive (some nd')) L
      (Or.inl rfl)
  · rw [hW.flat, weave_zero]
    rfl

/-- What is read around a kid does not change with it. -/
theorem splice_pre {d : Nat} {nd nd' : BtN α} {kid : Nat → Sub α d} {K' : Sub α d} {i j a : Nat}
    (hj : j ≤ i) (h : ∀ m < j, V.entry nd' m = V.entry nd m) :
    (Sub.node a nd' (splice i 0 0 (fun _ => K') kid)).pre V j = (Sub.node x nd kid).pre V j :=
  left_congr h (fun m hm => by rw [splice_lt (by omega)])

theorem splice_post {d : Nat} {nd nd' : BtN α} {kid : Nat → Sub α d} {K' : Sub α d} {i j a : Nat}
    (hj : i ≤ j) (hn : nd'.n = nd.n) (h : ∀ m < nd.n, j ≤ m → V.entry nd' m = V.entry nd m) :
    (Sub.node a nd' (splice i 0 0 (fun _ => K') kid)).post V j = (Sub.node x nd kid).post V j := by
  simp only [Sub.post, hn]
  refine right_congr (fun m hm => h _ (by omega) (by omega)) (fun m hm => ?_)
  rw [splice_off (by omega)]

/-- Nothing is done to the node after its kid has changed. -/
theorem Out.lift_same (o : Out V 0 s s₁ (kid i) K' x i) (g : Owing V s.heap owe (Sub.node x nd kid))
    (L : Link s (Sub.node x nd kid).addrs x p pi) (hi : i ≤ nd.n) (hlow : V.t - 1 ≤ K'.size)
    (hsc : V.counts → owe' + (kid i).weight V = owe + K'.weight V) :
    Out V owe' s s₁ (Sub.node x nd kid)
      (Sub.node x (nd.setKid i K'.addr) (splice i 0 0 (fun _ => K') kid)) p pi ∧
    (Sub.node x (nd.setKid i K'.addr) (splice i 0 0 (fun _ => K') kid)).flat V =
      (Sub.node x nd kid).pre V i ++ (K'.flat V ++ (Sub.node x nd kid).post V i) := by
  have hF : Follows V owe owe' nd (nd.setKid i K'.addr) i (kid i) K' := by
    refine ⟨rfl, rfl, View.P_setKid _ _ g.node.disc, fun j _ => rfl, rfl, fun hc => ?_⟩
    have := hsc hc
    rw [BtN.setKid_scion]
    omega
  have h := o.lift g L hi hlow hF
  have hs : s₁.setHeap x (some (nd.setKid i K'.addr)) = s₁ := by
    rw [Bt.setHeap, ← o.parent g L hi, upd_self]
  rwa [hs] at h

/-- Two runs on the same subtree. -/
theorem Out.trans {T T' T'' : Sub α (d + 1)} {s₂ : Bt α} (o : Out V owe s s₁ T T' p pi)
    (o' : Out V owe' s₁ s₂ T' T'' p pi) (L : Link s T.addrs T.addr p pi) :
    Out V owe' s s₂ T T'' p pi :=
  ⟨o'.good, o.edit.trans o'.edit L (Sub.addr_mem T')⟩

theorem Out.link {T T' : Sub α (d + 1)} (o : Out V owe s s₁ T T' p pi)
    (L : Link s T.addrs T.addr p pi) : Link s₁ T'.addrs T'.addr p pi :=
  o.edit.link L (Sub.addr_mem T') (o.good.live _ (Sub.addr_mem T'))

/-! ## Leaves -/

section Leaf

variable {kid : Nat → Sub α 0}

theorem Sub.flat_nil (T : Sub α 0) : T.flat V = [] := by
  cases T
  rfl

theorem Sub.addrs_nil (T : Sub α 0) : T.addrs = ∅ := by
  cases T
  rfl

theorem flat_leaf (a : Nat) (nd : BtN α) (kid : Nat → Sub α 0) :
    (Sub.node a nd kid).flat V = (List.range nd.n).map (V.entry nd) := by
  rw [Sub.flat_node]
  exact weave_blank (fun j => Sub.flat_nil (kid j))

theorem addrs_leaf (a : Nat) (nd : BtN α) (kid : Nat → Sub α 0) :
    (Sub.node a nd kid).addrs = {a} := by
  ext b
  rw [Sub.mem_addrs_node]
  simp [Sub.addrs_nil]

/-- A leaf is overwritten. -/
theorem leaf_out (g : Owing V s.heap owe (Sub.node x nd kid))
    (L : Link s (Sub.node x nd kid).addrs x p pi) (hl : nd'.leaf = nd.leaf)
    (hn : nd'.n ≤ 2 * V.t - 1) (hP : V.P nd') (hok : ∀ j < nd'.n, V.ok (V.entry nd' j))
    (hsc : V.counts → nd'.scion + owe' = (Sub.node x nd' kid).weight V) :
    Out V owe' s (s.setHeap x (some nd')) (Sub.node x nd kid) (Sub.node x nd' kid) p pi := by
  refine ⟨⟨⟨upd_same _ _ _, by rw [hl]; exact g.node.leaf, fun h => absurd rfl h, hn,
    fun h => absurd rfl h, hP, hok, hsc, fun j _ => ?_, fun i _ j _ _ b hb => ?_⟩, fun j _ => ?_⟩, ?_⟩
  · simp [Sub.addrs_nil]
  · simp [Sub.addrs_nil] at hb
  · cases kid j
    trivial
  · have hE := Edit.write L (Or.inl rfl) (by simp [g.node.live]) (some nd')
    rw [addrs_leaf] at hE
    rw [addrs_leaf, addrs_leaf]
    exact hE

end Leaf

/-- Every entry of a good subtree is `ok`. -/
theorem Owing.all_ok {h : Nat → Option (BtN α)} : ∀ {d : Nat} {T : Sub α d} {owe : Int},
    Owing V h owe T → ∀ b ∈ T.flat V, V.ok b
  | _, .nil, _, _, b, hb => absurd hb List.not_mem_nil
  | _, .node a nd kid, _, g, b, hb => by
      rcases mem_weave.1 hb with ⟨j, hj, rfl⟩ | ⟨j, hj, hb⟩
      · exact g.node.seen j hj
      · exact (g.kids j hj).all_ok b hb

/-! ## The top node changes -/

/-- A run that has touched only the node `x`, now at `a` with contents `nd`. -/
abbrev Solo (s s' : Bt α) (x a : Nat) (nd : BtN α) (p pi : Nat) : Prop :=
  Focus ⟨s, fun _ : Unit => x, p, pi⟩ () s' (fun _ => a) (fun _ => nd)

section Solo

variable {d : Nat} {kid : Nat → Sub α d} {s' : Bt α} {a : Nat}

theorem upd_unit {A : Type} (f : Unit → A) (v : A) : upd f () v = fun _ => v := by
  funext u
  exact upd_same f u v

theorem solo_start (h : s.heap x = some nd) {R : Set Nat} (L : Link s R x p pi) (hx : x ∈ R) :
    Solo s s x x nd p pi :=
  Focus.start' (fun _ => h) (fun _ _ _ => rfl) (L.mono (by rintro b ⟨_, rfl⟩; exact hx))

theorem Solo.put (F : Solo s s' x a nd p pi) (nd' : BtN α) :
    Solo s (s'.setHeap a (some nd')) x a nd' p pi := by
  have h := Focus.write F () nd'
  rwa [upd_unit] at h

theorem Solo.setDR (F : Solo s s' x a nd p pi) (i v : Nat) :
    ∃ a' s'', AlchemyDB.setDR a i v p pi s' = some (a', s'') ∧
      Solo s s'' x a' (nd.stDR s.t i v) p pi := by
  obtain ⟨a', s'', hrun, F'⟩ := Focus.setDR F (Or.inl ⟨rfl, rfl, rfl⟩) i v
  rw [upd_unit, upd_unit] at F'
  exact ⟨a', s'', hrun, F'⟩

theorem Solo.overwriteDR (F : Solo s s' x a nd p pi) (i v : Nat) :
    ∃ a' s'', AlchemyDB.overwriteDR a i v p pi s' = some (a', s'') ∧
      Solo s s'' x a' (nd.owDR s.t i v) p pi := by
  obtain ⟨a', s'', hrun, F'⟩ := Focus.overwriteDR F (Or.inl ⟨rfl, rfl, rfl⟩) i v
  rw [upd_unit, upd_unit] at F'
  exact ⟨a', s'', hrun, F'⟩

/-- What is asked of the new contents of a top node whose kids stay. -/
structure Retop (V : View α β) (nd nd' : BtN α) : Prop where
  num : nd'.n = nd.n
  leaf : nd'.leaf = nd.leaf
  nodes : nd'.nodes = nd.nodes
  disc : V.P nd'
  seen : ∀ j < nd.n, V.ok (V.entry nd' j)

theorem Solo.kids (F : Solo s s' x a nd' p pi) (g : Owing V s.heap owe (Sub.node x nd kid))
    (L : Link s (Sub.node x nd kid).addrs x p pi) :
    ∀ j ≤ nd.n, ∀ b ∈ (kid j).addrs, s'.heap b = s.heap b := by
  intro j hj b hb
  have hlt : b < s.next := L.bound b ((g.kids j hj).live b hb)
  have hne : b ∉ Set.range (fun _ : Unit => x) := by
    rintro ⟨_, rfl⟩
    exact g.node.apart j hj hb
  rw [F.edit.away b hlt hne, if_neg]
  rintro ⟨h1, rfl⟩
  exact (L.place h1).1 (Sub.kid_mem hj hb)

theorem Solo.out (F : Solo s s' x a nd' p pi) (g : Owing V s.heap owe (Sub.node x nd kid))
    (L : Link s (Sub.node x nd kid).addrs x p pi) (R : Retop V nd nd')
    (hsc : V.counts → nd'.scion + owe' = (Sub.node a nd' kid).weight V) :
    Out V owe' s s' (Sub.node x nd kid) (Sub.node a nd' kid) p pi := by
  have hn := R.num
  have hown : a = x ∨ s.next ≤ a := F.own ()
  have hnew : ∀ j ≤ nd.n, a ∉ (kid j).addrs := by
    intro j hj h
    rcases hown with rfl | ha
    · exact g.node.apart j hj h
    · have := L.bound a ((g.kids j hj).live a h)
      omega
  have hkid := F.kids g L
  refine ⟨⟨⟨F.live (), by rw [R.leaf]; exact g.node.leaf, fun hd j hj => ?_, ?_, fun hd j hj => ?_,
    R.disc, fun j hj => R.seen j (hn ▸ hj), hsc, fun j hj => hnew j (hn ▸ hj),
    fun i hi j hj => g.node.disj i (hn ▸ hi) j (hn ▸ hj)⟩, fun j hj => ?_⟩, ?_⟩
  · rw [R.nodes]
    exact g.node.link hd j (hn ▸ hj)
  · rw [hn]
    exact g.node.fill
  · exact g.node.low hd j (hn ▸ hj)
  · exact (g.kids j (hn ▸ hj)).frame (hkid j (hn ▸ hj))
  · refine F.edit.widen (fun b => ?_) (fun b hb => ?_) (fun b hb => ?_) (fun b hb hr => ?_)
    · rintro ⟨_, rfl⟩
      exact Or.inl rfl
    · rcases hb with rfl | ⟨j, hj, hb⟩
      · exact hown.imp (fun h => Or.inl h) id
      · exact Or.inl (Or.inr ⟨j, hn ▸ hj, hb⟩)
    · obtain ⟨_, rfl⟩ := hb
      exact Or.inl rfl
    · rcases hb with rfl | ⟨j, hj, hb⟩
      · exact absurd ⟨(), rfl⟩ hr
      · exact Or.inr ⟨j, hn ▸ hj, hb⟩

/-- The reading of a node whose key `i` has changed. -/
theorem flat_retop {i : Nat} (hi : i < nd.n) (hn : nd'.n = nd.n)
    (h : ∀ j < nd.n, j ≠ i → V.entry nd' j = V.entry nd j) :
    (Sub.node a nd' kid).flat V = (Sub.node x nd kid).pre V i ++ ((kid i).flat V ++
      V.entry nd' i :: ((kid (i + 1)).flat V ++ (Sub.node x nd kid).post V (i + 1))) := by
  have hpre : (Sub.node a nd' kid).pre V i = (Sub.node x nd kid).pre V i :=
    left_congr (fun j hj => h j (by omega) (by omega)) (fun _ _ => rfl)
  have hpost : (Sub.node a nd' kid).post V (i + 1) = (Sub.node x nd kid).post V (i + 1) := by
    simp only [Sub.post, hn]
    exact right_congr (fun j hj => h _ (by omega) (by omega)) (fun _ _ => rfl)
  rw [(Sub.node a nd' kid).flat_focus V (show i ≤ nd'.n by omega), hpre,
    (Sub.node a nd' kid).post_succ V (show i < nd'.n by omega), hpost]
  rfl

/-- The same for the reading before the change. -/
theorem flat_at {i : Nat} (hi : i < nd.n) : (Sub.node x nd kid).flat V =
    (Sub.node x nd kid).pre V i ++ ((kid i).flat V ++
      V.entry nd i :: ((kid (i + 1)).flat V ++ (Sub.node x nd kid).post V (i + 1))) :=
  flat_retop hi rfl (fun _ _ _ => rfl)

end Solo

/-! ## The whole tree -/

/-- `T` is the whole tree: it hangs from the root pointer, and its root is not empty unless
it is a leaf. -/
structure Whole (V : View α β) (s : Bt α) (T : Sub α (d + 1)) : Prop where
  good : Good V s.heap T
  root : s.root = T.addr
  bound : ∀ b, s.heap b ≠ none → b < s.next
  kept : ∀ b, s.heap b ≠ none → b ∈ T.addrs
  inner : d ≠ 0 → 0 < T.size

/-- When every live node was edited, the live nodes are the new ones. -/
theorem Edit.whole_kept {R R' : Set Nat} {x x' : Nat} (E : Edit s s₁ R R' x x' p pi)
    (h : ∀ b, s.heap b ≠ none → b ∈ R) : ∀ b, s₁.heap b ≠ none → b ∈ R' := by
  intro b hb
  rcases E.kept b hb with h' | ⟨h1, h2⟩
  · exact h'
  · exact absurd (h b (E.live_before h1 h2 hb)) h2

/-- A subtree has at least as many nodes as it is deep. -/
theorem Owing.path {h : Nat → Option (BtN α)} : ∀ {d : Nat} {T : Sub α d}, Good V h T →
    ∃ F : Finset Nat, F.card = d ∧ ∀ b ∈ F, b ∈ T.addrs
  | _, .nil, _ => ⟨∅, rfl, fun b hb => absurd hb (Finset.notMem_empty b)⟩
  | _, .node a nd kid, g => by
      obtain ⟨F, hF, hmem⟩ := (g.kids 0 (Nat.zero_le _)).path
      have ha : a ∉ F := fun h => g.node.apart 0 (Nat.zero_le _) (hmem a h)
      refine ⟨insert a F, by rw [Finset.card_insert_of_notMem ha, hF], fun b hb => ?_⟩
      rcases Finset.mem_insert.1 hb with rfl | hb
      · exact Or.inl rfl
      · exact Sub.kid_mem (Nat.zero_le _) (hmem b hb)

namespace Whole

variable {T : Sub α (d + 1)} {s' : Bt α}

theorem link (W : Whole V s T) (p pi : Nat) : Link s T.addrs T.addr p pi :=
  ⟨W.bound, W.good.live _ (W.root ▸ T.addr_mem), fun _ => W.root.symm,
    fun h => absurd W.root.symm h⟩

/-- The walks of the tree have enough fuel. -/
theorem depth (W : Whole V s T) : d < s.next := by
  obtain ⟨F, hF, hmem⟩ := W.good.path
  have hsub : F ⊆ Finset.range s.next := fun b hb =>
    Finset.mem_range.2 (W.bound b (W.good.live b (hmem b hb)))
  have := Finset.card_le_card hsub
  rw [hF, Finset.card_range] at this
  omega

theorem out {T' : Sub α (d + 1)} (W : Whole V s T) (o : Out V 0 s s' T T' p pi)
    (h : d ≠ 0 → 0 < T'.size) : Whole V s' T' :=
  ⟨o.good, by rw [o.edit.root, if_pos W.root.symm], o.edit.bound, o.edit.whole_kept W.kept, h⟩

end Whole

end AlchemyDB
