/-
# `AlchemyDB.BTree.Site` — where a balancing step works

Every balancing step takes one kid of a node, or two adjacent ones, as ONE
sequence of entries `E` and subtrees `G` (their separator included), and lays
the sequence out again as one node or as two nodes cut at some entry: a split
cuts one kid, a merge joins two, a borrow moves the cut by one.  `Site` is the
situation before the step; `Site.cut` and `Site.whole` build the tree after it
from the contents the run leaves in the nodes.
-/
import AlchemyDB.BTree.Tree
import AlchemyDB.BTree.Focus

namespace AlchemyDB

open Store Weave

variable {α β : Type} {d : Nat} {owe : Int}

/-- The roles of a balancing step: the parent, the left and the right kid. -/
inductive Role where
  | up | lf | rt
deriving DecidableEq

/-! ## Rows of subtrees -/

/-- Subtrees side by side. -/
structure Siblings (V : View α β) (h : Nat → Option (BtN α)) (N : Nat) (G : Nat → Sub α d) :
    Prop where
  good : ∀ j ≤ N, Good V h (G j)
  low : d ≠ 0 → ∀ j ≤ N, V.t - 1 ≤ (G j).size
  disj : ∀ i ≤ N, ∀ j ≤ N, i ≠ j → ∀ b ∈ (G i).addrs, b ∉ (G j).addrs

section Siblings

variable {V : View α β} {h h' : Nat → Option (BtN α)} {N : Nat} {G : Nat → Sub α d}

theorem Siblings.frame (R : Siblings V h N G) (hh : ∀ j ≤ N, ∀ b ∈ (G j).addrs, h' b = h b) :
    Siblings V h' N G :=
  { R with good := fun j hj => (R.good j hj).frame (hh j hj) }

theorem Owing.row {a : Nat} {nd : BtN α} {kid : Nat → Sub α d} (g : Owing V h owe (Sub.node a nd kid)) :
    Siblings V h nd.n kid :=
  ⟨g.kids, g.node.low, g.node.disj⟩

/-- A node over a stretch of the row. -/
theorem Siblings.node_good (R : Siblings V h N G) {a o : Nat} {nd : BtN α} (hn : o + nd.n ≤ N)
    (hl : h a = some nd) (hleaf : nd.leaf = true ↔ d = 0)
    (hlink : d ≠ 0 → ∀ j ≤ nd.n, nd.nodes j = (G (o + j)).addr)
    (hfill : nd.n ≤ 2 * V.t - 1) (hP : V.P nd)
    (hok : ∀ j < nd.n, V.ok (V.entry nd j)) (ha : ∀ j ≤ N, a ∉ (G j).addrs)
    (hsci : V.counts → nd.scion =
      ((weave nd.n (V.entry nd) (fun j => (G (o + j)).flat V)).map V.wt).sum) :
    Good V h (Sub.node a nd (fun j => G (o + j))) := by
  refine ⟨⟨hl, hleaf, hlink, hfill, fun hd j hj => R.low hd _ (by omega), hP, hok,
    fun hc => (add_zero _).trans (hsci hc),
    fun j hj => ha _ (by omega), ?_⟩, fun j hj => R.good _ (by omega)⟩
  exact fun i hi j hj hne => R.disj _ (by omega) _ (by omega) (by omega)

end Siblings

/-! ## Sites -/

/-- The node `x`, at the place `(p, pi)`, and the `w + 1` kids from slot `l` on, which
read as the one sequence of `N` entries `E` and `N + 1` subtrees `G`. -/
structure Site (V : View α β) (owe : Int) (s : Bt α) (x : Nat) (nd : BtN α) (kid : Nat → Sub α (d + 1))
    (l w N : Nat) (E : Nat → β) (G : Nat → Sub α d) (p pi : Nat) : Prop where
  good : Owing V s.heap owe (Sub.node x nd kid)
  link : Link s (Sub.node x nd kid).addrs x p pi
  fits : l + w ≤ nd.n
  read : weave w (fun j => V.entry nd (l + j)) (fun j => (kid (l + j)).flat V) =
    weave N E (fun j => (G j).flat V)
  seen : ∀ j < N, V.ok (E j)
  row : Siblings V s.heap N G
  below : ∀ j ≤ N, ∀ b ∈ (G j).addrs, ∃ m ≤ w, b ∈ (kid (l + m)).addrs
  above : ∀ m ≤ w, ∀ b ∈ (kid (l + m)).addrs, b = (kid (l + m)).addr ∨ ∃ j ≤ N, b ∈ (G j).addrs
  apart : ∀ j ≤ N, ∀ m ≤ w, (kid (l + m)).addr ∉ (G j).addrs

section Site

variable {V : View α β} {s : Bt α} {x p pi : Nat} {nd : BtN α} {kid : Nat → Sub α (d + 1)}

/-- One kid as a sequence. -/
theorem site_one (g : Owing V s.heap owe (Sub.node x nd kid))
    (L : Link s (Sub.node x nd kid).addrs x p pi) {l y : Nat} {ny : BtN α} {ky : Nat → Sub α d}
    (hl : l ≤ nd.n) (hy : kid l = Sub.node y ny ky) :
    Site V owe s x nd kid l 0 ny.n (V.entry ny) ky p pi := by
  have gy : Good V s.heap (Sub.node y ny ky) := hy ▸ g.kids l hl
  refine ⟨g, L, hl, ?_, gy.node.seen, gy.row, ?_, ?_, ?_⟩
  · rw [weave_zero, Nat.add_zero l, hy]
    rfl
  · intro j hj b hb
    refine ⟨0, Nat.le_refl 0, ?_⟩
    rw [Nat.add_zero l, hy]
    exact Sub.kid_mem hj hb
  · intro m hm b hb
    obtain rfl : m = 0 := by omega
    rw [Nat.add_zero l, hy] at hb ⊢
    exact hb
  · intro j hj m hm
    obtain rfl : m = 0 := by omega
    rw [Nat.add_zero l, hy]
    exact gy.node.apart j hj

/-- The reading of two nodes with the separator `e` between them. -/
theorem read_join (V : View α β) (y z : Nat) (ny nz : BtN α) (ky kz : Nat → Sub α d) (e : β) :
    weave (ny.n + 1 + nz.n) (joinE ny.n (V.entry ny) e (V.entry nz))
      (fun j => (joinF ny.n ky kz j).flat V) =
      (Sub.node y ny ky).flat V ++ e :: (Sub.node z nz kz).flat V := by
  have hflat : (fun j => (joinF ny.n ky kz j).flat V) =
      joinF ny.n (fun j => (ky j).flat V) (fun j => (kz j).flat V) := by
    funext j
    simp only [joinF]
    split_ifs <;> rfl
  rw [hflat, weave_join]
  rfl

/-- Two adjacent kids as a sequence. -/
theorem site_two (g : Owing V s.heap owe (Sub.node x nd kid))
    (L : Link s (Sub.node x nd kid).addrs x p pi) {l y z : Nat} {ny nz : BtN α}
    {ky kz : Nat → Sub α d} (hl : l < nd.n) (hy : kid l = Sub.node y ny ky)
    (hz : kid (l + 1) = Sub.node z nz kz) :
    Site V owe s x nd kid l 1 (ny.n + 1 + nz.n) (joinE ny.n (V.entry ny) (V.entry nd l) (V.entry nz))
      (joinF ny.n ky kz) p pi := by
  have gy : Good V s.heap (Sub.node y ny ky) := hy ▸ g.kids l (by omega)
  have gz : Good V s.heap (Sub.node z nz kz) := hz ▸ g.kids (l + 1) (by omega)
  have hyz : ∀ b ∈ (Sub.node y ny ky).addrs, b ∉ (Sub.node z nz kz).addrs := by
    rw [← hy, ← hz]
    exact g.node.disj l (by omega) (l + 1) (by omega) (by omega)
  -- a subtree of the sequence is one of `ky` or one of `kz`
  have hG : ∀ j ≤ ny.n + 1 + nz.n, (∃ m ≤ ny.n, j = m ∧ joinF ny.n ky kz j = ky m) ∨
      ∃ m ≤ nz.n, j = ny.n + 1 + m ∧ joinF ny.n ky kz j = kz m := by
    intro j hj
    by_cases h : j ≤ ny.n
    · exact Or.inl ⟨j, h, rfl, joinF_le h⟩
    · refine Or.inr ⟨j - ny.n - 1, by omega, by omega, ?_⟩
      rw [show j = ny.n + 1 + (j - ny.n - 1) by omega, joinF_gt]
      congr 1
      omega
  refine ⟨g, L, hl, ?_, ?_, ⟨?_, ?_, ?_⟩, ?_, ?_, ?_⟩
  · rw [read_join V y z, weave_one, Nat.add_zero l, hy, hz]
  · intro j hj
    rcases Nat.lt_trichotomy j ny.n with h | h | h
    · rw [joinE_lt h]
      exact gy.node.seen j h
    · rw [h, joinE_at]
      exact g.node.seen l hl
    · rw [show j = ny.n + 1 + (j - ny.n - 1) by omega, joinE_gt]
      exact gz.node.seen _ (by omega)
  · intro j hj
    rcases hG j hj with ⟨m, hm, -, h⟩ | ⟨m, hm, -, h⟩ <;> rw [h]
    · exact gy.kids m hm
    · exact gz.kids m hm
  · intro hd j hj
    rcases hG j hj with ⟨m, hm, -, h⟩ | ⟨m, hm, -, h⟩ <;> rw [h]
    · exact gy.node.low hd m hm
    · exact gz.node.low hd m hm
  · intro i hi j hj hne b
    rcases hG i hi with ⟨m, hm, e, h⟩ | ⟨m, hm, e, h⟩ <;>
      rcases hG j hj with ⟨m', hm', e', h'⟩ | ⟨m', hm', e', h'⟩ <;> rw [h, h']
    · exact gy.node.disj m hm m' hm' (by omega) b
    · exact fun hb hb' => hyz b (Sub.kid_mem hm hb) (Sub.kid_mem hm' hb')
    · exact fun hb hb' => hyz b (Sub.kid_mem hm' hb') (Sub.kid_mem hm hb)
    · exact gz.node.disj m hm m' hm' (by omega) b
  · intro j hj b hb
    rcases hG j hj with ⟨m, hm, -, h⟩ | ⟨m, hm, -, h⟩ <;> rw [h] at hb
    · refine ⟨0, by omega, ?_⟩
      rw [Nat.add_zero l, hy]
      exact Sub.kid_mem hm hb
    · refine ⟨1, by omega, ?_⟩
      rw [hz]
      exact Sub.kid_mem hm hb
  · intro m hm b hb
    obtain rfl | rfl : m = 0 ∨ m = 1 := by omega
    · rw [Nat.add_zero l, hy] at hb ⊢
      rcases hb with rfl | ⟨j, hj, hb⟩
      · exact Or.inl rfl
      · exact Or.inr ⟨j, by omega, by rwa [joinF_le hj]⟩
    · rw [hz] at hb ⊢
      rcases hb with rfl | ⟨j, hj, hb⟩
      · exact Or.inl rfl
      · exact Or.inr ⟨ny.n + 1 + j, by omega, by rwa [joinF_gt]⟩
  · intro j hj m hm
    obtain rfl | rfl : m = 0 ∨ m = 1 := by omega
    · rw [Nat.add_zero l, hy]
      rcases hG j hj with ⟨m', hm', -, h⟩ | ⟨m', hm', -, h⟩ <;> rw [h]
      · exact gy.node.apart m' hm'
      · exact fun hb => hyz y (Or.inl rfl) (Sub.kid_mem hm' hb)
    · rw [hz]
      rcases hG j hj with ⟨m', hm', -, h⟩ | ⟨m', hm', -, h⟩ <;> rw [h]
      · exact fun hb => hyz z (Sub.kid_mem hm' hb) (Or.inl rfl)
      · exact gz.node.apart m' hm'

/-- A run on the parent and the kids of a site: the other roles are played by the kids of
the window and by nodes outside the tree. -/
structure Cast (s : Bt α) (x : Nat) (nd : BtN α) (kid : Nat → Sub α (d + 1)) (l w p pi : Nat)
    (J : Job Role α) : Prop where
  s : J.s = s
  up : J.ad .up = x
  p : J.p = p
  pi : J.pi = pi
  kids : ∀ r, r ≠ .up →
    (∃ m ≤ w, J.ad r = (kid (l + m)).addr) ∨ J.ad r ∉ (Sub.node x nd kid).addrs
  tops : ∀ m ≤ w, ∃ r, J.ad r = (kid (l + m)).addr

namespace Site

variable {l w N : Nat} {E : Nat → β} {G : Nat → Sub α d} {J : Job Role α} {s' : Bt α}
  {ad : Role → Nat} {ct : Role → BtN α}

/-- The nodes of the tree that play no role are as before. -/
theorem frame (S : Site V owe s x nd kid l w N E G p pi) (C : Cast s x nd kid l w p pi J)
    (F : Focus J .up s' ad ct) {b : Nat} (hb : b ∈ (Sub.node x nd kid).addrs)
    (hr : ∀ r, b ≠ J.ad r) : s'.heap b = s.heap b := by
  have hlt := S.link.bound b (S.good.live b hb)
  have h := F.edit.away b (by rw [C.s]; exact hlt) (by rintro ⟨r, e⟩; exact hr r e.symm)
  rw [h, C.s, C.up, C.p]
  split_ifs with hp
  · exact absurd (hp.2 ▸ hb) (S.link.place hp.1).1
  · rfl

/-- Where the nodes of the run are: new, or where they were. -/
theorem own (S : Site V owe s x nd kid l w N E G p pi) (C : Cast s x nd kid l w p pi J)
    (F : Focus J .up s' ad ct) (r : Role) :
    ad r = J.ad r ∨ ad r ∉ (Sub.node x nd kid).addrs := by
  rcases F.own r with h | h
  · exact Or.inl h
  · refine Or.inr (fun hb => ?_)
    have := S.link.bound _ (S.good.live _ hb)
    rw [C.s] at h
    omega

theorem kid_mem (S : Site V owe s x nd kid l w N E G p pi) {m b : Nat} (hm : m ≤ w)
    (hb : b ∈ (kid (l + m)).addrs) : b ∈ (Sub.node x nd kid).addrs :=
  Sub.kid_mem (by have := S.fits; omega) hb

/-- No subtree of the sequence holds a node that plays a role. -/
theorem role_notin (S : Site V owe s x nd kid l w N E G p pi) (C : Cast s x nd kid l w p pi J)
    (r : Role) {j : Nat} (hj : j ≤ N) : J.ad r ∉ (G j).addrs := by
  intro hb
  obtain ⟨m, hm, hb'⟩ := S.below j hj _ hb
  have hf := S.fits
  by_cases hr : r = .up
  · rw [hr, C.up] at hb'
    exact S.good.node.apart (l + m) (by omega) hb'
  · rcases C.kids r hr with ⟨m', hm', h⟩ | h
    · rw [h] at hb
      exact S.apart j hj m' hm' hb
    · exact h (S.kid_mem hm hb')

theorem ad_notin (S : Site V owe s x nd kid l w N E G p pi) (C : Cast s x nd kid l w p pi J)
    (F : Focus J .up s' ad ct) (r : Role) {j : Nat} (hj : j ≤ N) : ad r ∉ (G j).addrs := by
  rcases S.own C F r with h | h
  · rw [h]
    exact S.role_notin C r hj
  · intro hb
    obtain ⟨m, hm, hb'⟩ := S.below j hj _ hb
    exact h (S.kid_mem hm hb')

/-- The sequence is still there after the run. -/
theorem row' (S : Site V owe s x nd kid l w N E G p pi) (C : Cast s x nd kid l w p pi J)
    (F : Focus J .up s' ad ct) : Siblings V s'.heap N G := by
  refine S.row.frame (fun j hj b hb => ?_)
  obtain ⟨m, hm, hb'⟩ := S.below j hj b hb
  refine S.frame C F (S.kid_mem hm hb') (fun r e => ?_)
  exact S.role_notin C r hj (e ▸ hb)

/-- The subtrees of the sequence have live top nodes, which play no role. -/
theorem live_kid (S : Site V owe s x nd kid l w N E G p pi) (C : Cast s x nd kid l w p pi J)
    (F : Focus J .up s' ad ct) (hd : d ≠ 0) {j : Nat} (hj : j ≤ N) :
    ∃ c, s'.heap (G j).addr = some c ∧ c.scion = (G j).scion ∧ ∀ r, (G j).addr ≠ ad r := by
  have hg := (S.row' C F).good j hj
  have hn := fun r => S.ad_notin C F r hj
  obtain ⟨e, rfl⟩ : ∃ e, d = e + 1 := ⟨d - 1, by omega⟩
  obtain ⟨c, nc, kc, hk⟩ := exists_node (G j)
  rw [hk] at hg hn ⊢
  exact ⟨nc, hg.node.live, rfl, fun r e => hn r (by rw [← e]; exact Or.inl rfl)⟩

end Site

/-! ## Laying the sequence out again -/

/-- The parent after the step: `w + 1` kids have become `w' + 1`. -/
structure UpOk (V : View α β) (nd nd' : BtN α) (l w w' : Nat) : Prop where
  num : nd'.n + w = nd.n + w'
  full : nd'.n ≤ 2 * V.t - 1
  leaf : nd'.leaf = nd.leaf
  disc : V.P nd'
  scion : nd'.scion = nd.scion
  entL : ∀ j < l, V.entry nd' j = V.entry nd j
  entR : ∀ j, l + w ≤ j → j < nd.n → V.entry nd' (j + w' - w) = V.entry nd j
  nodL : ∀ j < l, nd'.nodes j = nd.nodes j
  nodR : ∀ j, l + w < j → j ≤ nd.n → nd'.nodes (j + w' - w) = nd.nodes j

/-- A kid after the step: it holds the `m` entries of the sequence from `o` on. -/
structure PartOk (V : View α β) (nd : BtN α) (E : Nat → β) (G : Nat → Sub α d) (o m : Nat) :
    Prop where
  num : nd.n = m
  leaf : nd.leaf = true ↔ d = 0
  full : m ≤ 2 * V.t - 1
  low : V.t - 1 ≤ m
  disc : V.P nd
  ent : ∀ j < m, V.entry nd j = E (o + j)
  seen : ∀ j < m, V.ok (E (o + j))
  link : d ≠ 0 → ∀ j ≤ m, nd.nodes j = (G (o + j)).addr
  scion : V.counts → nd.scion =
    ((weave m (fun j => E (o + j)) (fun j => (G (o + j)).flat V)).map V.wt).sum

/-- The subtree in role `r` after the step. -/
def part (ad : Role → Nat) (ct : Role → BtN α) (G : Nat → Sub α d) (r : Role) (o : Nat) :
    Sub α (d + 1) :=
  Sub.node (ad r) (ct r) (fun j => G (o + j))

/-- What a step on a subtree leaves: a good subtree, and the rest of the heap as it was. -/
structure Out (V : View α β) (owe : Int) (s s' : Bt α) (T T' : Sub α d) (p pi : Nat) : Prop where
  good : Owing V s'.heap owe T'
  edit : Edit s s' T.addrs T'.addrs T.addr T'.addr p pi

/-- Kid `i` has become kid `i'` and grown on both sides. -/
def Grown (V : View α β) (T T' : Sub α (d + 1)) (i i' : Nat) : Prop :=
  ∃ A B, T.pre V i = T'.pre V i' ++ A ∧ T.post V i = B ++ T'.post V i' ∧
    (T'.kid i').flat V = A ++ ((T.kid i).flat V ++ B)

/-- The node of `K` lies in the node of `K'`, from slot `o` on. -/
structure Within (V : View α β) (K K' : Sub α (d + 1)) (o : Nat) : Prop where
  fits : o + K.size ≤ K'.size
  ent : ∀ j < K.size, V.entry K'.top (o + j) = V.entry K.top j
  kid : ∀ j ≤ K.size, K'.kid (o + j) = K.kid j

theorem Within.refl (V : View α β) (K : Sub α (d + 1)) : Within V K K 0 :=
  ⟨by omega, fun j _ => by rw [Nat.zero_add], fun j _ => by rw [Nat.zero_add]⟩

/-- What the larger node reads around the smaller one. -/
theorem Within.flat {V : View α β} : ∀ {K K' : Sub α (d + 1)} {o : Nat}, Within V K K' o →
    K'.flat V = K'.pre V o ++ (K.flat V ++ K'.post V (o + K.size))
  | .node _ nd kid, .node _ nd' kid', o, W => by
      have h := weave_window (e := V.entry nd') (F := fun j => (kid' j).flat V) W.fits
      have hin : weave nd.n (fun j => V.entry nd' (o + j)) (fun j => (kid' (o + j)).flat V) =
          weave nd.n (V.entry nd) (fun j => (kid j).flat V) := by
        refine weave_congr (fun j hj => W.ent j hj) (fun j hj => ?_)
        have hk : kid' (o + j) = kid j := W.kid j hj
        rw [hk]
      refine h.trans ?_
      rw [Sub.flat_node, ← hin]
      rfl

/-- A kid that grows takes from its neighbours. -/
theorem Grown.flat {V : View α β} {T T' : Sub α (d + 1)} {i i' : Nat} (G : Grown V T T' i i')
    (hi : i ≤ T.size) (hi' : i' ≤ T'.size) : T'.flat V = T.flat V := by
  obtain ⟨A, B, h1, h2, h3⟩ := G
  rw [T'.flat_focus V hi', T.flat_focus V hi, h1, h2, h3]
  simp only [List.append_assoc]

/-- A kid that has grown to the left. -/
theorem Grown.of_post {V : View α β} {T T' : Sub α (d + 1)} {i i' : Nat} (A : List β)
    (hi : i ≤ T.size) (hi' : i' ≤ T'.size) (hflat : T'.flat V = T.flat V)
    (hpost : T'.post V i' = T.post V i) (hk : (T'.kid i').flat V = A ++ (T.kid i).flat V) :
    Grown V T T' i i' := by
  rw [T'.flat_focus V hi', T.flat_focus V hi, hpost, hk, List.append_assoc,
    ← List.append_assoc _ A] at hflat
  exact ⟨A, [], (List.append_cancel_right hflat).symm, by simp [hpost], by simp [hk]⟩

/-- A kid that has grown to the right. -/
theorem Grown.of_pre {V : View α β} {T T' : Sub α (d + 1)} {i i' : Nat} (B : List β)
    (hi : i ≤ T.size) (hi' : i' ≤ T'.size) (hflat : T'.flat V = T.flat V)
    (hpre : T'.pre V i' = T.pre V i) (hk : (T'.kid i').flat V = (T.kid i).flat V ++ B) :
    Grown V T T' i i' := by
  rw [T'.flat_focus V hi', T.flat_focus V hi, hpre, hk, List.append_assoc] at hflat
  have h := List.append_cancel_left (List.append_cancel_left hflat)
  exact ⟨[], B, by simp [hpre], h.symm, by simp [hk]⟩

namespace Site

variable {l w N : Nat} {E : Nat → β} {G : Nat → Sub α d} {J : Job Role α} {s' : Bt α}
  {ad : Role → Nat} {ct : Role → BtN α}

theorem flat_eq (S : Site V owe s x nd kid l w N E G p pi) : (Sub.node x nd kid).flat V =
    (Sub.node x nd kid).pre V l ++ (weave N E (fun j => (G j).flat V) ++
      (Sub.node x nd kid).post V (l + w)) := by
  rw [Sub.flat_node, weave_window S.fits, S.read]
  rfl

theorem part_flat {nd : BtN α} {a o m : Nat} (P : PartOk V nd E G o m) :
    (Sub.node a nd (fun j => G (o + j))).flat V =
      weave m (fun j => E (o + j)) (fun j => (G (o + j)).flat V) := by
  rw [Sub.flat_node, P.num]
  exact weave_congr P.ent (fun j _ => rfl)

/-- A node whose entries and kids are a stretch of the part's lies in it. -/
theorem part_within {nd ny : BtN α} {a b o m c : Nat} {ky : Nat → Sub α d}
    (P : PartOk V nd E G o m) (hc : c + ny.n ≤ m) (hE : ∀ j < ny.n, E (o + (c + j)) = V.entry ny j)
    (hG : ∀ j ≤ ny.n, G (o + (c + j)) = ky j) :
    Within V (Sub.node b ny ky) (Sub.node a nd (fun j => G (o + j))) c :=
  ⟨hc.trans_eq P.num.symm, fun j hj => (P.ent (c + j) (by have : j < ny.n := hj; omega)).trans
    (hE j hj), hG⟩

theorem part_good (S : Site V owe s x nd kid l w N E G p pi) (C : Cast s x nd kid l w p pi J)
    (F : Focus J .up s' ad ct) {r : Role} {o m : Nat} {E' : Nat → β} (P : PartOk V (ct r) E' G o m)
    (hm : o + m ≤ N) : Good V s'.heap (part ad ct G r o) := by
  have hn := P.num
  refine (S.row' C F).node_good (by omega) (F.live r) P.leaf ?_ (by have := P.full; omega) P.disc
    (fun j hj => ?_) (fun j hj => S.ad_notin C F r hj) ?_
  · intro hd j hj
    exact P.link hd j (by omega)
  · rw [P.ent j (by omega)]
    exact P.seen j (by omega)
  · intro hc
    rw [P.scion hc, ← part_flat (a := ad r) P]
    rfl

theorem mem_part {r : Role} {o m b : Nat} (P : PartOk V (ct r) E G o m)
    (hb : b ∈ (part ad ct G r o).addrs) :
    b = ad r ∨ ∃ j, o ≤ j ∧ j ≤ o + m ∧ b ∈ (G j).addrs := by
  have hn := P.num
  rcases hb with rfl | ⟨j, hj, hb⟩
  · exact Or.inl rfl
  · exact Or.inr ⟨o + j, by omega, by omega, hb⟩

/-- The window of the step, from the parent and the parts. -/
theorem window (S : Site V owe s x nd kid l w N E G p pi) (C : Cast s x nd kid l w p pi J)
    (F : Focus J .up s' ad ct) {w' : Nat} (U : UpOk V nd (ct .up) l w w')
    (rl : Nat → Role) (o m : Nat → Nat) (hup : ∀ i ≤ w', rl i ≠ .up)
    (hrl : ∀ i ≤ w', ∀ j ≤ w', i ≠ j → rl i ≠ rl j)
    {E' : Nat → β}
    (hP : ∀ i ≤ w', PartOk V (ct (rl i)) E' G (o i) (m i)) (hm : ∀ i ≤ w', o i + m i ≤ N)
    (hsep : ∀ i ≤ w', ∀ j ≤ w', i < j → o i + m i < o j)
    (hlink : ∀ i ≤ w', (ct .up).nodes (l + i) = ad (rl i))
    (hok : ∀ i < w', V.ok (V.entry (ct .up) (l + i)))
    (hsum : V.counts → ((weave w' (fun j => V.entry (ct .up) (l + j))
      (fun i => (part ad ct G (rl i) (o i)).flat V)).map V.wt).sum =
      ((weave N E (fun j => (G j).flat V)).map V.wt).sum) :
    Window V owe owe s.heap s'.heap x (ad .up) nd (ct .up) kid l w w'
      (fun i => part ad ct G (rl i) (o i)) := by
  have hmem : ∀ i ≤ w', ∀ b ∈ (part ad ct G (rl i) (o i)).addrs,
      b = ad (rl i) ∨ ∃ j, o i ≤ j ∧ j ≤ o i + m i ∧ b ∈ (G j).addrs :=
    fun i hi b hb => mem_part (hP i hi) hb
  refine ⟨S.fits, U.num, U.full, F.live _, U.leaf, U.disc, U.entL, hok, U.entR, fun _ => U.nodL,
    fun _ i hi => hlink i hi, fun _ => U.nodR, fun i hi => S.part_good C F (hP i hi) (hm i hi),
    ?_, ?_, ?_, ?_, ?_, ?_, ?_⟩
  · intro _ i hi
    have h1 := (hP i hi).low
    have h2 := (hP i hi).num
    rw [← h2] at h1
    exact h1
  · intro j hj ho b hb
    refine S.frame C F (Sub.kid_mem hj hb) (fun r e => ?_)
    by_cases hr : r = .up
    · rw [hr, C.up] at e
      exact S.good.node.apart j hj (e ▸ hb)
    · rcases C.kids r hr with ⟨m', hm', h⟩ | h
      · have hf := S.fits
        refine S.good.node.disj j hj (l + m') (by omega) (by omega) b hb ?_
        rw [e, h]
        exact Sub.addr_mem _
      · exact h (e ▸ Sub.kid_mem hj hb)
  · intro i hi b hb
    rcases hmem i hi b hb with rfl | ⟨j, _, h2, hb'⟩
    · rcases S.own C F (rl i) with h | h
      · rw [h]
        rcases C.kids _ (hup i hi) with ⟨m', hm', e⟩ | h'
        · refine Or.inl ⟨m', hm', ?_⟩
          rw [e]
          exact Sub.addr_mem _
        · exact Or.inr h'
      · exact Or.inr h
    · have := hm i hi
      obtain ⟨m', hm', h⟩ := S.below j (by omega) b hb'
      exact Or.inl ⟨m', hm', h⟩
  · have := S.own C F .up
    rwa [C.up] at this
  · intro i hi hb
    rcases hmem i hi _ hb with h | ⟨j, _, h2, hb'⟩
    · exact hup i hi (F.inj _ _ h).symm
    · have := hm i hi
      exact S.ad_notin C F .up (by omega) hb'
  · intro i hi j hj hne b hb hb'
    have hi' := hm i hi
    have hj' := hm j hj
    rcases hmem i hi b hb with rfl | ⟨i', h1, h2, hbi⟩ <;>
      rcases hmem j hj _ hb' with h | ⟨j', h3, h4, hbj⟩
    · exact hrl i hi j hj hne (F.inj _ _ h)
    · exact S.ad_notin C F _ (by omega) hbj
    · rw [h] at hbi
      exact S.ad_notin C F _ (by omega) hbi
    · refine S.row.disj i' (by omega) j' (by omega) ?_ b hbi hbj
      rcases Nat.lt_or_gt_of_ne hne with h | h
      · have := hsep i hi j hj h
        omega
      · have := hsep j hj i hi h
        omega
  · intro hc
    rw [S.read, hsum hc, U.scion]

/-- What a tree reads around the window. -/
theorem flat_window {a' w' : Nat} {nd' : BtN α}
    {K : Nat → Sub α (d + 1)} (W : Window V owe owe s.heap s'.heap x a' nd nd' kid l w w' K)
    {E' : Nat → β} (hread : weave w' (fun j => V.entry nd' (l + j)) (fun i => (K i).flat V) =
      weave N E' (fun j => (G j).flat V)) :
    (Sub.node a' nd' (splice l w w' K kid)).flat V = (Sub.node x nd kid).pre V l ++
      (weave N E' (fun j => (G j).flat V) ++ (Sub.node x nd kid).post V (l + w)) := by
  rw [W.flat, hread]
  rfl

/-- The nodes of the tree that play no role are nodes of the changed tree. -/
theorem still (S : Site V owe s x nd kid l w N E G p pi) (C : Cast s x nd kid l w p pi J) {w' : Nat}
    {rl : Nat → Role} {o m : Nat → Nat} (hnum : ∀ i ≤ w', (ct (rl i)).n = m i)
    (hcover : ∀ j ≤ N, ∃ i ≤ w', o i ≤ j ∧ j ≤ o i + m i) (hn : (ct .up).n + w = nd.n + w') {b : Nat}
    (hb : b ∈ (Sub.node x nd kid).addrs) (hr : b ∉ Set.range J.ad) :
    b ∈ (Sub.node (ad .up) (ct .up)
      (splice l w w' (fun i => part ad ct G (rl i) (o i)) kid)).addrs := by
  have hf := S.fits
  rcases hb with rfl | ⟨j, hj, hb⟩
  · exact absurd ⟨.up, C.up⟩ hr
  by_cases h1 : j < l
  · exact Sub.kid_mem (j := j) (by omega) (by rwa [splice_lt h1])
  by_cases h2 : j ≤ l + w
  · obtain ⟨q, rfl⟩ : ∃ q, j = l + q := ⟨j - l, by omega⟩
    rcases S.above q (by omega) b hb with rfl | ⟨c, hc, hb'⟩
    · exact absurd (C.tops q (by omega)) hr
    · obtain ⟨i, hi, h3, h4⟩ := hcover c hc
      refine Sub.kid_mem (j := l + i) (by omega) ?_
      rw [splice_in hi]
      refine Sub.kid_mem (j := c - o i) (by rw [hnum i hi]; omega) ?_
      rwa [show o i + (c - o i) = c by omega]
  · exact Sub.kid_mem (j := j + w' - w) (by omega) (by rwa [splice_gt (by omega)])

/-- The addresses of the changed tree are old ones or new ones, and no other is left. -/
theorem edit (S : Site V owe s x nd kid l w N E G p pi) (C : Cast s x nd kid l w p pi J)
    (F : Focus J .up s' ad ct) {w' : Nat} {rl : Nat → Role} {o m : Nat → Nat} {E' : Nat → β}
    (hP : ∀ i ≤ w', PartOk V (ct (rl i)) E' G (o i) (m i)) (hm : ∀ i ≤ w', o i + m i ≤ N)
    (hcover : ∀ j ≤ N, ∃ i ≤ w', o i ≤ j ∧ j ≤ o i + m i)
    (W : Window V owe owe s.heap s'.heap x (ad .up) nd (ct .up) kid l w w'
      (fun i => part ad ct G (rl i) (o i))) :
    Edit s s' ((Sub.node x nd kid).addrs ∪ Set.range J.ad)
      ((Sub.node (ad .up) (ct .up) (splice l w w' (fun i => part ad ct G (rl i) (o i)) kid)).addrs ∪
        Set.range ad) x (ad .up) p pi := by
  have hrole : ∀ r, ad r ∈ (Sub.node x nd kid).addrs ∪ Set.range J.ad ∨ s.next ≤ ad r := by
    intro r
    have h := F.own r
    rw [C.s] at h
    rcases h with h | h
    · exact Or.inl (Or.inr ⟨r, h.symm⟩)
    · exact Or.inr h
  have h := F.edit
  rw [C.s, C.up, C.p, C.pi] at h
  refine h.widen (fun b hb => Or.inr hb) (fun b hb => ?_) (fun b hb => Or.inr hb)
    (fun b hb hr => Or.inl (S.still C (fun i hi => (hP i hi).num) hcover W.num (hb.resolve_right hr) hr))
  rcases hb with hb | ⟨r, rfl⟩
  · rcases W.mem_addrs hb with rfl | ⟨i, hi, hb⟩ | ⟨j, hj, _, hb⟩
    · exact hrole .up
    · rcases mem_part (hP i hi) hb with rfl | ⟨j, _, h2, hb⟩
      · exact hrole (rl i)
      · have := hm i hi
        obtain ⟨m', hm', hb'⟩ := S.below j (by omega) b hb
        exact Or.inl (Or.inl (S.kid_mem hm' hb'))
    · exact Or.inl (Or.inl (Sub.kid_mem hj hb))
  · exact hrole r

/-- The tree after the sequence has been cut at entry `c`. -/
def cutTree (kid : Nat → Sub α (d + 1)) (ad : Role → Nat) (ct : Role → BtN α)
    (G : Nat → Sub α d) (l w c : Nat) : Sub α (d + 2) :=
  Sub.node (ad .up) (ct .up) (splice l w 1
    (fun i => part ad ct G (if i = 0 then .lf else .rt) (if i = 0 then 0 else c + 1)) kid)

/-- The tree after the sequence has gone to one node. -/
def wholeTree (kid : Nat → Sub α (d + 1)) (ad : Role → Nat) (ct : Role → BtN α)
    (G : Nat → Sub α d) (l w : Nat) : Sub α (d + 2) :=
  Sub.node (ad .up) (ct .up) (splice l w 0 (fun _ => part ad ct G .lf 0) kid)

theorem cutTree_union (kid : Nat → Sub α (d + 1)) (ad : Role → Nat) (ct : Role → BtN α)
    (G : Nat → Sub α d) {l w : Nat} (c : Nat) (hn : l + 1 ≤ (ct .up).n) :
    (cutTree kid ad ct G l w c).addrs ∪ Set.range ad = (cutTree kid ad ct G l w c).addrs := by
  refine Set.union_eq_left.2 ?_
  rintro b ⟨r, rfl⟩
  cases r with
  | up => exact Or.inl rfl
  | lf =>
      refine Sub.kid_mem (j := l + 0) (by omega) ?_
      rw [splice_in (Nat.zero_le 1)]
      exact Or.inl rfl
  | rt =>
      refine Sub.kid_mem hn ?_
      rw [splice_in (Nat.le_refl 1)]
      exact Or.inl rfl

theorem wholeTree_union (kid : Nat → Sub α (d + 1)) (ad : Role → Nat) (ct : Role → BtN α)
    (G : Nat → Sub α d) {l w : Nat} (hn : l ≤ (ct .up).n) :
    (wholeTree kid ad ct G l w).addrs ∪ Set.range ad = insert (ad .rt) (wholeTree kid ad ct G l w).addrs := by
  have hlf : ad .lf ∈ (wholeTree kid ad ct G l w).addrs := by
    refine Sub.kid_mem (j := l + 0) hn ?_
    rw [splice_in (Nat.le_refl 0)]
    exact Or.inl rfl
  ext b
  constructor
  · rintro (hb | ⟨r, rfl⟩)
    · exact Or.inr hb
    · cases r with
      | up => exact Or.inr (Or.inl rfl)
      | lf => exact Or.inr hlf
      | rt => exact Or.inl rfl
  · rintro (rfl | hb)
    · exact Or.inr ⟨.rt, rfl⟩
    · exact Or.inl hb

theorem cutTree_kid (kid : Nat → Sub α (d + 1)) (ad : Role → Nat) (ct : Role → BtN α)
    (G : Nat → Sub α d) (l w c : Nat) :
    (cutTree kid ad ct G l w c).kid l = part ad ct G .lf 0 ∧
    (cutTree kid ad ct G l w c).kid (l + 1) = part ad ct G .rt (c + 1) := by
  constructor <;> simp [cutTree, Sub.kid, splice]

theorem wholeTree_kid (kid : Nat → Sub α (d + 1)) (ad : Role → Nat) (ct : Role → BtN α)
    (G : Nat → Sub α d) (l w : Nat) :
    (wholeTree kid ad ct G l w).kid l = part ad ct G .lf 0 := by
  simp [wholeTree, Sub.kid, splice]

/-- The sequence is laid out as two nodes. -/
theorem cut (S : Site V owe s x nd kid l w N E G p pi) (C : Cast s x nd kid l w p pi J)
    (F : Focus J .up s' ad ct) (U : UpOk V nd (ct .up) l w 1) {c : Nat} (hc : c < N)
    (hE : V.entry (ct .up) l = E c) (h0 : (ct .up).nodes l = ad .lf)
    (h1 : (ct .up).nodes (l + 1) = ad .rt) (P : PartOk V (ct .lf) E G 0 c)
    (Q : PartOk V (ct .rt) E G (c + 1) (N - (c + 1))) :
    Owing V s'.heap owe (cutTree kid ad ct G l w c) ∧
    (cutTree kid ad ct G l w c).flat V = (Sub.node x nd kid).flat V ∧
    Edit s s' ((Sub.node x nd kid).addrs ∪ Set.range J.ad) (cutTree kid ad ct G l w c).addrs
      x (ad .up) p pi ∧
    (cutTree kid ad ct G l w c).pre V l = (Sub.node x nd kid).pre V l ∧
    (cutTree kid ad ct G l w c).post V (l + 1) = (Sub.node x nd kid).post V (l + w) := by
  have hP : ∀ i ≤ 1, PartOk V (ct (if i = 0 then .lf else .rt)) E G (if i = 0 then 0 else c + 1)
      (if i = 0 then c else N - (c + 1)) := by
    intro i _
    split_ifs
    · exact P
    · exact Q
  have hm : ∀ i ≤ 1, (if i = 0 then 0 else c + 1) + (if i = 0 then c else N - (c + 1)) ≤ N := by
    intro i _
    split_ifs <;> omega
  have hread : weave 1 (fun j => V.entry (ct .up) (l + j))
      (fun i => (part ad ct G (if i = 0 then .lf else .rt) (if i = 0 then 0 else c + 1)).flat V) =
      weave N E (fun j => (G j).flat V) := by
    have hN : N = c + 1 + (N - (c + 1)) := by omega
    rw [weave_one, Nat.add_zero l, hE, hN, weave_split]
    simp only [if_true, Nat.one_ne_zero, if_false, part]
    rw [part_flat P, part_flat Q]
    simp only [Nat.zero_add]
  have W := S.window C F U (fun i => if i = 0 then .lf else .rt)
    (fun i => if i = 0 then 0 else c + 1) (fun i => if i = 0 then c else N - (c + 1))
    (fun i _ => by split_ifs <;> simp)
    (fun i hi j hj hne => by
      have : (i = 0 ∧ j = 1) ∨ (i = 1 ∧ j = 0) := by omega
      rcases this with ⟨rfl, rfl⟩ | ⟨rfl, rfl⟩ <;> simp) hP hm
    (fun i hi j hj hlt => by
      obtain ⟨rfl, rfl⟩ : i = 0 ∧ j = 1 := by omega
      simp)
    (fun i hi => by
      obtain rfl | rfl : i = 0 ∨ i = 1 := by omega
      · exact h0
      · exact h1)
    (fun i hi => by
      obtain rfl : i = 0 := by omega
      rw [Nat.add_zero l, hE]
      exact S.seen c hc) (fun _ => by rw [hread])
  have hedit := S.edit C F hP hm (fun j hj => by
    by_cases h : j ≤ c
    · exact ⟨0, by omega, by simpa using h⟩
    · refine ⟨1, by omega, ?_⟩
      simp only [Nat.one_ne_zero, if_false]
      omega) W
  have hunion := cutTree_union kid ad ct G c (l := l) (w := w) (by have := U.num; have := S.fits; omega)
  exact ⟨W.node_good S.good, (flat_window W hread).trans S.flat_eq.symm, hunion ▸ hedit, W.pre, W.post⟩

/-- The sequence is laid out as one node, with entries `E'` of the same weight. -/
theorem whole (S : Site V owe s x nd kid l w N E G p pi) (C : Cast s x nd kid l w p pi J)
    (F : Focus J .up s' ad ct) (U : UpOk V nd (ct .up) l w 0) (h0 : (ct .up).nodes l = ad .lf)
    {E' : Nat → β} (P : PartOk V (ct .lf) E' G 0 N)
    (hsum : V.counts → ((weave N E' (fun j => (G j).flat V)).map V.wt).sum =
      ((weave N E (fun j => (G j).flat V)).map V.wt).sum) :
    Owing V s'.heap owe (wholeTree kid ad ct G l w) ∧
    (wholeTree kid ad ct G l w).flat V = (Sub.node x nd kid).pre V l ++
      (weave N E' (fun j => (G j).flat V) ++ (Sub.node x nd kid).post V (l + w)) ∧
    Edit s s' ((Sub.node x nd kid).addrs ∪ Set.range J.ad)
      (insert (ad .rt) (wholeTree kid ad ct G l w).addrs) x (ad .up) p pi ∧
    ad .rt ∉ (wholeTree kid ad ct G l w).addrs ∧
    (wholeTree kid ad ct G l w).pre V l = (Sub.node x nd kid).pre V l ∧
    (wholeTree kid ad ct G l w).post V l = (Sub.node x nd kid).post V (l + w) := by
  have hread : weave 0 (fun j => V.entry (ct .up) (l + j))
      (fun _ => (part ad ct G .lf 0).flat V) = weave N E' (fun j => (G j).flat V) := by
    rw [weave_zero, part, part_flat P]
    simp only [Nat.zero_add]
  have W := S.window C F U (fun _ => .lf) (fun _ => 0) (fun _ => N) (fun _ _ => by simp)
    (fun i hi j hj hne => by omega) (fun _ _ => P) (fun _ _ => by omega)
    (fun i hi j hj hlt => by omega)
    (fun i hi => by
      obtain rfl : i = 0 := by omega
      exact h0) (fun i hi => by omega) (fun hc => by rw [hread, hsum hc])
  have hedit := S.edit C F (fun _ _ => P) (fun _ _ => by omega)
    (fun j hj => ⟨0, Nat.le_refl 0, Nat.zero_le j, by omega⟩) W
  have hunion := wholeTree_union kid ad ct G (l := l) (w := w) (by have := U.num; have := S.fits; omega)
  refine ⟨W.node_good S.good, flat_window W hread, hunion ▸ hedit, fun hb => ?_, W.pre, W.post⟩
  rcases W.mem_addrs hb with h | ⟨i, hi, hb⟩ | ⟨j, hj, ho, hb⟩
  · exact absurd (F.inj _ _ h) (by simp)
  · rcases mem_part P hb with h | ⟨j, _, h2, hb⟩
    · exact absurd (F.inj _ _ h) (by simp)
    · exact S.ad_notin C F .rt (by omega) hb
  · rcases S.own C F .rt with h | h
    · rw [h] at hb
      rcases C.kids .rt (by simp) with ⟨m, hm, e⟩ | h'
      · have hf := S.fits
        rw [e] at hb
        exact S.good.node.disj j hj (l + m) (by omega) (by omega) _ hb (Sub.addr_mem _)
      · exact h' (Sub.kid_mem hj hb)
    · exact h (Sub.kid_mem hj hb)

end Site

end Site

end AlchemyDB
