/-
# `AlchemyDB.BTree.Tree` — subtrees as values

A `Sub α d` is a subtree of depth `d` taken out of the heap: the address of its
top node, the contents of that node and the subtrees below it.  The empty
subtree `nil` hangs below the leaves, so that a leaf is a node like any other,
of depth one; that all leaves are equally deep is in the type.

`flat` is the in-order reading under a view.  `Good V h T` says that `T` is in
the heap `h` as a B-tree: its nodes are live and linked, no address occurs
twice, the nodes are filled as the tree's degree asks, their dirty streams keep
the discipline of the view and, if the view counts, every scion is right.
-/
import AlchemyDB.Lib.Weave
import AlchemyDB.BTree.View

namespace AlchemyDB

open Store Weave

variable {α β : Type}

inductive Sub (α : Type) : Nat → Type
  | nil : Sub α 0
  | node {d : Nat} (a : Nat) (nd : BtN α) (kid : Nat → Sub α d) : Sub α (d + 1)

namespace Sub

variable {d : Nat}

/-- The address of the top node. -/
def addr : {d : Nat} → Sub α d → Nat
  | _, nil => 0
  | _, node a _ _ => a

/-- The number of keys of the top node. -/
def size : {d : Nat} → Sub α d → Nat
  | _, nil => 0
  | _, node _ nd _ => nd.n

/-- The scion of the top node. -/
def scion : {d : Nat} → Sub α d → Int
  | _, nil => 0
  | _, node _ nd _ => nd.scion

/-- The addresses of the nodes. -/
def addrs : {d : Nat} → Sub α d → Set Nat
  | _, nil => ∅
  | _, node a nd kid => {b | b = a ∨ ∃ j ≤ nd.n, b ∈ addrs (kid j)}

/-- The in-order reading. -/
def flat (V : View α β) : {d : Nat} → Sub α d → List β
  | _, nil => []
  | _, node _ nd kid => weave nd.n (V.entry nd) (fun j => flat V (kid j))

@[simp] theorem addr_node (a : Nat) (nd : BtN α) (kid : Nat → Sub α d) :
    (node a nd kid).addr = a := rfl

@[simp] theorem size_node (a : Nat) (nd : BtN α) (kid : Nat → Sub α d) :
    (node a nd kid).size = nd.n := rfl

theorem flat_node (V : View α β) (a : Nat) (nd : BtN α) (kid : Nat → Sub α d) :
    (node a nd kid).flat V = weave nd.n (V.entry nd) (fun j => (kid j).flat V) := rfl

theorem mem_addrs_node {a b : Nat} {nd : BtN α} {kid : Nat → Sub α d} :
    b ∈ (node a nd kid).addrs ↔ b = a ∨ ∃ j ≤ nd.n, b ∈ (kid j).addrs := Iff.rfl

theorem addr_mem : ∀ (T : Sub α (d + 1)), T.addr ∈ T.addrs
  | node _ _ _ => Or.inl rfl

theorem kid_mem {a b j : Nat} {nd : BtN α} {kid : Nat → Sub α d} (hj : j ≤ nd.n)
    (h : b ∈ (kid j).addrs) : b ∈ (node a nd kid).addrs := Or.inr ⟨j, hj, h⟩

/-- The contents of the top node. -/
def top : Sub α (d + 1) → BtN α
  | node _ nd _ => nd

def kid : Sub α (d + 1) → Nat → Sub α d
  | node _ _ kid, j => kid j

/-- The reading before kid `i`. -/
def pre (V : View α β) : Sub α (d + 1) → Nat → List β
  | node _ nd kid, i => left (V.entry nd) (fun j => (kid j).flat V) i

/-- The reading behind kid `i`. -/
def post (V : View α β) : Sub α (d + 1) → Nat → List β
  | node _ nd kid, i => right (V.entry nd) (fun j => (kid j).flat V) i (nd.n - i)

/-- A node reads at least its own keys. -/
theorem size_le_flat (V : View α β) : ∀ {d : Nat} (T : Sub α d), T.size ≤ (T.flat V).length
  | _, nil => Nat.zero_le _
  | _, node _ nd _ => le_length_weave nd.n

theorem flat_focus (V : View α β) : ∀ (T : Sub α (d + 1)) {i : Nat}, i ≤ T.size →
    T.flat V = T.pre V i ++ ((T.kid i).flat V ++ T.post V i)
  | node _ _ _, _, h => weave_focus h

theorem pre_succ (V : View α β) : ∀ (T : Sub α (d + 1)) (i : Nat),
    T.pre V (i + 1) = T.pre V i ++ ((T.kid i).flat V ++ [V.entry T.top i])
  | node _ _ _, _ => rfl

theorem post_succ (V : View α β) : ∀ (T : Sub α (d + 1)) {i : Nat}, i < T.size →
    T.post V i = V.entry T.top i :: ((T.kid (i + 1)).flat V ++ T.post V (i + 1))
  | node _ nd kid, i, h => by
      have hi : i < nd.n := h
      show right _ _ i (nd.n - i) = _ :: (_ ++ right _ _ (i + 1) (nd.n - (i + 1)))
      rw [show nd.n - i = (nd.n - (i + 1)) + 1 by omega]
      rfl

@[simp] theorem top_node (a : Nat) (nd : BtN α) (kid : Nat → Sub α d) :
    (node a nd kid).top = nd := rfl

theorem size_top : ∀ (T : Sub α (d + 1)), T.size = T.top.n
  | node _ _ _ => rfl

@[simp] theorem kid_node (a : Nat) (nd : BtN α) (kid : Nat → Sub α d) (j : Nat) :
    (node a nd kid).kid j = kid j := rfl

/-- The sum of the weights of the entries. -/
def weight (V : View α β) (T : Sub α d) : Int := ((T.flat V).map V.wt).sum

end Sub

/-! ## B-trees in the heap -/

/-- What `Good` asks of one node over its subtrees.  The scion may be `owe` too small: a
delete corrects the scions on its way down, before the entry is gone. -/
structure NodeOk (V : View α β) (h : Nat → Option (BtN α)) (owe : Int) {d : Nat} (a : Nat)
    (nd : BtN α) (kid : Nat → Sub α d) : Prop where
  live : h a = some nd
  leaf : nd.leaf = true ↔ d = 0
  link : d ≠ 0 → ∀ j ≤ nd.n, nd.nodes j = (kid j).addr
  fill : nd.n ≤ 2 * V.t - 1
  low : d ≠ 0 → ∀ j ≤ nd.n, V.t - 1 ≤ (kid j).size
  disc : V.P nd
  seen : ∀ j < nd.n, V.ok (V.entry nd j)
  sci : V.counts → nd.scion + owe = (Sub.node a nd kid).weight V
  apart : ∀ j ≤ nd.n, a ∉ (kid j).addrs
  disj : ∀ i ≤ nd.n, ∀ j ≤ nd.n, i ≠ j → ∀ b ∈ (kid i).addrs, b ∉ (kid j).addrs

/-- The subtree is in the heap, as a B-tree whose top scion is `owe` too small. -/
def Owing (V : View α β) (h : Nat → Option (BtN α)) : Int → {d : Nat} → Sub α d → Prop
  | _, _, .nil => True
  | owe, _, .node a nd kid => NodeOk V h owe a nd kid ∧ ∀ j ≤ nd.n, Owing V h 0 (kid j)

/-- The subtree is in the heap, as a B-tree. -/
abbrev Good (V : View α β) (h : Nat → Option (BtN α)) {d : Nat} (T : Sub α d) : Prop :=
  Owing V h 0 T

section Good

variable {V : View α β} {h h' : Nat → Option (BtN α)} {d : Nat} {owe : Int}

theorem Owing.node {a : Nat} {nd : BtN α} {kid : Nat → Sub α d}
    (g : Owing V h owe (Sub.node a nd kid)) : NodeOk V h owe a nd kid := g.1

theorem Owing.kids {a : Nat} {nd : BtN α} {kid : Nat → Sub α d}
    (g : Owing V h owe (Sub.node a nd kid)) : ∀ j ≤ nd.n, Good V h (kid j) := g.2

theorem Owing.top_disc : ∀ {T : Sub α (d + 1)}, Owing V h owe T → V.P T.top
  | .node _ _ _, g => g.node.disc

theorem Owing.kid : ∀ {T : Sub α (d + 1)}, Owing V h owe T → ∀ {j : Nat}, j ≤ T.size →
    Good V h (T.kid j)
  | .node _ _ _, g, j, hj => g.kids j hj

/-- The nodes of a subtree are live. -/
theorem Owing.live : ∀ {d : Nat} {T : Sub α d} {owe : Int}, Owing V h owe T →
    ∀ b ∈ T.addrs, h b ≠ none
  | _, .nil, _, _, _, hb => absurd hb (by simp [Sub.addrs])
  | _, .node a nd kid, _, g, b, hb => by
      rcases hb with rfl | ⟨j, hj, hb⟩
      · simp [g.node.live]
      · exact (g.kids j hj).live b hb

/-- A subtree is not touched by a change of the heap elsewhere. -/
theorem Owing.frame : ∀ {d : Nat} {T : Sub α d} {owe : Int}, Owing V h owe T →
    (∀ b ∈ T.addrs, h' b = h b) → Owing V h' owe T
  | _, .nil, _, _, _ => trivial
  | _, .node a nd kid, _, g, hh => by
      refine ⟨{ g.node with live := ?_ }, fun j hj => ?_⟩
      · rw [hh a (Or.inl rfl), g.node.live]
      · exact (g.kids j hj).frame (fun b hb => hh b (Sub.kid_mem hj hb))

theorem Owing.sci {a : Nat} {nd : BtN α} {kid : Nat → Sub α d} (g : Good V h (Sub.node a nd kid))
    (hc : V.counts) : nd.scion = (Sub.node a nd kid).weight V := by
  have := g.node.sci hc
  rwa [add_zero] at this

theorem Owing.scion : ∀ {d : Nat} {T : Sub α d}, Good V h T → V.counts → T.scion = T.weight V
  | _, .nil, _, _ => by simp [Sub.scion, Sub.weight, Sub.flat]
  | _, .node _ _ _, g, hc => g.sci hc

/-- The kids of a node are no `nil` when the node is no leaf. -/
theorem exists_node : ∀ (T : Sub α (d + 1)), ∃ a nd kid, T = Sub.node a nd kid
  | .node a nd kid => ⟨a, nd, kid, rfl⟩

/-- Of the tree's weight, the windows of its reading have the sums of theirs. -/
theorem sum_wt_append (l r : List β) :
    ((l ++ r).map V.wt).sum = (l.map V.wt).sum + (r.map V.wt).sum := by
  simp

/-! ## A window of kids is replaced -/

/-- The kids after the window of the `w + 1` kids from `l` on has become `K 0, ..., K w'`. -/
def splice (l w w' : Nat) (K kid : Nat → Sub α d) (j : Nat) : Sub α d :=
  if j < l then kid j else if j ≤ l + w' then K (j - l) else kid (j + w - w')

theorem splice_lt {l w w' j : Nat} {K kid : Nat → Sub α d} (h : j < l) :
    splice l w w' K kid j = kid j := by
  simp [splice, h]

theorem splice_in {l w w' j : Nat} {K kid : Nat → Sub α d} (h : j ≤ w') :
    splice l w w' K kid (l + j) = K j := by
  simp [splice, h]

theorem splice_gt {l w w' j : Nat} {K kid : Nat → Sub α d} (h : l + w < j) :
    splice l w w' K kid (j + w' - w) = kid j := by
  have h1 : ¬ j + w' - w < l := by omega
  have h2 : ¬ j + w' - w ≤ l + w' := by omega
  rw [splice, if_neg h1, if_neg h2]
  congr 1
  omega

/-- One kid is replaced. -/
@[simp] theorem splice_at {l : Nat} {K kid : Nat → Sub α d} : splice l 0 0 K kid l = K 0 := by
  simp [splice]

theorem splice_off {l j : Nat} {K kid : Nat → Sub α d} (h : j ≠ l) :
    splice l 0 0 K kid j = kid j := by
  unfold splice
  split_ifs with h1 h2
  · rfl
  · omega
  · rfl

/-- Where a kid of the changed node comes from. -/
theorem splice_cases (l : Nat) {w w' n n' j : Nat} (hn : n' + w = n + w') (hj : j ≤ n') :
    j < l ∨ (∃ m ≤ w', j = l + m) ∨ ∃ m, l + w < m ∧ m ≤ n ∧ j = m + w' - w := by
  by_cases h1 : j < l
  · exact Or.inl h1
  · by_cases h2 : j ≤ l + w'
    · exact Or.inr (Or.inl ⟨j - l, by omega, by omega⟩)
    · exact Or.inr (Or.inr ⟨j + w - w', by omega, by omega, by omega⟩)

/-- What a change of a node's window has to give for the node to stay good: the
entries and pointers outside the window in place, good subtrees in the window
that use addresses of the old window or new ones, and a scion that follows. -/
structure Window (V : View α β) (owe owe' : Int) (h h' : Nat → Option (BtN α)) (a a' : Nat) (nd nd' : BtN α)
    (kid : Nat → Sub α d) (l w w' : Nat) (K : Nat → Sub α d) : Prop where
  fits : l + w ≤ nd.n
  num : nd'.n + w = nd.n + w'
  full : nd'.n ≤ 2 * V.t - 1
  live : h' a' = some nd'
  leaf : nd'.leaf = nd.leaf
  disc : V.P nd'
  entL : ∀ j < l, V.entry nd' j = V.entry nd j
  entI : ∀ j < w', V.ok (V.entry nd' (l + j))
  entR : ∀ j, l + w ≤ j → j < nd.n → V.entry nd' (j + w' - w) = V.entry nd j
  nodL : d ≠ 0 → ∀ j < l, nd'.nodes j = nd.nodes j
  nodI : d ≠ 0 → ∀ j ≤ w', nd'.nodes (l + j) = (K j).addr
  nodR : d ≠ 0 → ∀ j, l + w < j → j ≤ nd.n → nd'.nodes (j + w' - w) = nd.nodes j
  good : ∀ j ≤ w', Good V h' (K j)
  low : d ≠ 0 → ∀ j ≤ w', V.t - 1 ≤ (K j).size
  same : ∀ j ≤ nd.n, (j < l ∨ l + w < j) → ∀ b ∈ (kid j).addrs, h' b = h b
  mem : ∀ j ≤ w', ∀ b ∈ (K j).addrs,
    (∃ m ≤ w, b ∈ (kid (l + m)).addrs) ∨ b ∉ (Sub.node a nd kid).addrs
  top : a' = a ∨ a' ∉ (Sub.node a nd kid).addrs
  apart : ∀ j ≤ w', a' ∉ (K j).addrs
  disj : ∀ i ≤ w', ∀ j ≤ w', i ≠ j → ∀ b ∈ (K i).addrs, b ∉ (K j).addrs
  sci : V.counts → nd'.scion + owe' + ((weave w (fun j => V.entry nd (l + j))
      (fun j => (kid (l + j)).flat V)).map V.wt).sum =
    nd.scion + owe + ((weave w' (fun j => V.entry nd' (l + j)) (fun j => (K j).flat V)).map V.wt).sum

namespace Window

variable {owe' : Int} {a a' l w w' : Nat} {nd nd' : BtN α} {kid K : Nat → Sub α d}

/-- The reading of the changed node. -/
theorem flat (W : Window V owe owe' h h' a a' nd nd' kid l w w' K) :
    (Sub.node a' nd' (splice l w w' K kid)).flat V =
      left (V.entry nd) (fun j => (kid j).flat V) l ++
        (weave w' (fun j => V.entry nd' (l + j)) (fun j => (K j).flat V) ++
          right (V.entry nd) (fun j => (kid j).flat V) (l + w) (nd.n - (l + w))) := by
  rw [Sub.flat_node, weave_replace (F := fun j => (kid j).flat V) W.fits W.num W.entL
    (fun j hj => by simp only [splice_lt hj]) W.entR (fun j hj _ => by simp only [splice_gt hj])]
  congr 2
  exact weave_congr (fun j _ => rfl) (fun j hj => by simp only [splice_in hj])

theorem pre (W : Window V owe owe' h h' a a' nd nd' kid l w w' K) :
    (Sub.node a' nd' (splice l w w' K kid)).pre V l = (Sub.node a nd kid).pre V l :=
  left_congr W.entL (fun j hj => by simp only [splice_lt hj])

theorem post (W : Window V owe owe' h h' a a' nd nd' kid l w w' K) :
    (Sub.node a' nd' (splice l w w' K kid)).post V (l + w') =
      (Sub.node a nd kid).post V (l + w) := by
  have hf := W.fits
  have hn := W.num
  simp only [Sub.post]
  rw [show nd'.n - (l + w') = nd.n - (l + w) by omega]
  refine right_congr (fun j hj => ?_) (fun j hj => ?_)
  · have := W.entR (l + w + j) (by omega) (by omega)
    rwa [show l + w + j + w' - w = l + w' + j by omega] at this
  · have : splice l w w' K kid (l + w + 1 + j + w' - w) = kid (l + w + 1 + j) :=
      splice_gt (by omega)
    rw [show l + w + 1 + j + w' - w = l + w' + 1 + j by omega] at this
    rw [this]

/-- The addresses of the changed node. -/
theorem mem_addrs (W : Window V owe owe' h h' a a' nd nd' kid l w w' K) {b : Nat}
    (hb : b ∈ (Sub.node a' nd' (splice l w w' K kid)).addrs) :
    b = a' ∨ (∃ j ≤ w', b ∈ (K j).addrs) ∨
      ∃ j ≤ nd.n, (j < l ∨ l + w < j) ∧ b ∈ (kid j).addrs := by
  rcases hb with rfl | ⟨j, hj, hb⟩
  · exact Or.inl rfl
  · rcases splice_cases l W.num hj with h1 | ⟨m, h1, rfl⟩ | ⟨m, h1, h2, rfl⟩
    · rw [splice_lt h1] at hb
      have := W.fits
      exact Or.inr (Or.inr ⟨j, by omega, Or.inl h1, hb⟩)
    · rw [splice_in h1] at hb
      exact Or.inr (Or.inl ⟨m, h1, hb⟩)
    · rw [splice_gt h1] at hb
      exact Or.inr (Or.inr ⟨m, h2, Or.inr h1, hb⟩)

/-- Every kid of the changed node is one of the window or an old one outside it. -/
theorem kid_cases (W : Window V owe owe' h h' a a' nd nd' kid l w w' K) {j : Nat} (hj : j ≤ nd'.n) :
    (∃ m ≤ w', j = l + m ∧ splice l w w' K kid j = K m ∧ (d ≠ 0 → nd'.nodes j = (K m).addr)) ∨
    ∃ m ≤ nd.n, (m < l ∨ l + w < m) ∧ (j = if m < l then m else m + w' - w) ∧
      splice l w w' K kid j = kid m ∧ (d ≠ 0 → nd'.nodes j = nd.nodes m) := by
  have hf := W.fits
  rcases splice_cases l W.num hj with h1 | ⟨m, h1, rfl⟩ | ⟨m, h1, h2, rfl⟩
  · exact Or.inr ⟨j, by omega, Or.inl h1, by simp [h1], splice_lt h1, fun hd => W.nodL hd j h1⟩
  · exact Or.inl ⟨m, h1, rfl, splice_in h1, fun hd => W.nodI hd m h1⟩
  · refine Or.inr ⟨m, h2, Or.inr h1, ?_, splice_gt h1, fun hd => W.nodR hd m h1 h2⟩
    rw [if_neg (by omega)]

/-- An old kid outside the window has no address in common with the window. -/
theorem old_new (W : Window V owe owe' h h' a a' nd nd' kid l w w' K)
    (g : Owing V h owe (Sub.node a nd kid)) {i j b : Nat} (hi : i ≤ nd.n) (ho : i < l ∨ l + w < i)
    (hj : j ≤ w') (hb : b ∈ (kid i).addrs) : b ∉ (K j).addrs := by
  intro hb'
  rcases W.mem j hj b hb' with ⟨m, hm, hm'⟩ | hn
  · have := W.fits
    exact g.node.disj i hi (l + m) (by omega) (by omega) b hb hm'
  · exact hn (Sub.kid_mem hi hb)

/-- The changed node is good. -/
theorem node_good (W : Window V owe owe' h h' a a' nd nd' kid l w w' K)
    (g : Owing V h owe (Sub.node a nd kid)) :
    Owing V h' owe' (Sub.node a' nd' (splice l w w' K kid)) := by
  have ok := g.node
  have hold : ∀ m ≤ nd.n, a' ∉ (kid m).addrs := by
    intro m hm hb
    rcases W.top with rfl | hn
    · exact ok.apart m hm hb
    · exact hn (Sub.kid_mem hm hb)
  refine ⟨⟨W.live, by rw [W.leaf, ok.leaf], ?_, W.full, ?_, W.disc, ?_, ?_, ?_, ?_⟩, ?_⟩
  · intro hd j hj
    rcases W.kid_cases hj with ⟨m, _, _, hk, hn⟩ | ⟨m, hm, _, _, hk, hn⟩
    · rw [hk, hn hd]
    · rw [hk, hn hd, ok.link hd m hm]
  · intro hd j hj
    rcases W.kid_cases hj with ⟨m, hm, _, hk, _⟩ | ⟨m, hm, _, _, hk, _⟩
    · rw [hk]
      exact W.low hd m hm
    · rw [hk]
      exact ok.low hd m hm
  · intro j hj
    have hf := W.fits
    have hn := W.num
    by_cases h1 : j < l
    · rw [W.entL j h1]
      exact ok.seen j (by omega)
    · by_cases h2 : j < l + w'
      · rw [← Nat.add_sub_cancel' (Nat.le_of_not_lt h1)]
        exact W.entI _ (by omega)
      · have := W.entR (j + w - w') (by omega) (by omega)
        rw [show j + w - w' + w' - w = j by omega] at this
        rw [this]
        exact ok.seen _ (by omega)
  · intro hc
    have h1 := W.sci hc
    have h2 := ok.sci hc
    rw [Sub.weight, Sub.flat_node, weave_window W.fits, sum_wt_append, sum_wt_append] at h2
    rw [Sub.weight, W.flat, sum_wt_append, sum_wt_append]
    omega
  · intro j hj
    rcases W.kid_cases hj with ⟨m, hm, _, hk, _⟩ | ⟨m, hm, _, _, hk, _⟩
    · rw [hk]
      exact W.apart m hm
    · rw [hk]
      exact hold m hm
  · intro i hi j hj hne b hb
    rcases W.kid_cases hi with ⟨m, hm, e1, hk, _⟩ | ⟨m, hm, ho, e1, hk, _⟩ <;>
      rcases W.kid_cases hj with ⟨m', hm', e2, hk', _⟩ | ⟨m', hm', ho', e2, hk', _⟩ <;>
      rw [hk] at hb <;> rw [hk']
    · exact W.disj m hm m' hm' (by omega) b hb
    · exact fun hb' => W.old_new g hm' ho' hm hb' hb
    · exact W.old_new g hm ho hm' hb
    · refine ok.disj m hm m' hm' (fun e => hne ?_) b hb
      rw [e1, e2, e]
  · intro j hj
    rcases W.kid_cases hj with ⟨m, hm, _, hk, _⟩ | ⟨m, hm, ho, _, hk, _⟩
    · rw [hk]
      exact W.good m hm
    · rw [hk]
      exact (g.kids m hm).frame (W.same m hm ho)

end Window

end Good

end AlchemyDB
