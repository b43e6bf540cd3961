/-
# `AlchemyDB.BTree.Insertion` — what `bt_insert` does

`SplitSafe` follows the path of an insertion in the tree as it is BEFORE the
insertion and asks of every full node on it that its split relocates neither the
parent nor the new node.  Then the new entry stands between the entries below
and those above its key, and nothing else has changed.
-/
import AlchemyDB.BTree.Order
import AlchemyDB.BTree.Descent
import AlchemyDB.BTree.Split

namespace AlchemyDB

open Store Weave

variable {α β κ : Type} [LinearOrder κ] {d : Nat}

/-- The slot an insertion goes on with. -/
def slotOf (b : Bt α) (nd : BtN α) (k : α) : Nat := ((findkindex b nd k).1 + 1).toNat

/-- No split on the way of `k` relocates a node it should not; `par` says that the parent
of the subtree has a lasting stream. -/
def SplitSafe (b : Bt α) (k : α) : {d : Nat} → Sub α d → Prop → Prop
  | _, .nil, _ => True
  | _, .node _ nd kid, par =>
    if nd.n = b.getn then
      HalfSafe b.t nd ∧ (nd.dr (b.t - 1) = 0 ∨ par) ∧
        SplitSafe b k (kid (slotOf b nd k))
          (if slotOf b nd k < b.t then LowerLasts b.t nd else nd.dr b.t ≠ 0)
    else SplitSafe b k (kid (slotOf b nd k)) (Lasting nd (slotOf b nd k))

theorem SplitSafe.mono {b : Bt α} {k : α} {P Q : Prop} (h : P → Q) :
    ∀ {d : Nat} {T : Sub α d}, SplitSafe b k T P → SplitSafe b k T Q
  | _, .nil, _ => trivial
  | _, .node _ nd kid, hs => by
      unfold SplitSafe at hs ⊢
      split_ifs at hs ⊢ with hf
      · exact ⟨hs.1, hs.2.1.imp_right h, hs.2.2⟩
      · exact ⟨hs.1, hs.2.1.imp_right h, hs.2.2⟩
      · exact hs

/-- The reading of `T'` is that of `T` with `e` in its place. -/
def Put (K : β → κ) (T T' : List β) (e : β) (k : κ) : Prop :=
  ∃ l r, T = l ++ r ∧ T' = l ++ e :: r ∧ (∀ a ∈ l, K a < k) ∧ ∀ b ∈ r, k < K b

/-- The reading `T'` is `T` with one entry more. -/
def Added (T T' : List β) (e : β) : Prop := ∃ l r, T = l ++ r ∧ T' = l ++ e :: r

theorem Added.perm {T T' : List β} {e : β} (h : Added T T' e) : T'.Perm (e :: T) := by
  obtain ⟨l, r, rfl, rfl⟩ := h
  exact List.perm_middle

theorem Added.within {T T' : List β} {e : β} (h : Added T T' e) (l r : List β) :
    Added (l ++ (T ++ r)) (l ++ (T' ++ r)) e := by
  obtain ⟨l', r', rfl, rfl⟩ := h
  exact ⟨l ++ l', r' ++ r, by simp, by simp⟩

theorem Put.added {K : β → κ} {T T' : List β} {e : β} {k : κ} (h : Put K T T' e k) : Added T T' e := by
  obtain ⟨l, r, h1, h2, -, -⟩ := h
  exact ⟨l, r, h1, h2⟩

theorem Put.within {K : β → κ} {T T' l r : List β} {e : β} {k : κ} (h : Put K T T' e k)
    (hl : ∀ a ∈ l, K a < k) (hr : ∀ b ∈ r, k < K b) :
    Put K (l ++ (T ++ r)) (l ++ (T' ++ r)) e k := by
  obtain ⟨l', r', rfl, rfl, h1, h2⟩ := h
  refine ⟨l ++ l', r' ++ r, by simp, by simp, ?_, ?_⟩
  · intro a ha
    rcases List.mem_append.1 ha with h | h
    · exact hl a h
    · exact h1 a h
  · intro b hb
    rcases List.mem_append.1 hb with h | h
    · exact h2 b h
    · exact hr b h

section Insert

variable {V : View α β} {key : α → κ} {K : β → κ} {k : α}

theorem Found.slotOf {b : Bt α} {nd : BtN α} {m : Nat}
    (F : Found key nd k (findkindex b nd k).1 (findkindex b nd k).2 m) : slotOf b nd k = m := by
  rw [AlchemyDB.slotOf, F.slot]
  omega

/-- A part of a node has the key in the part's share of its slots. -/
theorem Found.within (H : Keyed V key K) {T T' : Sub α (d + 1)} {o m m' : Nat} {i r i' r' : Int}
    (W : Within V T T' o) (F : Found key T.top k i r m) (F' : Found key T'.top k i' r' m')
    (hl : o ≤ m') (hr : m' ≤ o + T.size) : m' = o + m := by
  have hent : ∀ j < T.size, key (T'.top.keys (o + j)) = key (T.top.keys j) := by
    intro j hj
    rw [← H.entry (V := V), W.ent j hj, H.entry]
  have hfit := W.fits
  have hT := T.size_top
  have hT' := T'.size_top
  have hF := F.fits
  rcases Nat.lt_trichotomy m' (o + m) with h | h | h
  · have h1 := F.below (m' - o) (by omega)
    have h2 := F'.above m' (Nat.le_refl _) (by omega)
    rw [← hent (m' - o) (by omega), Nat.add_sub_cancel' hl] at h1
    exact absurd h1 (not_le.2 h2)
  · exact h
  · have h1 := F.above m (Nat.le_refl _) (by omega)
    have h2 := F'.below (o + m) h
    rw [hent m (by omega)] at h2
    exact absurd h2 (not_le.2 h1)

/-- An insertion below a node has added the entry, wherever it has put it. -/
structure Enters (V : View α β) (s s' : Bt α) (T T' : Sub α (d + 1)) (p pi : Nat) (k : α) : Prop where
  out : Out V 0 s s' T T' p pi
  quiet : s'.globals = s.globals
  top : T'.addr = T.addr
  grow : T.size ≤ T'.size
  add : Added (T.flat V) (T'.flat V) (V.see k 0)

/-- What an insertion below a node has done to it. -/
structure Inserted (V : View α β) (K : β → κ) (s s' : Bt α) (T T' : Sub α (d + 1)) (p pi : Nat)
    (k : α) (kk : κ) : Prop where
  out : Out V 0 s s' T T' p pi
  quiet : s'.globals = s.globals
  top : T'.addr = T.addr
  grow : T.size ≤ T'.size
  put : Put K (T.flat V) (T'.flat V) (V.see k 0) kk

theorem Inserted.enters {s s' : Bt α} {T T' : Sub α (d + 1)} {p pi : Nat} {kk : κ}
    (I : Inserted V K s s' T T' p pi k kk) : Enters V s s' T T' p pi k :=
  ⟨I.out, I.quiet, I.top, I.grow, I.put.added⟩

theorem Added.weight (hc : V.counts) {T T' : Sub α d}
    (h : Added (T.flat V) (T'.flat V) (V.see k 0)) : T'.weight V = T.weight V + 1 := by
  obtain ⟨l, r, h1, h2⟩ := h
  have hw : V.wt (V.see k 0) = 1 := by simpa using V.wt_see hc k 0
  rw [Sub.weight, Sub.weight, h1, h2, sum_wt_append, sum_wt_append, List.map_cons, List.sum_cons, hw]
  omega

/-- The search of `k` in a node of the tree. -/
theorem Owing.found {s : Bt α} {T : Sub α (d + 1)} {owe : Int} (g : Owing V s.heap owe T) (C : CmpOk s.cmp key)
    (hl : LogOk s.t s.nbits) (ht : s.t = V.t) (H : Keyed V key K) (ho : Ordered K (T.flat V))
    (k : α) : ∃ m, m ≤ T.size ∧
      Found key T.top k (findkindex s T.top k).1 (findkindex s T.top k).2 m := by
  obtain ⟨x, nd, kid, rfl⟩ := exists_node T
  obtain ⟨m, F⟩ := findkindex_found C hl (by rw [ht]; exact g.node.fill) (ho.node H) k
  exact ⟨m, F.fits, F⟩

/-- A key that is not there is no hit. -/
theorem Found.miss (H : Keyed V key K) {T : Sub α (d + 1)} {i r : Int} {m : Nat}
    (F : Found key T.top k i r m) (habs : ∀ b ∈ T.flat V, K b ≠ key k) : r ≠ 0 := by
  intro h0
  obtain ⟨hm, he⟩ := F.hit.1 h0
  have hlt : m - 1 < T.size := by
    rw [T.size_top]
    have := F.fits
    omega
  refine habs (V.entry T.top (m - 1)) ?_ (by rw [H.entry, he])
  rw [T.flat_focus V (Nat.le_of_lt hlt)]
  exact List.mem_append_right _ (List.mem_append_right _ (T.entry_mem_post hlt))

section Leaf

variable {s : Bt α} {x p pi : Nat} {nd : BtN α} {kid : Nat → Sub α 0}

/-- The reading of a leaf, cut at slot `m`. -/
theorem split_leaf (e : Nat → β) {n m : Nat} (hm : m ≤ n) :
    (List.range n).map e = (List.range m).map e ++ (List.range (n - m)).map (fun j => e (m + j)) := by
  obtain ⟨c, rfl⟩ : ∃ c, n = m + c := ⟨n - m, by omega⟩
  rw [Nat.add_sub_cancel_left, List.range_add, List.map_append, List.map_map]
  rfl

/-- The reading of a leaf whose keys from slot `m` on have moved up for a new one. -/
theorem put_leaf {e e' : Nat → β} {n m : Nat} {b : β} (hm : m ≤ n)
    (hL : ∀ j < m, e' j = e j) (hI : e' m = b) (hR : ∀ j, m ≤ j → j < n → e' (j + 1) = e j) :
    (List.range (n + 1)).map e' =
      (List.range m).map e ++ b :: (List.range (n - m)).map (fun j => e (m + j)) := by
  obtain ⟨c, rfl⟩ : ∃ c, n = m + c := ⟨n - m, by omega⟩
  rw [Nat.add_sub_cancel_left, show m + c + 1 = m + (c + 1) by omega, List.range_add, List.map_append,
    List.map_map, List.range_succ_eq_map, List.map_cons, List.map_map]
  congr 1
  · exact List.map_congr_left (fun j hj => hL j (List.mem_range.1 hj))
  · congr 1
    refine List.map_congr_left (fun j hj => ?_)
    have := List.mem_range.1 hj
    exact hR (m + j) (by omega) (by omega)

/-- `bt_insertnonfull` in a leaf, at the slot it has found. -/
theorem leaf_enters [Inhabited α] (g : Good V s.heap (Sub.node x nd kid))
    (L : Link s (Sub.node x nd kid).addrs x p pi) (ht : s.t = V.t) (hroom : nd.n < 2 * V.t - 1)
    (hok : V.ok (V.see k 0)) {m : Nat} (hm : m ≤ nd.n) (hslot : slotOf s nd k = m) (fuel : Nat) :
    ∃ s' T', btInsertnonfull k 0 (fuel + 1) x p pi s = some ((), s') ∧
      Enters V s s' (Sub.node x nd kid) T' p pi k ∧
      T'.flat V = (List.range m).map (V.entry nd) ++
        V.see k 0 :: (List.range (nd.n - m)).map (fun j => V.entry nd (m + j)) := by
  have hleaf : nd.leaf = true := g.node.leaf.2 rfl
  have hP := g.node.disc
  -- the run, on the contents of the leaf
  obtain ⟨nd₁, hfold, hP₁, hL₁, he1, he2, -⟩ := View.slide_up (V := V) (i := m)
    (f := fun nd j => nd.mvIn V.t (m + 1 + j) (m + j))
    (fun nd m h => View.slid_mvIn h (by omega)) (nd.n - m) nd hP
  have hmv := mvXKeys_in g.node.live (m + 1) m (nd.n - m) p pi
  simp only [mvXKeysOrder, if_pos (Nat.le_succ m), ge_iff_le, ht, hfold] at hmv
  have h₁ : (s.setHeap x (some nd₁)).heap x = some nd₁ := upd_same _ _ _
  have how := overwriteDR_run h₁ (i := m) (v := 0) (fun h => absurd rfl h) p pi
  rw [Bt.setHeap_setHeap, Bt.setHeap_t, ht] at how
  generalize hnd₂ : nd₁.owDR V.t m 0 = nd₂ at how
  have h₂ : (s.setHeap x (some nd₂)).heap x = some nd₂ := upd_same _ _ _
  have hraw : setBTKeyRaw x m (.val k) (s.setHeap x (some nd₂)) = _ :=
    setBTKeyRaw_run h₂ (k := k) rfl
  rw [Bt.setHeap_setHeap] at hraw
  have h₃ : (s.setHeap x (some (nd₂.setKey m k))).heap x = some (nd₂.setKey m k) := upd_same _ _ _
  have h₄ : (s.setHeap x (some ((nd₂.setKey m k).addN 1))).heap x =
      some ((nd₂.setKey m k).addN 1) := upd_same _ _ _
  -- the contents afterwards
  have hfits : V.fits 0 := by
    have := V.fits_dr m (V.zero m hP)
    rwa [V.zero_dr m m hP, if_pos rfl] at this
  have hent : ∀ j, j ≠ m → V.ok (V.entry nd₁ j) →
      V.entry ((((nd₂.setKey m k).addN 1).addSc 1)) j = V.entry nd₁ j := by
    intro j hj hj'
    rw [View.entry_addSc, View.entry_addN, View.entry_setKey_ne k hj, View.entry, ← hnd₂,
      BtN.owDR_keys, View.see_ow_ne _ hP₁ hfits hj hj']
    rfl
  have hseen := g.node.seen
  have hLo : ∀ j < m, V.entry (((nd₂.setKey m k).addN 1).addSc 1) j = V.entry nd j := by
    intro j hj
    have he := he2 j (Or.inl hj) (hseen j (by omega))
    rw [hent j (by omega) (he ▸ hseen j (by omega)), he]
  have hIn : V.entry (((nd₂.setKey m k).addN 1).addSc 1) m = V.see k 0 := by
    rw [View.entry_addSc, View.entry_addN, View.entry_setKey_at, ← hnd₂, View.see_ow_at _ hP₁ hfits]
  have hHi : ∀ j, m ≤ j → j < nd.n →
      V.entry (((nd₂.setKey m k).addN 1).addSc 1) (j + 1) = V.entry nd j := by
    intro j hj hn
    have he := he1 (j + 1) (by omega) (by omega) (hseen j hn)
    rw [Nat.add_sub_cancel] at he
    rw [hent (j + 1) (by omega) (he ▸ hseen j hn), he]
  have hnum : (((nd₂.setKey m k).addN 1).addSc 1).n = nd.n + 1 := by
    simp [← hnd₂, hL₁.n]
  have hnew := put_leaf hm hLo hIn hHi
  have hadd : Added ((Sub.node x nd kid).flat V)
      ((Sub.node x (((nd₂.setKey m k).addN 1).addSc 1) kid).flat V) (V.see k 0) := by
    rw [flat_leaf, flat_leaf, hnum]
    exact ⟨_, _, split_leaf _ hm, hnew⟩
  refine ⟨_, Sub.node x (((nd₂.setKey m k).addN 1).addSc 1) kid, ?_, ⟨leaf_out g L ?_ ?_ ?_ ?_ ?_,
    rfl, rfl, ?_, hadd⟩, ?_⟩
  · have hslot' : ((findkindex s nd k).1 + 1).toNat = m := hslot
    simp only [btInsertnonfull, run_bind (run_get s), run_bind (getN_run g.node.live), hleaf, if_true,
      hslot', run_bind hmv, run_bind how, run_bind hraw, run_bind (addN_run h₃ 1)]
    rw [incrScion_run (by rw [Bt.setHeap_setHeap]; exact h₄), Bt.setHeap_setHeap, Bt.setHeap_setHeap]
  · simp [← hnd₂, hL₁.leaf]
  · omega
  · exact View.P_addSc 1 (View.P_addN 1 (View.P_setKey m k (hnd₂ ▸ View.P_ow hP₁ hfits)))
  · intro j hj
    rw [hnum] at hj
    rcases Nat.lt_trichotomy j m with h | h | h
    · rw [hLo j h]
      exact hseen j (by omega)
    · rwa [h, hIn]
    · obtain ⟨c, rfl⟩ : ∃ c, j = c + 1 := ⟨j - 1, by omega⟩
      rw [hHi c (by omega) (by omega)]
      exact hseen c (by omega)
  · intro hc
    rw [hadd.weight hc, ← g.sci hc]
    simp [← hnd₂, hL₁.scion]
  · rw [Sub.size_node, Sub.size_node, hnum]
    omega
  · rw [flat_leaf, hnum]
    exact hnew

theorem insert_leaf [Inhabited α] (g : Good V s.heap (Sub.node x nd kid))
    (L : Link s (Sub.node x nd kid).addrs x p pi) (C : CmpOk s.cmp key)
    (hl : LogOk s.t s.nbits) (ht : s.t = V.t) (H : Keyed V key K) (hroom : nd.n < 2 * V.t - 1)
    (ho : Ordered K ((Sub.node x nd kid).flat V))
    (habs : ∀ b ∈ (Sub.node x nd kid).flat V, K b ≠ key k) (hok : V.ok (V.see k 0)) (fuel : Nat) :
    ∃ s' T', btInsertnonfull k 0 (fuel + 1) x p pi s = some ((), s') ∧
      Inserted V K s s' (Sub.node x nd kid) T' p pi k (key k) := by
  obtain ⟨m, hm, F⟩ := g.found C hl ht H ho k
  rw [Sub.size_node] at hm
  obtain ⟨s', T', hrun, I, hflat⟩ := leaf_enters g L ht hroom hok hm F.slotOf fuel
  refine ⟨s', T', hrun, I.out, I.quiet, I.top, I.grow, _, _, ?_, hflat, ?_, ?_⟩
  · rw [flat_leaf]
    exact split_leaf _ hm
  · intro a ha
    obtain ⟨j, hj, rfl⟩ := List.mem_map.1 ha
    have hj := List.mem_range.1 hj
    rw [H.entry]
    refine lt_of_le_of_ne (F.below j hj) (fun e => ?_)
    refine habs (V.entry nd j) ?_ (by rw [H.entry, e])
    rw [flat_leaf]
    exact List.mem_map.2 ⟨j, List.mem_range.2 (by omega), rfl⟩
  · intro a ha
    obtain ⟨j, hj, rfl⟩ := List.mem_map.1 ha
    have hj := List.mem_range.1 hj
    have hn : m + j < nd.n := by omega
    rw [H.entry]
    exact F.above (m + j) (by omega) hn

end Leaf

/-! ## Inner nodes -/

/-- The parts of a tree that searches depend on. -/
structure Setting (V : View α β) (key : α → κ) (K : β → κ) (s : Bt α) : Prop where
  cmp : CmpOk s.cmp key
  log : LogOk s.t s.nbits
  t : s.t = V.t
  keyed : Keyed V key K

section Rest

variable {s s' : Bt α} (e : s'.rest = s.rest)

include e

theorem rest_cmp : s'.cmp = s.cmp := congrArg (fun r => r.1) e

theorem rest_t : s'.t = s.t := congrArg (fun r => r.2.2.1) e

theorem rest_nbits : s'.nbits = s.nbits := congrArg (fun r => r.2.2.2.1) e

theorem Setting.congr (h : Setting V key K s) : Setting V key K s' :=
  ⟨rest_cmp e ▸ h.cmp, by rw [rest_t e, rest_nbits e]; exact h.log, (rest_t e).trans h.t, h.keyed⟩

theorem findkindex_congr (nd : BtN α) (k : α) : findkindex s' nd k = findkindex s nd k := by
  simp only [findkindex, rest_cmp e, rest_nbits e]

theorem slotOf_congr (nd : BtN α) (k : α) : slotOf s' nd k = slotOf s nd k := by
  rw [slotOf, findkindex_congr e, slotOf]

theorem SplitSafe.congr {P : Prop} : ∀ {d : Nat} {T : Sub α d}, SplitSafe s k T P →
    SplitSafe s' k T P
  | _, .nil, _ => trivial
  | _, .node _ nd kid, hs => by
      unfold SplitSafe at hs ⊢
      rw [slotOf_congr e, rest_t e, Bt.getn, rest_t e]
      rw [Bt.getn] at hs
      split_ifs at hs ⊢ with hf
      · exact ⟨hs.1, hs.2.1, hs.2.2.congr⟩
      · exact ⟨hs.1, hs.2.1, hs.2.2.congr⟩
      · exact hs.congr

end Rest

section Inner

variable {s s₁ s₂ : Bt α} {x p pi : Nat} {nd : BtN α} {kid : Nat → Sub α (d + 1)}

/-- The new entry has been added below kid `i`. -/
theorem kid_enters [Inhabited α] (g : Good V s.heap (Sub.node x nd kid))
    (L : Link s (Sub.node x nd kid).addrs x p pi) {i fuel : Nat} (hi : i ≤ nd.n) {K' : Sub α (d + 1)}
    (hrun : btInsertnonfull k 0 fuel (kid i).addr x i s = some ((), s₁))
    (I : Enters V s s₁ (kid i) K' x i k) :
    ∃ s' T', (do
        let c ← getNode x i
        btInsertnonfull k 0 fuel c x i
        incrScion x 1 : BtM α Unit) s = some ((), s') ∧
      Enters V s s' (Sub.node x nd kid) T' p pi k ∧
      T'.flat V = (Sub.node x nd kid).pre V i ++ (K'.flat V ++ (Sub.node x nd kid).post V i) := by
  have hx := I.out.parent g L hi
  have hlow := g.node.low (by omega) i hi
  have hF : Follows V 0 0 nd ((nd.setKid i K'.addr).addSc 1) i (kid i) K' := by
    refine ⟨rfl, rfl, View.P_addSc 1 (View.P_setKid _ _ g.node.disc), fun j _ => rfl, rfl, ?_⟩
    intro hc
    rw [I.add.weight hc, BtN.addSc_scion, BtN.setKid_scion]
    omega
  obtain ⟨hout, hflat⟩ := I.out.lift g L hi (hlow.trans I.grow) hF
  refine ⟨_, _, ?_, ⟨hout, I.quiet, rfl, Nat.le_refl _, ?_⟩, hflat⟩
  · rw [run_bind (getNode_run g.node.live g.inner i), g.node.link (by omega) i hi, run_bind hrun,
      incrScion_run hx]
  · rw [hflat, (Sub.node x nd kid).flat_focus V (show i ≤ nd.n from hi)]
    exact I.add.within _ _

/-- The new entry has been put below kid `i`. -/
theorem insert_kid [Inhabited α] (g : Good V s.heap (Sub.node x nd kid))
    (L : Link s (Sub.node x nd kid).addrs x p pi) {i fuel : Nat} (hi : i ≤ nd.n)
    (hpre : ∀ a ∈ (Sub.node x nd kid).pre V i, K a < key k)
    (hpost : ∀ b ∈ (Sub.node x nd kid).post V i, key k < K b) {K' : Sub α (d + 1)}
    (hrun : btInsertnonfull k 0 fuel (kid i).addr x i s = some ((), s₁))
    (I : Inserted V K s s₁ (kid i) K' x i k (key k)) :
    ∃ s' T', (do
        let c ← getNode x i
        btInsertnonfull k 0 fuel c x i
        incrScion x 1 : BtM α Unit) s = some ((), s') ∧
      Inserted V K s s' (Sub.node x nd kid) T' p pi k (key k) := by
  obtain ⟨s', T', hrun', E, hflat⟩ := kid_enters g L hi hrun I.enters
  refine ⟨s', T', hrun', E.out, E.quiet, E.top, E.grow, ?_⟩
  rw [hflat, (Sub.node x nd kid).flat_focus V (show i ≤ nd.n from hi)]
  exact I.put.within hpre hpost

theorem Inserted.after_cut {T T₁ T₂ : Sub α (d + 2)} {i : Nat} (h : Cut V s s₁ T T₁ p pi i)
    (hflat : T₁.flat V = T.flat V) (I : Inserted V K s₁ s₂ T₁ T₂ p pi k (key k))
    (L : Link s T.addrs T.addr p pi) : Inserted V K s s₂ T T₂ p pi k (key k) := by
  refine ⟨h.out.trans I.out L, I.quiet.trans h.quiet, I.top.trans h.top, ?_, hflat ▸ I.put⟩
  have h1 := h.size
  have h2 := I.grow
  omega

theorem Cut.flat {T T₁ : Sub α (d + 2)} {i : Nat} (h : Cut V s s₁ T T₁ p pi i) (hi : i ≤ T.size) :
    T₁.flat V = T.flat V := by
  have hsz := h.size
  have hi' : i < T₁.size := by omega
  rw [T.flat_focus V hi, T₁.flat_focus V (Nat.le_of_lt hi'), h.pre, T₁.post_succ V hi', h.post,
    h.mid]
  simp

/-- Which half of the cut node takes `k` is decided by its median. -/
theorem Cut.sides {T T₁ : Sub α (d + 2)} {i : Nat} {kk : κ} (h : Cut V s s₁ T T₁ p pi i)
    (hi : i ≤ T.size) (ho : Ordered K (T.flat V)) (hpre : ∀ a ∈ T.pre V i, K a < kk)
    (hpost : ∀ b ∈ T.post V i, kk < K b) :
    (K (V.entry T₁.top i) < kk →
      (∀ a ∈ T₁.pre V (i + 1), K a < kk) ∧ ∀ b ∈ T₁.post V (i + 1), kk < K b) ∧
    (kk < K (V.entry T₁.top i) →
      (∀ a ∈ T₁.pre V i, K a < kk) ∧ ∀ b ∈ T₁.post V i, kk < K b) := by
  have hi' : i < T₁.size := by
    have := h.size
    omega
  have hk : Ordered K ((T.kid i).flat V) := ho.kid hi
  rw [h.mid] at hk
  refine ⟨fun hlt => ⟨fun a ha => ?_, fun b hb => hpost b (h.post ▸ hb)⟩,
    fun hlt => ⟨fun a ha => hpre a (h.pre ▸ ha), fun b hb => ?_⟩⟩
  · rw [Sub.pre_succ, h.pre] at ha
    simp only [List.mem_append, List.mem_singleton] at ha
    rcases ha with ha | ha | rfl
    · exact hpre a ha
    · exact lt_of_le_of_lt (hk.across ha List.mem_cons_self) hlt
    · exact hlt
  · rw [T₁.post_succ V hi', h.post] at hb
    simp only [List.mem_cons, List.mem_append] at hb
    rcases hb with rfl | hb | hb
    · exact hlt
    · exact lt_of_lt_of_le hlt (List.rel_of_pairwise_cons hk.right hb)
    · exact hpost b hb

/-- The path goes on in the half as it would have in the full node. -/
theorem SplitSafe.half {Y H : Sub α (d + 1)} {o : Nat} {P : Prop} (S : Setting V key K s)
    (e : s₁.rest = s.rest) (gY : Good V s.heap Y) (gH : Good V s₁.heap H)
    (oY : Ordered K (Y.flat V)) (oH : Ordered K (H.flat V)) (W : Within V H Y o)
    (hl : o ≤ slotOf s Y.top k) (hr : slotOf s Y.top k ≤ o + H.size)
    (hP : P → ∀ j, Lasting H.top j) (hs : SplitSafe s k (Y.kid (slotOf s Y.top k)) P) :
    SplitSafe s₁ k (H.kid (slotOf s₁ H.top k)) (Lasting H.top (slotOf s₁ H.top k)) := by
  have S₁ := S.congr e
  obtain ⟨m, -, F⟩ := gY.found S.cmp S.log S.t S.keyed oY k
  obtain ⟨c, hc, F₁⟩ := gH.found S₁.cmp S₁.log S₁.t S₁.keyed oH k
  rw [F.slotOf] at hl hr hs
  rw [F₁.slotOf, ← W.kid c hc, ← F₁.within S.keyed W F hl hr]
  exact (hs.congr e).mono (fun h => hP h c)

/-- A full kid `i` has been cut: slot `i'`, on either side of the median, is where `k` belongs. -/
structure Chosen (V : View α β) (K : β → κ) (s : Bt α) (T : Sub α (d + 2)) (i' : Nat) (k : α)
    (kk : κ) : Prop where
  fits : i' ≤ T.size
  size : (T.kid i').size = V.t - 1
  pre : ∀ a ∈ T.pre V i', K a < kk
  post : ∀ b ∈ T.post V i', kk < K b
  safe : SplitSafe s k ((T.kid i').kid (slotOf s (T.kid i').top k))
    (Lasting (T.kid i').top (slotOf s (T.kid i').top k))

theorem Cut.chosen {T T₁ : Sub α (d + 2)} {i : Nat} (C : Cut V s s₁ T T₁ p pi i)
    (S : Setting V key K s) (g : Good V s.heap T) (hi : i ≤ T.size)
    (hfull : (T.kid i).size = 2 * V.t - 1) (ho : Ordered K (T.flat V))
    (habs : ∀ b ∈ T.flat V, K b ≠ key k)
    (hpre : ∀ a ∈ T.pre V i, K a < key k) (hpost : ∀ b ∈ T.post V i, key k < K b)
    (hsafe : SplitSafe s k ((T.kid i).kid (slotOf s (T.kid i).top k))
      (if slotOf s (T.kid i).top k < V.t then LowerLasts V.t (T.kid i).top
        else (T.kid i).top.dr V.t ≠ 0)) {c : Nat} (hR : K (V.entry T₁.top i) < key k → c = i + 1)
    (hL : ¬ K (V.entry T₁.top i) < key k → c = i) : Chosen V K s₁ T₁ c k (key k) := by
  have h2 := V.two_le
  have e₁ := C.out.edit.rest
  have g₁ := C.out.good
  have hflat := C.flat hi
  have hsz := C.size
  have ho₁ : Ordered K (T₁.flat V) := hflat ▸ ho
  have hsides := C.sides hi ho hpre hpost
  have hmed : K (V.entry T₁.top i) = key ((T.kid i).top.keys (V.t - 1)) := by
    rw [C.med, S.keyed.entry]
  have hn := (T.kid i).size_top
  obtain ⟨m, hm, F⟩ := (g.kid hi).found S.cmp S.log S.t S.keyed (ho.kid hi) k
  have hslot := F.slotOf
  by_cases hgt : K (V.entry T₁.top i) < key k
  · have hct : V.t ≤ m := by
      by_contra hlt
      have := F.above (V.t - 1) (by omega) (by omega)
      exact lt_asymm hgt (hmed ▸ this)
    have hH := C.sizeR
    rw [hR hgt]
    refine ⟨by omega, hH, (hsides.1 hgt).1, (hsides.1 hgt).2, ?_⟩
    refine SplitSafe.half S e₁ (g.kid hi) (g₁.kid (by omega)) (ho.kid hi) (ho₁.kid (by omega))
      C.upper (by omega) (by omega) C.lastR ?_
    rwa [if_neg (by omega)] at hsafe
  · have hne : K (V.entry T₁.top i) ≠ key k := by
      refine habs _ ?_
      rw [T.flat_focus V hi, C.mid]
      simp
    have hlt : key k < K (V.entry T₁.top i) := lt_of_le_of_ne (not_lt.1 hgt) hne.symm
    have hct : m ≤ V.t - 1 := by
      by_contra hlt'
      have := F.below (V.t - 1) (by omega)
      exact absurd (hmed ▸ this) (not_le.2 hlt)
    have hH := C.sizeL
    rw [hL hgt]
    refine ⟨by omega, hH, (hsides.2 hlt).1, (hsides.2 hlt).2, ?_⟩
    refine SplitSafe.half S e₁ (g.kid hi) (g₁.kid (by omega)) (ho.kid hi) (ho₁.kid (by omega))
      C.lower (by omega) (by omega) C.lastL ?_
    rwa [if_pos (by omega)] at hsafe

end Inner

/-- `bt_insertnonfull` puts `k` where it belongs. -/
theorem insert_run [Inhabited α] (hok : V.ok (V.see k 0)) :
    ∀ {d : Nat} {s : Bt α} {T : Sub α (d + 1)} {p pi fuel : Nat}, d < fuel →
      Setting V key K s → Good V s.heap T → Link s T.addrs T.addr p pi → T.size < 2 * V.t - 1 →
      Ordered K (T.flat V) → (∀ b ∈ T.flat V, K b ≠ key k) →
      SplitSafe s k (T.kid (slotOf s T.top k)) (Lasting T.top (slotOf s T.top k)) →
      ∃ s' T', btInsertnonfull k 0 fuel T.addr p pi s = some ((), s') ∧
        Inserted V K s s' T T' p pi k (key k) := by
  intro d
  induction d with
  | zero =>
      intro s T p pi fuel hf S g L hroom ho habs _
      obtain ⟨x, nd, kid, rfl⟩ := exists_node T
      obtain ⟨f, rfl⟩ : ∃ f, fuel = f + 1 := ⟨fuel - 1, by omega⟩
      exact insert_leaf g L S.cmp S.log S.t S.keyed hroom ho habs hok f
  | succ d ih =>
      intro s T p pi fuel hf S g L hroom ho habs hsafe
      obtain ⟨x, nd, kid, rfl⟩ := exists_node T
      obtain ⟨f, rfl⟩ : ∃ f, fuel = f + 1 := ⟨fuel - 1, by omega⟩
      obtain ⟨m, hm, F⟩ := g.found S.cmp S.log S.t S.keyed ho k
      have hr := F.miss S.keyed habs
      have hpre := F.before S.keyed ho hr
      have hpost := (F.around S.keyed ho).2
      have hslot : ((findkindex s nd k).1 + 1).toNat = m := F.slotOf
      have hleaf := g.inner
      have hm' : m ≤ nd.n := hm
      have hy : nd.nodes m = (kid m).addr := g.node.link (by omega) m hm
      obtain ⟨y, ny, ky, hky⟩ := exists_node (kid m)
      have gy : Good V s.heap (Sub.node y ny ky) := hky ▸ g.kids m hm
      have habsK : ∀ b ∈ (kid m).flat V, K b ≠ key k := by
        intro b hb
        refine habs b ?_
        rw [(Sub.node x nd kid).flat_focus V hm]
        exact List.mem_append_right _ (List.mem_append_left _ hb)
      rw [F.slotOf, Sub.kid_node, Sub.top_node, hky, SplitSafe, Bt.getn, S.t] at hsafe
      simp only [btInsertnonfull, Sub.addr_node, run_bind (run_get s),
        run_bind (getN_run g.node.live), hleaf, Bool.false_eq_true, if_false, hslot,
        run_bind (getNode_run g.node.live hleaf m), hy, hky, run_bind (getN_run gy.node.live),
        Bt.getn, S.t]
      by_cases hfull : ny.n = 2 * V.t - 1
      · -- the kid is full: it is cut, and the half that takes `k` is entered
        rw [if_pos hfull] at hsafe
        obtain ⟨s₁, T₁, hcut, C⟩ := btreesplitchild_run g L S.t hm hky hfull hroom hsafe.1
          hsafe.2.1 x m
        obtain ⟨x₁, nd₁, kid₁, rfl⟩ := exists_node T₁
        obtain rfl : x₁ = x := C.top
        have e₁ := C.out.edit.rest
        have S₁ := S.congr e₁
        have g₁ := C.out.good
        have L₁ := C.out.link L
        have hflat := C.flat hm
        have ho₁ : Ordered K ((Sub.node x₁ nd₁ kid₁).flat V) := hflat ▸ ho
        have hcmp : s.cmp k (nd₁.keys m) > 0 ↔ K (V.entry nd₁ m) < key k := by
          rw [S.cmp.gt, S.keyed.entry]
        simp only [if_pos hfull, run_bind hcut, run_bind (getN_run g₁.node.live)]
        generalize hc : (if s.cmp k (nd₁.keys m) > 0 then m + 1 else m) = i
        have H := C.chosen S g hm (by rw [Sub.kid_node, hky]; exact hfull) ho habs hpre hpost
          (by simpa only [Sub.kid_node, hky, Sub.top_node] using hsafe.2.2)
          (fun h => hc.symm.trans (if_pos (hcmp.2 h)))
          (fun h => hc.symm.trans (if_neg (fun h' => h (hcmp.1 h'))))
        have hi : i ≤ nd₁.n := H.fits
        have hroomH : (kid₁ i).size < 2 * V.t - 1 := by
          have h1 : (kid₁ i).size = V.t - 1 := H.size
          have := V.two_le
          omega
        obtain ⟨s₂, K₂, hrun, I⟩ := ih (show d < f by omega) S₁ (g₁.kids i hi) (L₁.toKid g₁ hi)
          hroomH (ho₁.kid hi) (fun b hb => habs b (by
            rw [← hflat, (Sub.node x₁ nd₁ kid₁).flat_focus V hi]
            exact List.mem_append_right _ (List.mem_append_left _ hb))) H.safe
        obtain ⟨s', T', hrun', I'⟩ := insert_kid g₁ L₁ hi H.pre H.post hrun I
        exact ⟨s', T', hrun', I'.after_cut C hflat L⟩
      · rw [if_neg hfull] at hsafe
        have hfill := gy.node.fill
        obtain ⟨s₁, K₁, hrun, I⟩ := ih (show d < f by omega) S gy (hky ▸ L.toKid g hm)
          (by rw [Sub.size_node]; omega) (hky ▸ ho.kid hm) (hky ▸ habsK) hsafe
        rw [← hky] at hrun I
        obtain ⟨s', T', hrun', I'⟩ := insert_kid g L hm hpre hpost hrun I
        refine ⟨s', T', ?_, I'⟩
        rw [if_neg hfull]
        exact hrun'

/-! ## The root -/

section Root

variable {s : Bt α}

/-- A slot with what is below `k` before it and what is above `k` behind it is the slot of
`k`. -/
theorem Found.slot_unique (H : Keyed V key K) {T : Sub α (d + 1)} {i r : Int} {m c : Nat}
    (F : Found key T.top k i r m) (hc : c ≤ T.size) (hpre : ∀ a ∈ T.pre V c, K a < key k)
    (hpost : ∀ b ∈ T.post V c, key k < K b) : m = c := by
  have hn := T.size_top
  have hm := F.fits
  rcases Nat.lt_trichotomy m c with h | h | h
  · have h1 := hpre _ (T.entry_mem_pre h)
    rw [H.entry] at h1
    exact absurd h1 (lt_asymm (F.above m (Nat.le_refl m) (by omega)))
  · exact h
  · have h1 := hpost _ (T.entry_mem_post (by omega))
    rw [H.entry] at h1
    exact absurd (F.below c h) (not_le.2 h1)

/-- The block `bt_insert` puts above a full root. -/
def rootNode [Inhabited α] (nr : BtN α) (r : Nat) : BtN α :=
  ((freshNode { nr with leaf := false }).addSc nr.scion).setKid 0 r

/-- The tree with a new root above the old one. -/
def Bt.grown [Inhabited α] (s : Bt α) (nr : BtN α) : Bt α :=
  { s.withNode (rootNode nr s.root) with root := s.next }

theorem grow_run [Inhabited α] {γ : Type} (nr : BtN α) (f : Nat → BtM α γ) :
    (do
      let x ← allocbtreenode nr.dirty
      modify (fun b => { b with root := x })
      modN x (fun nd => { nd with leaf := false, n := 0 })
      incrScion x nr.scion
      setNode x 0 s.root
      f x : BtM α γ) s = f s.next (s.grown nr) := by
  simp [allocbtreenode, mallocN, modN, getN, setN, bind, StateT.bind, Bt.setHeap, Bt.withNode,
    freshNode, Bt.grown, rootNode, modify, modifyGet, MonadStateOf.modifyGet, StateT.modifyGet,
    incrScion, setNode, BtN.addSc, BtN.setKid]

/-- The old tree is good under the new root. -/
theorem Whole.grown [Inhabited α] {r : Nat} {nr : BtN α} {kid : Nat → Sub α d}
    (W : Whole V s (Sub.node r nr kid)) (hfull : nr.n = 2 * V.t - 1) :
    Good V (s.grown nr).heap (Sub.node s.next (rootNode nr r) (fun _ => Sub.node r nr kid)) ∧
    Link (s.grown nr) (Sub.node s.next (rootNode nr r) (fun _ => Sub.node r nr kid)).addrs s.next
      r 0 ∧ ∀ b, (s.grown nr).heap b ≠ none →
        b ∈ (Sub.node s.next (rootNode nr r) (fun _ => Sub.node r nr kid)).addrs := by
  have g := W.good
  have hroot : s.root = r := W.root
  have hlive : (s.grown nr).heap s.next = some (rootNode nr r) := by
    rw [← hroot]
    exact upd_same _ _ _
  have g₁ : Good V (s.grown nr).heap (Sub.node r nr kid) := g.withNode W.bound _
  have hne : s.next ∉ (Sub.node r nr kid).addrs := fun h => by
    have := W.bound _ (g.live _ h)
    omega
  have hdisc : V.P (rootNode nr r) :=
    View.P_setKid _ _ (View.P_addSc _ (V.blank g.node.disc rfl rfl rfl))
  refine ⟨⟨⟨hlive, by simp [rootNode, freshNode], fun _ j hj => ?_, Nat.zero_le _, fun _ j _ => ?_, hdisc,
    fun j hj => absurd hj (Nat.not_lt_zero j), fun hc => ?_, fun _ _ => hne,
    fun i hi j hj hij => ?_⟩, fun _ _ => g₁⟩, ⟨fun b hb => ?_, ?_, fun _ => rfl, fun h => absurd rfl h⟩,
    fun b hb => ?_⟩
  · obtain rfl : j = 0 := Nat.le_zero.1 hj
    simp [rootNode]
  · rw [Sub.size_node]
    omega
  · rw [add_zero, Sub.weight, Sub.flat_node]
    show 0 + nr.scion = ((weave 0 _ _).map V.wt).sum
    rw [weave_zero, zero_add]
    exact g.sci hc
  · have h1 := Nat.le_zero.1 hi
    have h2 := Nat.le_zero.1 hj
    omega
  · show b < s.next + 1
    by_cases h : b = s.next
    · omega
    · have := W.bound b (by rwa [show (s.grown nr).heap b = s.heap b from upd_ne _ _ h] at hb)
      omega
  · show (s.grown nr).heap s.next ≠ none
    rw [hlive]
    simp
  · by_cases h : b = s.next
    · exact Or.inl h
    · rw [show (s.grown nr).heap b = s.heap b from upd_ne _ _ h] at hb
      exact Sub.kid_mem (j := 0) (Nat.zero_le _) (W.kept b hb)

/-- The parts of a tree that no operation changes. -/
def Bt.kit (s : Bt α) : (α → α → Int) × Nat × Nat × Bts := (s.cmp, s.t, s.nbits, s.s)

/-- The end of `bt_insert`, below a root with room. -/
theorem insert_end [Inhabited α] {T : Sub α (d + 1)} (W : Whole V s T) (S : Setting V key K s)
    (hroom : T.size < 2 * V.t - 1) (ho : Ordered K (T.flat V))
    (habs : ∀ b ∈ T.flat V, K b ≠ key k) (hok : V.ok (V.see k 0))
    (hsafe : SplitSafe s k (T.kid (slotOf s T.top k)) (Lasting T.top (slotOf s T.top k)))
    (p : Nat) :
    ∃ s', ∃ T' : Sub α (d + 1), (do
        let b ← get
        btInsertnonfull k 0 b.next T.addr p 0
        modify (fun b => { b with numkeys := b.numkeys + 1 }) : BtM α Unit) s = some ((), s') ∧
      Whole V s' T' ∧ Put K (T.flat V) (T'.flat V) (V.see k 0) (key k) ∧ s'.kit = s.kit ∧
      s'.numkeys = s.numkeys + 1 ∧ s'.globals = s.globals := by
  obtain ⟨s₁, T₁, hrun, I⟩ := insert_run hok W.depth S W.good (W.link p 0) hroom ho habs hsafe
  have W₁ := W.out I.out (fun h => Nat.lt_of_lt_of_le (W.inner h) I.grow)
  have e := I.out.edit.rest
  refine ⟨{ s₁ with numkeys := s₁.numkeys + 1 }, T₁, ?_, ⟨W₁.good, W₁.root, W₁.bound, W₁.kept, W₁.inner⟩,
    I.put, congrArg (fun r => (r.1, r.2.2)) e, ?_, I.quiet⟩
  · rw [run_bind (run_get s), run_bind hrun]
    rfl
  · exact congrArg (· + 1) (congrArg (fun r => r.2.1) e)

/-- `bt_insert` puts the new entry where it belongs. -/
theorem btInsert_run [Inhabited α] {T : Sub α (d + 1)} (W : Whole V s T) (S : Setting V key K s)
    (ho : Ordered K (T.flat V)) (habs : ∀ b ∈ T.flat V, K b ≠ key k) (hok : V.ok (V.see k 0))
    (hsafe : SplitSafe s k T True) :
    ∃ s' d', ∃ T' : Sub α (d' + 1), btInsert k 0 s = some ((), s') ∧ Whole V s' T' ∧
      Put K (T.flat V) (T'.flat V) (V.see k 0) (key k) ∧ s'.kit = s.kit ∧
      s'.numkeys = s.numkeys + 1 ∧ s'.globals = s.globals := by
  obtain ⟨r, nr, kid, rfl⟩ := exists_node T
  have g := W.good
  have hroot : s.root = r := W.root
  have h2 := V.two_le
  rw [SplitSafe, Bt.getn, S.t] at hsafe
  simp only [btInsert, run_bind (run_get s), hroot, run_bind (getN_run g.node.live), Bt.getn, S.t]
  by_cases hfull : nr.n = 2 * V.t - 1
  · -- a new root, whose only kid is cut
    rw [if_pos hfull] at hsafe
    obtain ⟨g₁, L₁, hkept⟩ := W.grown hfull
    have S₁ : Setting V key K (s.grown nr) := ⟨S.cmp, S.log, S.t, S.keyed⟩
    have hmed : MedianSafe V.t (rootNode nr r) nr 0 := by
      by_cases h0 : nr.dr (V.t - 1) = 0
      · exact Or.inl h0
      · exact Or.inr ⟨show ¬ nr.dirty ≤ 0 from BtN.dirty_of_dr h0, Or.inl rfl⟩
    obtain ⟨s₁, T₁, hcut, C⟩ := btreesplitchild_run g₁ L₁ S₁.t (Nat.zero_le _) rfl hfull
      (show 0 < _ by omega) hsafe.1 hmed r 0
    have hflat : T₁.flat V = (Sub.node r nr kid).flat V :=
      (C.flat (Nat.zero_le _)).trans weave_zero
    have hsz : T₁.size = 1 := C.size
    have e₁ := C.out.edit.rest
    have S₂ := S₁.congr e₁
    have W₁ : Whole V s₁ T₁ :=
      ⟨C.out.good, by rw [C.out.edit.root]; exact if_pos rfl, C.out.edit.bound,
        C.out.edit.whole_kept hkept, fun _ => by omega⟩
    have ho₁ : Ordered K (T₁.flat V) := hflat ▸ ho
    -- the half the insertion goes on with is the one the search of the new root finds
    obtain ⟨m, hm, F⟩ := W₁.good.found S₂.cmp S₂.log S₂.t S₂.keyed ho₁ k
    have hnil : ∀ (b : β), b ∉ ([] : List β) := fun b => List.not_mem_nil
    obtain ⟨c, hR, hL⟩ : ∃ c, (K (V.entry T₁.top 0) < key k → c = 1) ∧
        (¬ K (V.entry T₁.top 0) < key k → c = 0) := by
      by_cases h : K (V.entry T₁.top 0) < key k
      · exact ⟨1, fun _ => rfl, fun h' => absurd h h'⟩
      · exact ⟨0, fun h' => absurd h' h, fun _ => rfl⟩
    have H := C.chosen (k := k) S₁ g₁ (Nat.zero_le _) hfull
      (by rw [← C.flat (Nat.zero_le _)]; exact ho₁)
      (by rw [← C.flat (Nat.zero_le _), hflat]; exact habs)
      (fun a ha => absurd ha (hnil a)) (fun a ha => absurd ha (hnil a))
      (SplitSafe.congr (show (s.grown nr).rest = s.rest from rfl) hsafe.2.2) hR hL
    have hsafe₁ : SplitSafe s₁ k (T₁.kid (slotOf s₁ T₁.top k)) (Lasting T₁.top (slotOf s₁ T₁.top k)) := by
      rw [F.slotOf, F.slot_unique S.keyed H.fits H.pre H.post]
      have h1 := H.safe
      have h2 := H.size
      obtain ⟨y, ny, ky, hy⟩ := exists_node (T₁.kid c)
      rw [hy] at h1 h2 ⊢
      rw [SplitSafe, Bt.getn, S₂.t, if_neg (by rw [Sub.size_node] at h2; omega)]
      exact h1
    obtain ⟨s', T', hrun, W', hput, hkit, hnum, hgl⟩ :=
      insert_end W₁ S₂ (by omega) ho₁ (hflat ▸ habs) hok hsafe₁ s.next
    refine ⟨s', d + 1, T', ?_, W', hflat ▸ hput, hkit.trans ?_, hnum.trans ?_, hgl.trans C.quiet⟩
    · rw [if_pos hfull]
      have h := grow_run (s := s) nr (fun x => do
        btreesplitchild x 0 r r 0
        let b ← get
        btInsertnonfull k 0 b.next x x 0
        modify (fun b : Bt α => { b with numkeys := b.numkeys + 1 }))
      rw [hroot] at h
      refine h.trans ?_
      rw [run_bind hcut]
      rw [show T₁.addr = s.next from C.top] at hrun
      exact hrun
    · exact congrArg (fun r => (r.1, r.2.2)) e₁
    · exact congrArg (· + 1) (congrArg (fun r => r.2.1) e₁)
  · rw [if_neg hfull] at hsafe
    have hfill := g.node.fill
    obtain ⟨s', T', hrun, h⟩ := insert_end W S (show nr.n < 2 * V.t - 1 by omega) ho habs hok hsafe r
    exact ⟨s', d, T', by rw [if_neg hfull]; exact hrun, h⟩

end Root

end Insert

end AlchemyDB
