/-
# `AlchemyDB.BTree.Deletion` — what `bt_delete` does

`deletekey` goes down to the key and takes it out of a leaf, or replaces it by a
neighbour taken from below.  `Erased` says what is left: of the keys one equal to
`k` is gone, unless it had a DR and has become a ghost; every other entry is what
it was.  Slots that are neither 4 or 8 bytes wide nor saved to `BT_DelBuf` are the
exception: case 2b then copies the entry AFTER the one it has taken.
-/
import AlchemyDB.BTree.Order
import AlchemyDB.BTree.Removal
import AlchemyDB.BTree.Insertion

namespace AlchemyDB

open Store Weave

variable {α β κ : Type} [LinearOrder κ] {d : Nat}

/-! ## The keys that are left -/

/-- One key equal to `kk` is gone; if `slip`, the key behind it may have been replaced by
the next one. -/
inductive KeyGone (slip : Prop) (kk : κ) : List κ → List κ → Prop
  | gone (A B : List κ) : KeyGone slip kk (A ++ kk :: B) (A ++ B)
  | slip (A B : List κ) (a b : κ) (h : slip) :
      KeyGone slip kk (A ++ kk :: a :: b :: B) (A ++ b :: b :: B)

omit [LinearOrder κ] in
theorem KeyGone.wrap {slip : Prop} {kk : κ} {l l' : List κ} (h : KeyGone slip kk l l')
    (L R : List κ) : KeyGone slip kk (L ++ (l ++ R)) (L ++ (l' ++ R)) := by
  cases h with
  | gone A B =>
      have h : KeyGone slip kk _ _ := KeyGone.gone (L ++ A) (B ++ R)
      simpa using h
  | slip A B a b h =>
      have h' : KeyGone slip kk _ _ := KeyGone.slip (L ++ A) (B ++ R) a b h
      simpa using h'

omit [LinearOrder κ] in
theorem KeyGone.mono {slip slip' : Prop} {kk : κ} {l l' : List κ} (h : KeyGone slip kk l l')
    (hs : slip → slip') : KeyGone slip' kk l l' := by
  cases h with
  | gone A B => exact .gone A B
  | slip A B a b h => exact .slip A B a b (hs h)

/-- The keys that are left do not decrease, and are keys that were there. -/
theorem KeyGone.ordered {slip : Prop} {kk : κ} {l l' : List κ} (h : KeyGone slip kk l l')
    (ho : l.Pairwise (· ≤ ·)) : l'.Pairwise (· ≤ ·) := by
  cases h with
  | gone A B => exact ho.sublist (by simp)
  | slip A B a b h =>
      have h1 : (A ++ b :: B).Pairwise (· ≤ ·) := ho.sublist (by simp)
      rw [List.pairwise_append] at h1 ⊢
      refine ⟨h1.1, List.pairwise_cons.2 ⟨fun c hc => ?_, h1.2.1⟩, fun x hx c hc => ?_⟩
      · rcases List.mem_cons.1 hc with rfl | hc
        · exact le_rfl
        · exact List.rel_of_pairwise_cons h1.2.1 hc
      · rcases List.mem_cons.1 hc with rfl | hc
        · exact h1.2.2 x hx c List.mem_cons_self
        · exact h1.2.2 x hx c hc

omit [LinearOrder κ] in
theorem KeyGone.length {slip : Prop} {kk : κ} {l l' : List κ} (h : KeyGone slip kk l l') :
    l.length = l'.length + 1 := by
  cases h with
  | gone A B =>
      simp
      omega
  | slip A B a b h =>
      simp
      omega

/-! ## What a delete leaves of a subtree -/

/-- Slots whose pointer denotes what is in the slot when it is read. -/
def Bts.loose (b : Bts) : Prop := (b.narrow || b.bigBt) = false

/-- If an inner node has the key, the kids around it satisfy `Φ`. -/
def AtHit (s : Bt α) (k : α) (Φ : (d : Nat) → Sub α (d + 1) → Sub α (d + 1) → Prop) :
    {d : Nat} → Sub α (d + 1) → Prop
  | 0, _ => True
  | d + 1, T =>
    if (findkindex s T.top k).2 = 0 then
      Φ d (T.kid (slotOf s T.top k - 1)) (T.kid (slotOf s T.top k))
    else AtHit s k Φ (T.kid (slotOf s T.top k))

/-- No inner node has the key. -/
def InLeaf (s : Bt α) (k : α) (T : Sub α (d + 1)) : Prop := AtHit s k (fun _ _ _ => False) T

/-- The keys increase. -/
def Strict (K : β → κ) (l : List β) : Prop := l.Pairwise (fun a b => K a < K b)

/-- The entries with other keys. -/
def besides (K : β → κ) (kk : κ) (l : List β) : List β := l.filter (fun b => K b ≠ kk)

theorem besides_append {K : β → κ} {kk : κ} (l r : List β) :
    besides K kk (l ++ r) = besides K kk l ++ besides K kk r := List.filter_append _ _

theorem besides_cons_hit {K : β → κ} {kk : κ} {b : β} (h : K b = kk) (l : List β) :
    besides K kk (b :: l) = besides K kk l := by
  simp [besides, h]

/-- One entry less in a list. -/
theorem one_less {K : β → κ} {kk : κ} {l l' A B : List β} {b : β} (h : l = A ++ b :: B)
    (h' : l' = A ++ B) (hk : K b = kk) (slip : Prop) (w : β → Int) :
    KeyGone slip kk (l.map K) (l'.map K) ∧ besides K kk l' = besides K kk l ∧
      (l.map w).sum = (l'.map w).sum + w b := by
  subst h h'
  refine ⟨?_, ?_, ?_⟩
  · rw [List.map_append, List.map_cons, hk, List.map_append]
    exact KeyGone.gone _ _
  · rw [besides_append, besides_append, besides_cons_hit hk]
  · simp only [List.map_append, List.map_cons, List.sum_append, List.sum_cons]
    omega

/-- Case 2b may copy the wrong entry: it takes from a kid with `t` keys, next to one with `t - 1`. -/
def Slips (V : View α β) (K : β → κ) (s : Bt α) (k : α) (T : Sub α (d + 1)) : Prop :=
  s.s.loose ∧ ¬ (Strict K (T.flat V) ∧ InLeaf s k T) ∧ 2 * V.t ≤ (T.flat V).length

/-- What a delete does to a subtree. -/
structure Erased (V : View α β) (key : α → κ) (K : β → κ) (s s' : Bt α) (T T' : Sub α (d + 1))
    (p pi : Nat) (k : α) (dwd : Dwd α) : Prop where
  out : Out V 0 s s' T T' p pi
  left : s'.dirtyLeft = s.dirtyLeft
  ptr : ∀ c, s.case2cPtr = some c → s'.case2cPtr = some c
  loss : T.size ≤ T'.size + 1
  weight : V.counts → T.weight V = T'.weight V + 1
  keys : KeyGone (Slips V K s k T) (key k) ((T.flat V).map K) ((T'.flat V).map K) ∨
    ((T'.flat V).map K = (T.flat V).map K ∧ ∃ e v, key e = key k ∧ v ≠ 0 ∧ V.ok (V.see e v))
  others : ¬ Slips V K s k T → besides K (key k) (T'.flat V) = besides K (key k) (T.flat V)
  back : s.s.narrow = true → s.case2cPtr = none → ∃ e v, V.see e v ∈ T.flat V ∧ key e = key k ∧
    s'.case2cPtr.getD dwd.k = .val e
  leaf : V.counts → Strict K (T.flat V) → InLeaf s k T → s'.case2cPtr = s.case2cPtr ∧
    ∃ e v, V.see e v ∈ T.flat V ∧ key e = key k ∧
      (¬ s.s.loose ∨ (∀ b ∈ T.flat V, K b ≤ key k) → s'.deref dwd.k = some e)
  slot : Strict K (T.flat V) → InLeaf s k T → ∀ b j, dwd.k = .slot b j →
    b ∈ T'.addrs ∧ (d ≠ 0 → b ≠ T'.addr)

/-- A ghost has the key of the entry it stands for, and is as visible. -/
structure GhostOk [RowStream α] (V : View α β) (key : α → κ) : Prop where
  key : ∀ e v, V.fits v → v ≠ 0 → key (RowStream.ghost e) = key e
  ok : ∀ e v, V.ok (V.see e v) → V.ok (V.see (RowStream.ghost e) v)

section Case1

variable [RowStream α] {V : View α β} {s : Bt α} {x i : Nat} {nd : BtN α}

/-- Case 1 for a key without a DR. -/
theorem deleteCase1_gone (h : s.heap x = some nd) (ht : s.t = V.t) (hs : s.s.sane) (hP : V.P nd)
    (hok : ∀ j < nd.n, V.ok (V.entry nd j)) (hi : i < nd.n) (h0 : nd.dr i = 0) (p pi : Nat)
    (plist : PList) :
    ∃ nd', deleteCase1 x i .none false p pi plist s = some (⟨s.handed x i (nd.keys i), 0⟩,
        (s.withBuf (s.bufAfter (nd.keys i))).setHeap x (some nd')) ∧ Dropped V nd nd' i := by
  have hk := KEYS_run h i
  have hd := getDR_run h i
  have hc := createReturnDeletedKey_run h hs i (nd.dr i)
  rw [h0] at hd hc
  obtain ⟨nd', hdrop, D⟩ := dropKey_run (V := V) (s := s.withBuf (s.bufAfter (nd.keys i))) (x := x) h
    ht hP hok hi false p pi
  refine ⟨nd', ?_, D⟩
  simp only [deleteCase1, run_bind (run_get s), run_bind hk, run_bind hd, run_bind hc,
    Bool.false_eq_true, if_false, if_true, ne_eq, not_true, pure_bind, run_bind hdrop]
  rfl

/-- `replaceKeyWithGhost` on a key that has a DR stays in place. -/
theorem replaceKeyWithGhost_run (h : s.heap x = some nd) {kp : KData α} {e : α}
    (hk : s.deref kp = some e) (h0 : nd.dr i ≠ 0) (p pi : Nat) :
    replaceKeyWithGhost x i kp (nd.dr i) p pi s = some (x, s.setHeap x
      (some ((nd.owDR s.t i (nd.dr i)).setKey i (RowStream.ghost e)))) := by
  have how := overwriteDR_run h (i := i) (v := nd.dr i) (fun _ => BtN.dirty_of_dr h0) p pi
  have h₁ : (s.setHeap x (some (nd.owDR s.t i (nd.dr i)))).heap x =
      some (nd.owDR s.t i (nd.dr i)) := upd_same _ _ _
  have hraw : setBTKeyRaw x i (.val (RowStream.ghost e)) _ = _ :=
    setBTKeyRaw_run h₁ (k := RowStream.ghost e) rfl
  simp only [replaceKeyWithGhost, run_bind (run_get s), hk, run_bind how, run_bind hraw]
  rw [Bt.setHeap_setHeap]
  rfl

/-- Case 1 for a key with a DR. -/
theorem deleteCase1_ghost (h : s.heap x = some nd) (hs : s.s.sane) (hin : s.s.inode = false)
    (h0 : nd.dr i ≠ 0) (p pi : Nat) (plist : PList) :
    deleteCase1 x i .none false p pi plist s = some (⟨s.handed x i (nd.keys i), nd.dr i⟩,
      (s.withBuf (s.bufAfter (nd.keys i))).setHeap x
        (some ((nd.owDR s.t i (nd.dr i)).setKey i (RowStream.ghost (nd.keys i))))) := by
  have hk := KEYS_run h i
  have hd := getDR_run h i
  have hc := createReturnDeletedKey_run h hs i (nd.dr i)
  have hg : replaceKeyWithGhost x i (if s.s.narrow then .val (nd.keys i) else .slot x i) (nd.dr i) p pi
      (s.withBuf (s.bufAfter (nd.keys i))) = _ :=
    replaceKeyWithGhost_run (s := s.withBuf (s.bufAfter (nd.keys i))) (x := x) h
      (deref_KEYS (s := s.withBuf (s.bufAfter (nd.keys i))) h i) h0 p pi
  simp only [deleteCase1, run_bind (run_get s), run_bind hk, run_bind hd, run_bind hc,
    Bool.false_eq_true, if_false, if_true, ne_eq, h0, not_false_eq_true, hin, pure_bind,
    run_bind hg]
  rfl

omit [LinearOrder κ] in
/-- The contents of a node whose key `i` has become a ghost. -/
theorem retop_ghost {key : α → κ} (G : GhostOk V key) (hP : V.P nd)
    (hok : ∀ j < nd.n, V.ok (V.entry nd j)) (hi : i < nd.n) :
    Retop V nd ((nd.owDR V.t i (nd.dr i)).setKey i (RowStream.ghost (nd.keys i))) ∧
    V.entry ((nd.owDR V.t i (nd.dr i)).setKey i (RowStream.ghost (nd.keys i))) i =
      V.see (RowStream.ghost (nd.keys i)) (nd.dr i) ∧
    ∀ j < nd.n, j ≠ i → V.entry ((nd.owDR V.t i (nd.dr i)).setKey i (RowStream.ghost (nd.keys i))) j =
      V.entry nd j := by
  have hv := V.fits_dr i hP
  have hat : V.entry ((nd.owDR V.t i (nd.dr i)).setKey i (RowStream.ghost (nd.keys i))) i =
      V.see (RowStream.ghost (nd.keys i)) (nd.dr i) := by
    rw [View.entry_setKey_at, View.see_ow_at _ hP hv]
  have hne : ∀ j < nd.n, j ≠ i → V.entry ((nd.owDR V.t i (nd.dr i)).setKey i
      (RowStream.ghost (nd.keys i))) j = V.entry nd j := by
    intro j hj hji
    rw [View.entry_setKey_ne _ hji, View.entry, BtN.owDR_keys, View.see_ow_ne _ hP hv hji (hok j hj)]
    rfl
  refine ⟨⟨by simp, by simp, by simp, View.P_setKey _ _ (View.P_ow hP hv), fun j hj => ?_⟩, hat, hne⟩
  by_cases hji : j = i
  · rw [hji, hat]
    exact G.ok _ _ (hok i hi)
  · rw [hne j hj hji]
    exact hok j hj

end Case1

/-- A node whose key `i` has been replaced by one that compares the same. -/
theorem same_keys {V : View α β} {K : β → κ} {x a i : Nat} {nd nd' : BtN α} {kid : Nat → Sub α d}
    {kk : κ} (hi : i < nd.n) (hn : nd'.n = nd.n)
    (h : ∀ j < nd.n, j ≠ i → V.entry nd' j = V.entry nd j) (hk : K (V.entry nd i) = kk)
    (hk' : K (V.entry nd' i) = kk) :
    ((Sub.node a nd' kid).flat V).map K = ((Sub.node x nd kid).flat V).map K ∧
    besides K kk ((Sub.node a nd' kid).flat V) = besides K kk ((Sub.node x nd kid).flat V) := by
  rw [flat_retop (x := x) hi hn h, flat_at (x := x) hi]
  constructor
  · simp only [List.map_append, List.map_cons, hk, hk']
  · simp only [besides_append, besides_cons_hit hk, besides_cons_hit hk']

section Leaf

variable [RowStream α] {V : View α β} {key : α → κ} {K : β → κ} {s : Bt α} {p pi : Nat} {k : α}

omit [RowStream α] in
theorem hit_leaf {T : Sub α 1} (S : Setting V key K s) (g : Good V s.heap T)
    (ho : Ordered K (T.flat V)) (hmem : ∃ b ∈ T.flat V, K b = key k) :
    ∃ i, i < T.size ∧ (findkindex s T.top k).1 = (i : Int) ∧ slotOf s T.top k = i + 1 ∧
      key (T.top.keys i) = key k ∧ ∀ j, i < j → j < T.size → key k < key (T.top.keys j) := by
  obtain ⟨m, hm, F⟩ := g.found S.cmp S.log S.t S.keyed ho k
  have hr : (findkindex s T.top k).2 = 0 := by
    by_contra hr
    obtain ⟨b, hb, he⟩ := hmem
    have := F.mem_kid S.keyed ho hr hb he
    simp [Sub.flat_nil] at this
  obtain ⟨h0, he⟩ := F.hit.1 hr
  obtain ⟨i, rfl⟩ : ∃ i, m = i + 1 := ⟨m - 1, by omega⟩
  refine ⟨i, by omega, ?_, F.slotOf, he, fun j hj hn => F.above j (by omega) (T.size_top ▸ hn)⟩
  rw [F.slot]
  omega

theorem delete_leaf {T : Sub α 1} (S : Setting V key K s) (G : GhostOk V key)
    (g : Good V s.heap T) (L : Link s T.addrs T.addr p pi) (hs : s.s.sane)
    (ho : Ordered K (T.flat V)) (hmem : ∃ b ∈ T.flat V, K b = key k)
    (hclear : Clear V k false .none s T p pi) (fuel : Nat) (plist : PList) :
    ∃ dwd s' T', deletekey k .none false (fuel + 1) T.addr p pi plist s = some (dwd, s') ∧
      Erased V key K s s' T T' p pi k dwd := by
  obtain ⟨i, hi, hpos, hslot, hkey, habove⟩ := hit_leaf S g ho hmem
  rw [deletekey_leaf (k := k) g (by simpa [deletePos] using hpos)]
  have hcl : V.counts ∨ s.s.inode = true → T.top.dr i = 0 := fun h => by
    have := hclear rfl rfl h
    rwa [show wayOf s T.top k .none = i + 1 from hslot, Nat.add_sub_cancel] at this
  obtain ⟨x, nd, kid, rfl⟩ := exists_node T
  have hin : i < nd.n := hi
  have ht := S.t
  have hkK : K (V.entry nd i) = key k := by rw [S.keyed.entry]; exact hkey
  have hpaid : (s.paid false (Sub.node x nd kid)).heap x = some (nd.addSc (-1)) := upd_same _ _ _
  have hbuf : ∀ b nd', ((s.paid false (Sub.node x nd kid)).withBuf b).setHeap x (some nd') =
      (s.setHeap x (some nd')).withBuf b := fun b nd' => by
    simp [Bt.paid, Bt.withBuf, Bt.setHeap]
  have hmemE : V.see (nd.keys i) (nd.dr i) ∈ (Sub.node x nd kid).flat V := by
    rw [flat_leaf]
    exact List.mem_map.2 ⟨i, List.mem_range.2 hin, rfl⟩
  have hslotx : ∀ (e : α) (nd' : BtN α) (b j : Nat), s.handed x i e = .slot b j →
      b ∈ (Sub.node x nd' kid).addrs ∧ (0 ≠ 0 → b ≠ x) := by
    intro e nd' b j h
    unfold Bt.handed at h
    split_ifs at h
    cases h
    exact ⟨Or.inl rfl, fun h => absurd rfl h⟩
  by_cases h0 : nd.dr i = 0
  · -- the key leaves the leaf
    obtain ⟨nd', hrun, D⟩ := deleteCase1_gone hpaid ht hs (View.P_addSc _ g.node.disc)
      g.node.seen hin h0 p pi plist
    obtain ⟨A, B, hA, hB, -, -⟩ := D.flat hin x kid
    change (Sub.node x nd kid).flat V = A ++ V.entry nd i :: B at hA
    have hw : V.counts → (Sub.node x nd kid).weight V = (Sub.node x nd' kid).weight V + 1 := by
      intro hc
      have h1 : V.wt (V.entry nd i) = 1 := by rw [View.entry, V.wt_see hc, h0]; rfl
      simp only [Sub.weight, hA, hB, sum_wt_append, List.map_cons, List.sum_cons, h1]
      omega
    have hout : Out V 0 s (s.setHeap x (some nd')) (Sub.node x nd kid) (Sub.node x nd' kid) p pi := by
      have hfill := g.node.fill
      refine leaf_out g L D.leaf ?_ D.disc (D.seen g.node.seen) (fun hc => ?_)
      · rw [D.num]
        show nd.n - 1 ≤ _
        omega
      · have h1 := hw hc
        have h2 := g.sci hc
        have h3 : nd'.scion = nd.scion + -1 := D.scion
        omega
    refine ⟨_, _, Sub.node x nd' kid, hrun, ?_, rfl, fun c h => h, ?_, hw, Or.inl ?_, fun _ => ?_,
      fun hn h2c => ⟨nd.keys i, nd.dr i, hmemE, hkey, ?_⟩, fun _ _ _ => ⟨rfl, nd.keys i, nd.dr i, hmemE,
        hkey, fun hend => ?_⟩, fun _ _ => hslotx _ _⟩
    · rw [hbuf]
      exact hout.withBuf _
    · rw [Sub.size_node, Sub.size_node, D.num]
      show nd.n ≤ nd.n - 1 + 1
      omega
    · rw [hA, hB, List.map_append, List.map_cons, hkK, List.map_append]
      exact KeyGone.gone _ _
    · rw [hA, hB, besides_append, besides_append, besides_cons_hit hkK]
    · show s.case2cPtr.getD _ = _
      rw [h2c]
      exact if_pos hn
    · have hheld := (D.held (s := s.paid false (Sub.node x nd kid)) (x := x)
        (R := (Sub.node x nd' kid).addrs) (Or.inl rfl)).den
      refine hheld.trans (congrArg some ?_)
      show nd.keys (if (s.s.narrow || s.s.bigBt) = false ∧ i + 1 < nd.n then i + 1 else i) = nd.keys i
      rw [if_neg]
      rintro ⟨h1, h2⟩
      rcases hend with h | h
      · exact h h1
      · have h3 := habove (i + 1) (by omega) h2
        have h4 := h (V.entry nd (i + 1)) (by
          rw [flat_leaf]
          exact List.mem_map.2 ⟨i + 1, List.mem_range.2 h2, rfl⟩)
        rw [S.keyed.entry] at h4
        exact absurd h4 (not_le.2 h3)
  · -- it becomes a ghost
    have hnc : ¬ V.counts := fun h => h0 (hcl (Or.inl h))
    have hni : s.s.inode = false := Bool.eq_false_iff.2 (fun h => h0 (hcl (Or.inr h)))
    have hrun := deleteCase1_ghost (s := s.paid false (Sub.node x nd kid)) hpaid hs hni h0
      p pi plist
    obtain ⟨R, hat, hne⟩ := retop_ghost (i := i) G (View.P_addSc (-1) g.node.disc) g.node.seen hin
    rw [show (s.paid false (Sub.node x nd kid)).t = V.t from ht] at hrun
    generalize hnd' : ((nd.addSc (-1)).owDR V.t i ((nd.addSc (-1)).dr i)).setKey i
      (RowStream.ghost ((nd.addSc (-1)).keys i)) = nd' at R hat hne hrun
    have hg : K (V.entry nd' i) = key k := by
      rw [hat, S.keyed.see, G.key _ _ (V.fits_dr i g.node.disc) h0]
      exact hkey
    have hsame : ((Sub.node x nd' kid).flat V).map K = ((Sub.node x nd kid).flat V).map K ∧
        besides K (key k) ((Sub.node x nd' kid).flat V) =
          besides K (key k) ((Sub.node x nd kid).flat V) := same_keys hin R.num hne hkK hg
    obtain ⟨hmap, hbes⟩ := hsame
    refine ⟨_, _, Sub.node x nd' kid, hrun, ?_, rfl, fun c h => h, ?_, fun h => absurd h hnc,
      Or.inr ⟨hmap, nd.keys i, nd.dr i, hkey, h0, g.node.seen i hin⟩, fun _ => hbes,
      fun hn h2c => ⟨nd.keys i, nd.dr i, hmemE, hkey, ?_⟩, fun h => absurd h hnc,
      fun _ _ => hslotx _ _⟩
    · rw [hbuf]
      refine (leaf_out g L R.leaf ?_ R.disc (fun j hj => R.seen j ?_) (fun h => absurd h hnc)).withBuf _
      · rw [R.num]
        exact g.node.fill
      · rw [R.num] at hj
        exact hj
    · rw [Sub.size_node, Sub.size_node, R.num]
      exact Nat.le_succ _
    · show s.case2cPtr.getD _ = _
      rw [h2c]
      exact if_pos hn

end Leaf

/-! ## A key found in an inner node -/

section Hit

variable [RowStream α] {V : View α β} {key : α → κ} {K : β → κ} {s : Bt α} {p pi i : Nat} {k : α}

/-- `deletekey` in an inner node that has the key. -/
theorem deletekey_hit {x : Nat} {nd : BtN α} {kid : Nat → Sub α (d + 1)}
    (g : Good V s.heap (Sub.node x nd kid)) (hin : i < nd.n) {dk : DK}
    (hpos : deletePos s nd k dk = ((i : Int), 0)) (drt : Bool) (fuel : Nat) (plist : PList) :
    deletekey k dk drt (fuel + 1) x p pi plist s = (
      if drt = false ∧ nd.dr i ≠ 0 then ghostCase2 x i (s.keyPtr x nd i) (nd.dr i) p pi
      else if (kid i).size ≥ s.t then do
        let dwd ← deletekey k .a2 drt fuel (kid i).addr x i (addBP plist x i)
        endCase2a x i (s.keyPtr x nd i) dwd drt p pi
      else if (kid (i + 1)).size ≥ s.t then do
        let dwd ← deletekey k .b2 drt fuel (kid (i + 1)).addr x (i + 1) (addBP plist x (i + 1))
        endCase2b x i (s.keyPtr x nd i) dwd drt p pi
      else if (kid i).size = s.t - 1 ∧ (kid (i + 1)).size = s.t - 1 then do
        markCase2c (s.keyPtr x nd i)
        let (x, y) ← mergeCase2c x i k drt p pi
        deletekey k dk drt fuel y x i (addBP plist x i)
      else failure : BtM α (Dwd α)) (s.paid drt (Sub.node x nd kid)) := by
  have henter := payScion_run g drt
  have hl := g.inner
  have hx : (s.paid drt (Sub.node x nd kid)).heap x = some (Sub.paid drt (Sub.node x nd kid)).top :=
    upd_same _ _ _
  have hxl : (Sub.paid drt (Sub.node x nd kid)).top.leaf = false := by cases drt <;> exact hl
  have hxn : ∀ j ≤ nd.n, (Sub.paid drt (Sub.node x nd kid)).top.nodes j = (kid j).addr := by
    intro j hj
    have := g.node.link (by omega) j hj
    cases drt <;> exact this
  have hkid : ∀ j ≤ nd.n, ∃ nk, (s.paid drt (Sub.node x nd kid)).heap (kid j).addr = some nk ∧
      nk.n = (kid j).size := by
    intro j hj
    have hne : (kid j).addr ≠ x := fun e => g.node.apart j hj (e ▸ Sub.addr_mem _)
    obtain ⟨y, ny, ky, hy⟩ := exists_node (kid j)
    rw [hy] at hne ⊢
    exact ⟨ny, (upd_ne _ _ hne).trans (hy ▸ g.kids j hj).node.live, rfl⟩
  obtain ⟨ny, hy, hyn⟩ := hkid i (by omega)
  obtain ⟨nz, hz, hzn⟩ := hkid (i + 1) (by omega)
  have hkeys : KEYS x i (s.paid drt (Sub.node x nd kid)) =
      some (s.keyPtr x nd i, s.paid drt (Sub.node x nd kid)) := by
    rw [KEYS_run hx, Sub.paid_keys]
    rfl
  have hc : (drt = false ∧ nd.dr i ≠ 0) ↔ (!drt && decide (nd.dr i ≠ 0)) = true := by simp
  rw [if_congr hc rfl rfl]
  rw [Sub.addr_node] at henter
  simp only [deletekey, run_bind (run_get s), run_bind (getN_run g.node.live), run_bind henter, hl,
    Bool.false_eq_true, if_false, hpos, Int.toNat_natCast, if_true, run_bind hkeys]
  by_cases h1 : (!drt && decide (nd.dr i ≠ 0)) = true
  · rw [if_pos h1, if_pos h1]
  rw [if_neg h1, if_neg h1]
  simp only [run_bind (getNode_run hx hxl i), hxn i (by omega), run_bind (getN_run hy), hyn]
  by_cases h2 : (kid i).size ≥ s.t
  · rw [if_pos h2, if_pos h2]
  rw [if_neg h2, if_neg h2]
  simp only [run_bind (getNode_run hx hxl (i + 1)), hxn (i + 1) (by omega), run_bind (getN_run hz),
    hzn]

/-- A node whose key `i` has become `e`, with DR `v`. -/
structure Swapped (V : View α β) (nd nd' : BtN α) (i : Nat) (e : α) (v : Nat) : Prop where
  top : Retop V nd nd'
  scion : nd'.scion = nd.scion
  here : V.entry nd' i = V.see e v
  off : ∀ j < nd.n, j ≠ i → V.entry nd' j = V.entry nd j

section Swap

variable {x a c v : Nat} {nd nd' : BtN α} {kid : Nat → Sub α (d + 1)} {owe : Int} {s' : Bt α} {e : α}
  {kp : KData α}

omit [RowStream α] in
/-- The key is written after its DR. -/
theorem swap_run (F : Solo s s' x a nd' p pi) (g : Owing V s.heap owe (Sub.node x nd kid))
    (L : Link s (Sub.node x nd kid).addrs x p pi) (hc : c ≤ nd.n) (H : Held s (kid c).addrs kp e)
    (hR : BtN.Redirt nd nd') (hP : V.P nd') (hat : V.see e (nd'.dr i) = V.see e v)
    (hne : ∀ j < nd.n, j ≠ i → V.see (nd.keys j) (nd'.dr j) = V.entry nd j)
    (hok : V.ok (V.see e v)) :
    ∃ s'', setBTKeyRaw a i kp s' = some ((), s'') ∧ Solo s s'' x a (nd'.setKey i e) p pi ∧
      Swapped V nd (nd'.setKey i e) i e v := by
  have hden : s'.deref kp = some e := by
    have H' : Held s' (kid c).addrs kp e := by
      refine H.later ?_ (Set.Subset.refl _) ?_
      · exact congrArg (fun r => r.2.2) F.quiet
      · intro b hb nb hnb
        exact ⟨nb, (F.kids g L c hc b hb).trans hnb, rfl⟩
    exact H'.den
  have hhere : V.entry (nd'.setKey i e) i = V.see e v := by
    rw [View.entry_setKey_at, hat]
  have hoff : ∀ j < nd.n, j ≠ i → V.entry (nd'.setKey i e) j = V.entry nd j := by
    intro j hj hji
    rw [View.entry_setKey_ne _ hji, View.entry, hR.keys, hne j hj hji]
  refine ⟨_, setBTKeyRaw_run (F.live ()) hden, F.put _, ⟨hR.n, hR.leaf, hR.nodes,
    View.P_setKey _ _ hP, fun j hj => ?_⟩, hR.scion, hhere, hoff⟩
  by_cases hji : j = i
  · rw [hji, hhere]
    exact hok
  · rw [hoff j hj hji]
    exact g.node.seen j hj

omit [RowStream α] in
/-- The end of case 2a in a delete. -/
theorem endCase2a_run (g : Owing V s.heap owe (Sub.node x nd kid))
    (L : Link s (Sub.node x nd kid).addrs x p pi) (ht : s.t = V.t) (hc : c ≤ nd.n)
    {dwd : Dwd α} (H : Held s (kid c).addrs dwd.k e) (hv : V.fits dwd.dr) (h0 : nd.dr i = 0)
    (hok : V.ok (V.see e dwd.dr)) (r : KData α) :
    ∃ a s' nd', endCase2a x i r dwd false p pi s = some (⟨r, dwd.dr⟩, s') ∧
      Solo s s' x a nd' p pi ∧ Swapped V nd nd' i e dwd.dr := by
  have hP := g.node.disc
  obtain ⟨a, s₁, hset, F⟩ := Solo.setDR (solo_start g.node.live L (Or.inl rfl)) i dwd.dr
  rw [ht] at F
  obtain ⟨s₂, hraw, F₂, W⟩ := swap_run (v := dwd.dr) F g L hc H (BtN.redirt_stDR _ _ _ _)
    (V.set i hP hv) (by
      by_cases hz : dwd.dr = 0
      · rw [BtN.stDR, if_pos hz, h0, hz]
      · rw [V.see_set_at _ _ hP hv hz])
    (fun j hj hji => V.see_set_ne _ hP hv hji (g.node.seen j hj)) hok
  refine ⟨a, s₂, _, ?_, F₂, W⟩
  simp only [endCase2a, Bool.false_eq_true, if_false, run_bind hset, run_bind hraw]
  rfl

omit [RowStream α] in
/-- The end of case 2b in a delete. -/
theorem endCase2b_run (g : Owing V s.heap owe (Sub.node x nd kid))
    (L : Link s (Sub.node x nd kid).addrs x p pi) (ht : s.t = V.t) (hc : c ≤ nd.n)
    {dwd : Dwd α} (H : Held s (kid c).addrs dwd.k e) (hv : V.fits dwd.dr)
    (hok : V.ok (V.see e dwd.dr)) (r : KData α) :
    ∃ a s' nd', endCase2b x i r dwd false p pi s = some (⟨r, dwd.dr⟩, s') ∧
      Solo s s' x a nd' p pi ∧ Swapped V nd nd' i e dwd.dr := by
  have hP := g.node.disc
  obtain ⟨a, s₁, hset, F⟩ := Solo.overwriteDR (solo_start g.node.live L (Or.inl rfl)) i dwd.dr
  rw [ht] at F
  obtain ⟨s₂, hraw, F₂, W⟩ := swap_run (v := dwd.dr) F g L hc H (BtN.redirt_owDR _ _ _ _)
    (View.P_ow hP hv) (View.see_ow_at _ hP hv)
    (fun j hj hji => View.see_ow_ne _ hP hv hji (g.node.seen j hj)) hok
  refine ⟨a, s₂, _, ?_, F₂, W⟩
  simp only [endCase2b, incrBefore, Bool.false_eq_true, if_false, pure_bind, run_bind hset,
    run_bind hraw]
  rfl

end Swap

omit [RowStream α] in
/-- The lists of a node from which one entry is gone. -/
theorem Erased.of_lists {x : Nat} {nd : BtN α} {kid : Nat → Sub α (d + 1)} {T' : Sub α (d + 2)}
    {s' : Bt α} {v : Nat}
    (out : Out V 0 s s' (Sub.node x nd kid) T' p pi) (left : s'.dirtyLeft = s.dirtyLeft)
    (ptr : s'.case2cPtr = s.case2cPtr) (loss : nd.n ≤ T'.size + 1)
    (hin : i < nd.n) (hr : (findkindex s nd k).2 = 0) (hkey : key (nd.keys i) = key k)
    (hkeys : KeyGone (Slips V K s k (Sub.node x nd kid)) (key k) (((Sub.node x nd kid).flat V).map K) ((T'.flat V).map K))
    (hbes : ¬ Slips V K s k (Sub.node x nd kid) →
      besides K (key k) (T'.flat V) = besides K (key k) ((Sub.node x nd kid).flat V))
    (hw : V.counts → (Sub.node x nd kid).weight V = T'.weight V + 1) :
    Erased V key K s s' (Sub.node x nd kid) T' p pi k ⟨s.keyPtr x nd i, v⟩ := by
  refine ⟨out, left, fun c h => ptr.trans h, loss, hw, Or.inl hkeys, hbes, fun hn h2c => ?_,
    fun _ _ h => absurd h (by simp [InLeaf, AtHit, hr]),
    fun _ h => absurd h (by simp [InLeaf, AtHit, hr])⟩
  refine ⟨nd.keys i, nd.dr i, ?_, hkey, ?_⟩
  · rw [flat_at hin]
    simp [View.entry]
  · rw [ptr, h2c]
    exact if_pos hn

section Case2

variable {x : Nat} {nd : BtN α} {kid : Nat → Sub α (d + 1)} {K' : Sub α (d + 1)} {s₂ : Bt α}
  {dwd : Dwd α}

/-- Case 2a. -/
theorem erase_2a (S : Setting V key K s) (g : Good V s.heap (Sub.node x nd kid))
    (L : Link s (Sub.node x nd kid).addrs x p pi) (hin : i < nd.n)
    (hr : (findkindex s nd k).2 = 0) (hkey : key (nd.keys i) = key k) (h0 : nd.dr i = 0)
    (hrich : V.t ≤ (kid i).size)
    (t : Taken V .a2 (s.paid false (Sub.node x nd kid)) s₂ (kid i) K' x i dwd) :
    ∃ dwd' s' T', endCase2a x i (s.keyPtr x nd i) dwd false p pi s₂ = some (dwd', s') ∧
      Erased V key K s s' (Sub.node x nd kid) T' p pi k dwd' := by
  obtain ⟨e, e', hend, hheld, hrep⟩ := t.ends
  obtain rfl : e' = e := by
    rcases hrep with h | ⟨h, _⟩
    · exact h
    · exact absurd h (by simp)
  have hend' : (kid i).flat V = K'.flat V ++ [V.see e' dwd.dr] := hend
  have o := g.paid false L
  have L₁ := o.link L
  have hloss := t.loss
  have hsc : V.counts → -(dwd.dr : Int) + (kid i).weight V = debt false + K'.weight V := by
    intro hc
    have := hend.weight hc
    simp only [debt, Bool.false_eq_true, if_false]
    omega
  obtain ⟨o₂, -⟩ := t.out.lift_same o.good L₁ (Nat.le_of_lt hin) (by omega) hsc
  have L₂ := o₂.link L₁
  have hok : V.ok (V.see e' dwd.dr) :=
    (g.kids i (Nat.le_of_lt hin)).all_ok _ (by rw [hend']; simp)
  have ht₂ : s₂.t = V.t := (rest_t t.out.edit.rest).trans S.t
  obtain ⟨a, s₃, nd₃, hrun, F, W⟩ := endCase2a_run (i := i) o₂.good L₂ ht₂ (Nat.le_of_lt hin)
    (by rw [splice_at]; exact hheld) t.fits h0 hok (s.keyPtr x nd i)
  -- the reading before and after
  have hflat : (Sub.node a nd₃ (splice i 0 0 (fun _ => K') kid)).flat V =
      (Sub.node x nd kid).pre V i ++ (K'.flat V ++ V.see e' dwd.dr ::
        ((kid (i + 1)).flat V ++ (Sub.node x nd kid).post V (i + 1))) := by
    rw [flat_retop (x := x) hin W.top.num W.off, W.here, splice_at, splice_off (by omega),
      splice_pre (x := x) (Nat.le_refl i) (fun m _ => rfl),
      splice_post (x := x) (by omega) rfl (fun m _ _ => rfl)]
  have hT : (Sub.node x nd kid).flat V = ((Sub.node x nd kid).pre V i ++ (K'.flat V ++
      [V.see e' dwd.dr])) ++ V.entry nd i ::
        ((kid (i + 1)).flat V ++ (Sub.node x nd kid).post V (i + 1)) := by
    rw [flat_at hin, hend']
    simp
  have hT' : (Sub.node a nd₃ (splice i 0 0 (fun _ => K') kid)).flat V =
      ((Sub.node x nd kid).pre V i ++ (K'.flat V ++ [V.see e' dwd.dr])) ++
        ((kid (i + 1)).flat V ++ (Sub.node x nd kid).post V (i + 1)) := by
    rw [hflat]
    simp
  have hkK : K (V.entry nd i) = key k := by rw [S.keyed.entry]; exact hkey
  obtain ⟨hgone, hbes, hsum⟩ := one_less hT hT' hkK (Slips V K s k (Sub.node x nd kid)) V.wt
  have hw : V.counts → (Sub.node x nd kid).weight V =
      (Sub.node a nd₃ (splice i 0 0 (fun _ => K') kid)).weight V + 1 := by
    intro hc
    have h1 : V.wt (V.entry nd i) = 1 := by rw [View.entry, V.wt_see hc, h0]; rfl
    rw [h1] at hsum
    exact hsum
  have o₃ : Out V 0 s₂ s₃ _ (Sub.node a nd₃ (splice i 0 0 (fun _ => K') kid)) p pi :=
    F.out o₂.good L₂ W.top (fun hc => by
      have h1 := hw hc
      have h2 := g.sci hc
      have h3 : nd₃.scion = nd.scion + -1 := W.scion
      omega)
  have hq : s₃.globals = s₂.globals := F.quiet
  refine ⟨_, s₃, _, hrun, Erased.of_lists ((o.trans o₂ L).trans o₃ L) ?_ ?_ ?_ hin hr hkey hgone
    (fun _ => hbes) hw⟩
  · exact (congrArg (fun r => r.1) hq).trans t.left
  · exact (congrArg (fun r => r.2.1) hq).trans t.ptr
  · rw [Sub.size_node, W.top.num]
    exact Nat.le_succ _

/-- Case 2b. -/
theorem erase_2b (S : Setting V key K s) (hlo : s.s.loose → ∀ b, V.ok b)
    (g : Good V s.heap (Sub.node x nd kid))
    (L : Link s (Sub.node x nd kid).addrs x p pi) (hin : i < nd.n)
    (hr : (findkindex s nd k).2 = 0) (hkey : key (nd.keys i) = key k) (h0 : nd.dr i = 0)
    (hrich : V.t ≤ (kid (i + 1)).size)
    (t : Taken V .b2 (s.paid false (Sub.node x nd kid)) s₂ (kid (i + 1)) K' x (i + 1) dwd) :
    ∃ dwd' s' T', endCase2b x i (s.keyPtr x nd i) dwd false p pi s₂ = some (dwd', s') ∧
      Erased V key K s s' (Sub.node x nd kid) T' p pi k dwd' := by
  obtain ⟨e, e', hend, hheld, hrep⟩ := t.ends
  have hend' : (kid (i + 1)).flat V = V.see e dwd.dr :: K'.flat V := hend
  have o := g.paid false L
  have L₁ := o.link L
  have hloss := t.loss
  have hsc : V.counts → -(dwd.dr : Int) + (kid (i + 1)).weight V = debt false + K'.weight V := by
    intro hc
    have := hend.weight hc
    simp only [debt, Bool.false_eq_true, if_false]
    omega
  obtain ⟨o₂, -⟩ := t.out.lift_same o.good L₁ hin (by omega) hsc
  have L₂ := o₂.link L₁
  have hok : V.ok (V.see e' dwd.dr) := by
    rcases hrep with rfl | ⟨_, h, _⟩
    · exact (g.kids (i + 1) hin).all_ok _ (by rw [hend']; simp)
    · exact hlo h _
  have ht₂ : s₂.t = V.t := (rest_t t.out.edit.rest).trans S.t
  obtain ⟨a, s₃, nd₃, hrun, F, W⟩ := endCase2b_run (i := i) o₂.good L₂ ht₂ hin
    (by rw [splice_at]; exact hheld) t.fits hok (s.keyPtr x nd i)
  -- the reading before and after
  generalize hA : (Sub.node x nd kid).pre V i ++ (kid i).flat V = A
  generalize hB : (Sub.node x nd kid).post V (i + 1) = B
  have hT : (Sub.node x nd kid).flat V =
      A ++ V.entry nd i :: (V.see e dwd.dr :: (K'.flat V ++ B)) := by
    rw [flat_at hin, hend', ← hA, ← hB]
    simp
  have hT' : (Sub.node a nd₃ (splice (i + 1) 0 0 (fun _ => K') kid)).flat V =
      A ++ V.see e' dwd.dr :: (K'.flat V ++ B) := by
    rw [flat_retop (x := x) hin W.top.num W.off, W.here, splice_at, splice_off (by omega),
      splice_pre (x := x) (by omega) (fun m _ => rfl),
      splice_post (x := x) (Nat.le_refl _) rfl (fun m _ _ => rfl), ← hA, ← hB,
      List.append_assoc]
  have hkK : K (V.entry nd i) = key k := by rw [S.keyed.entry]; exact hkey
  have hw : V.counts → (Sub.node x nd kid).weight V =
      (Sub.node a nd₃ (splice (i + 1) 0 0 (fun _ => K') kid)).weight V + 1 := by
    intro hc
    have h1 : V.wt (V.entry nd i) = 1 := by rw [View.entry, V.wt_see hc, h0]; rfl
    simp only [Sub.weight, hT, hT', List.map_append, List.map_cons, List.sum_append, List.sum_cons,
      V.wt_see hc, h1]
    omega
  have hlen : 2 * V.t ≤ ((Sub.node x nd kid).flat V).length := by
    have h1 := g.node.low (by omega) i hin.le
    have h2 := (kid i).size_le_flat V
    have h3 := (kid (i + 1)).size_le_flat V
    rw [flat_at hin]
    simp only [List.length_append, List.length_cons]
    omega
  have hslips : s.s.loose → Slips V K s k (Sub.node x nd kid) :=
    fun h => ⟨h, fun h' => absurd h'.2 (by simp [InLeaf, AtHit, hr]), hlen⟩
  have hgone : KeyGone (Slips V K s k (Sub.node x nd kid)) (key k) (((Sub.node x nd kid).flat V).map K)
      (((Sub.node a nd₃ (splice (i + 1) 0 0 (fun _ => K') kid)).flat V).map K) := by
    rcases hrep with rfl | ⟨_, hl, v, C, hC⟩
    · exact (one_less hT hT' hkK _ V.wt).1
    · rw [hT, hT', hC]
      simp only [List.map_append, List.map_cons, List.cons_append, hkK, S.keyed.see]
      exact KeyGone.slip _ _ _ _ (hslips hl)
  have hbes : ¬ Slips V K s k (Sub.node x nd kid) →
      besides K (key k) ((Sub.node a nd₃ (splice (i + 1) 0 0 (fun _ => K') kid)).flat V) =
        besides K (key k) ((Sub.node x nd kid).flat V) := by
    intro hl
    obtain rfl : e' = e := by
      rcases hrep with h | ⟨_, h, _⟩
      · exact h
      · exact absurd (hslips h) hl
    exact (one_less hT hT' hkK False V.wt).2.1
  have o₃ : Out V 0 s₂ s₃ _ (Sub.node a nd₃ (splice (i + 1) 0 0 (fun _ => K') kid)) p pi :=
    F.out o₂.good L₂ W.top (fun hc => by
      have h1 := hw hc
      have h2 := g.sci hc
      have h3 : nd₃.scion = nd.scion + -1 := W.scion
      omega)
  have hq : s₃.globals = s₂.globals := F.quiet
  refine ⟨_, s₃, _, hrun, Erased.of_lists ((o.trans o₂ L).trans o₃ L) ?_ ?_ ?_ hin hr hkey hgone
    hbes hw⟩
  · exact (congrArg (fun r => r.1) hq).trans t.left
  · exact (congrArg (fun r => r.2.1) hq).trans t.ptr
  · rw [Sub.size_node, W.top.num]
    exact Nat.le_succ _

end Case2

end Hit

/-! ## Conditions on the place of the key -/

section Place

variable {V : View α β} {key : α → κ} {K : β → κ} {s s₁ : Bt α} {k : α}

theorem Strict.ordered {l : List β} (h : Strict K l) : Ordered K l := h.imp (fun h => le_of_lt h)

theorem Strict.across {l r : List β} (h : Strict K (l ++ r)) {a b : β} (ha : a ∈ l) (hb : b ∈ r) :
    K a < K b := (List.pairwise_append.1 h).2.2 a ha b hb

theorem Sub.entry_mem_above : ∀ (T : Sub α (d + 1)) {i j : Nat}, i ≤ j → j < T.size →
    V.entry T.top j ∈ T.post V i
  | .node a nd kid, i, j, hij, hj => by
      have hj' : j < nd.n := hj
      exact mem_right.2 (Or.inl ⟨j, hij, by omega, rfl⟩)

theorem AtHit.congr {Φ : (d : Nat) → Sub α (d + 1) → Sub α (d + 1) → Prop} (e : s₁.rest = s.rest) :
    ∀ {d : Nat} {T : Sub α (d + 1)}, AtHit s k Φ T → AtHit s₁ k Φ T
  | 0, _, _ => trivial
  | _ + 1, T, h => by
      unfold AtHit at h ⊢
      rw [findkindex_congr e, slotOf_congr e]
      split_ifs at h ⊢ with hr
      · exact h
      · exact AtHit.congr e h

/-- The place of the key in a node that has been extended on both sides. -/
theorem AtHit.within {Φ : (d : Nat) → Sub α (d + 1) → Sub α (d + 1) → Prop} {Y H : Sub α (d + 1)}
    {o : Nat} {owe owe' : Int} (S : Setting V key K s) (e : s₁.rest = s.rest)
    (gY : Owing V s.heap owe Y) (gH : Owing V s₁.heap owe' H)
    (hH : Strict K (H.flat V)) (W : Within V Y H o) (hmem : ∃ b ∈ Y.flat V, K b = key k)
    (h : AtHit s k Φ Y) : AtHit s₁ k Φ H := by
  cases d with
  | zero => trivial
  | succ d =>
      have S₁ := S.congr e
      have hY : Strict K (Y.flat V) := by
        rw [W.flat] at hH
        exact hH.sublist (by simp)
      obtain ⟨m, hm, F⟩ := gY.found S.cmp S.log S.t S.keyed hY.ordered k
      obtain ⟨m', hm', F'⟩ := gH.found S₁.cmp S₁.log S₁.t S₁.keyed hH.ordered k
      obtain ⟨b, hb, hbk⟩ := hmem
      -- what is left of `Y` in `H` is below the key, what is right of it above
      rw [W.flat] at hH
      have hleft : ∀ j < o, key (H.top.keys j) < key k := by
        intro j hj
        rw [← S.keyed.entry (V := V), ← hbk]
        exact hH.across (H.entry_mem_pre hj) (List.mem_append_left _ hb)
      have hright : ∀ j, o + Y.size ≤ j → j < H.size → key k < key (H.top.keys j) := by
        intro j hj hjs
        rw [← S.keyed.entry (V := V), ← hbk]
        have hH₂ : Strict K (Y.flat V ++ H.post V (o + Y.size)) :=
          hH.sublist (List.sublist_append_right _ _)
        exact hH₂.across hb (H.entry_mem_above hj hjs)
      have hH' := H.size_top
      have hlo : o ≤ m' := by
        by_contra hlt
        have h1 := F'.above (o - 1) (by omega) (by have := W.fits; omega)
        exact lt_asymm h1 (hleft _ (by omega))
      have hhi : m' ≤ o + Y.size := by
        by_contra hlt
        have h1 := F'.below (o + Y.size) (by omega)
        exact absurd h1 (not_le.2 (hright _ (Nat.le_refl _) (by omega)))
      have hmm := F.within S.keyed W F' hlo hhi
      have hent : ∀ j < Y.size, key (H.top.keys (o + j)) = key (Y.top.keys j) := by
        intro j hj
        rw [← S.keyed.entry (V := V), W.ent j hj, S.keyed.entry]
      have hhit : (findkindex s₁ H.top k).2 = 0 ↔ (findkindex s Y.top k).2 = 0 := by
        rw [F'.hit, F.hit]
        constructor
        · rintro ⟨h1, h2⟩
          rcases Nat.eq_zero_or_pos m with rfl | hm0
          · exact absurd h2 (ne_of_lt (hleft _ (by omega)))
          · refine ⟨hm0, ?_⟩
            rw [← hent (m - 1) (by omega), ← h2]
            congr 2
            omega
        · rintro ⟨h1, h2⟩
          refine ⟨by omega, ?_⟩
          rw [← h2, ← hent (m - 1) (by omega)]
          congr 2
          omega
      unfold AtHit at h ⊢
      rw [F.slotOf] at h
      rw [F'.slotOf, hmm, W.kid m hm]
      by_cases hr : (findkindex s Y.top k).2 = 0
      · have hm0 := (F.hit.1 hr).1
        rw [if_pos hr] at h
        rw [if_pos (hhit.2 hr), show o + m - 1 = o + (m - 1) by omega, W.kid (m - 1) (by omega)]
        exact h
      · rw [if_neg hr] at h
        rw [if_neg (fun h' => hr (hhit.1 h'))]
        exact AtHit.congr e h

end Place

end AlchemyDB
