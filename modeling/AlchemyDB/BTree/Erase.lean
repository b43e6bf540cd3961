/-
# `AlchemyDB.BTree.Erase` — a delete from the root to the leaf

The way down of `deletekey`: a hit in an inner node ends in one of the cases 2, a
miss goes on in a kid that has been brought to `t` keys.  `delete_run` follows it,
by induction on the depth, and `btDelete_run` adds the root, which shrinks when it
has lost its last key.
-/
import AlchemyDB.BTree.Deletion

namespace AlchemyDB

open Store Weave

variable {α β κ : Type} [LinearOrder κ] {d : Nat} {V : View α β} {key : α → κ}
  {K : β → κ} {s s₁ s₂ : Bt α} {p pi i : Nat} {k : α}

/-! ## A ghost in an inner node -/

section Ghost

variable [RowStream α]

/-- A key of an inner node that has a DR. -/
theorem ghostCase2_run {x : Nat} {nd : BtN α} (h : s.heap x = some nd) (hs : s.s.sane)
    (h0 : nd.dr i ≠ 0) (p pi : Nat) :
    ∃ o, ghostCase2 x i (s.keyPtr x nd i) (nd.dr i) p pi s =
      some (⟨s.handed x i (nd.keys i), nd.dr i⟩, (s.setHeap x (some
        ((nd.owDR s.t i (nd.dr i)).setKey i (RowStream.ghost (nd.keys i))))).withBuf o) := by
  have hden : s.deref (s.keyPtr x nd i) = some (nd.keys i) := deref_KEYS h i
  have hg := replaceKeyWithGhost_run h hden h0 p pi
  generalize hnd' : (nd.owDR s.t i (nd.dr i)).setKey i (RowStream.ghost (nd.keys i)) = nd' at hg
  have h₁ : (s.setHeap x (some nd')).heap x = some nd' := upd_same _ _ _
  by_cases hn : s.s.narrow = true
  · refine ⟨s.delBuf, ?_⟩
    have hb := hs hn
    have hkp : s.keyPtr x nd i = .val (nd.keys i) := if_pos hn
    rw [hkp] at hg ⊢
    have hc : createReturnDeletedKey (.val (nd.keys i)) (nd.dr i) (s.setHeap x (some nd')) =
        some (⟨.val (nd.keys i), nd.dr i⟩, s.setHeap x (some nd')) := by
      simp only [createReturnDeletedKey, run_bind (run_get _)]
      rw [if_neg (by simp [Bt.setHeap, hb])]
      rfl
    rw [ghostCase2, run_bind hg, hc, Bt.handed, if_pos hn]
    rfl
  · have hkp : s.keyPtr x nd i = .slot x i := if_neg hn
    have hc := createReturnDeletedKey_run h₁ hs i (nd.dr i)
    have hn' : ¬ (s.setHeap x (some nd')).s.narrow = true := hn
    rw [if_neg hn'] at hc
    refine ⟨(s.setHeap x (some nd')).bufAfter (nd'.keys i), ?_⟩
    rw [hkp] at hg ⊢
    rw [ghostCase2, run_bind hg, hc, Bt.handed, Bt.handed, if_neg hn, if_neg hn']
    rfl

/-- The ghost branch in an inner node. -/
theorem erase_ghost {x : Nat} {nd : BtN α} {kid : Nat → Sub α (d + 1)} (S : Setting V key K s)
    (G : GhostOk V key) (g : Good V s.heap (Sub.node x nd kid))
    (L : Link s (Sub.node x nd kid).addrs x p pi) (hs : s.s.sane) (hin : i < nd.n)
    (hr : (findkindex s nd k).2 = 0) (hkey : key (nd.keys i) = key k) (h0 : nd.dr i ≠ 0)
    (hnc : ¬ V.counts) :
    ∃ dwd s' T', ghostCase2 x i (s.keyPtr x nd i) (nd.dr i) p pi (s.paid false (Sub.node x nd kid)) =
        some (dwd, s') ∧ Erased V key K s s' (Sub.node x nd kid) T' p pi k dwd := by
  have hx : (s.paid false (Sub.node x nd kid)).heap x = some (nd.addSc (-1)) := upd_same _ _ _
  have o := g.paid false L
  obtain ⟨b, hrun⟩ := ghostCase2_run hx hs (i := i) h0 p pi
  obtain ⟨R, hat, hne⟩ := retop_ghost (i := i) G (View.P_addSc (-1) g.node.disc) g.node.seen hin
  rw [show (s.paid false (Sub.node x nd kid)).t = V.t from S.t] at hrun
  generalize hnd' : ((nd.addSc (-1)).owDR V.t i ((nd.addSc (-1)).dr i)).setKey i
    (RowStream.ghost ((nd.addSc (-1)).keys i)) = nd' at R hat hne hrun
  have F : Solo (s.paid false (Sub.node x nd kid)) _ x x nd' p pi :=
    Solo.put (solo_start hx (o.link L) (Or.inl rfl)) nd'
  have hout : Out V 0 _ _ _ (Sub.node x nd' kid) p pi :=
    F.out o.good (o.link L) R (fun h => absurd h hnc)
  have hkK : K (V.entry nd i) = key k := by rw [S.keyed.entry]; exact hkey
  have hg : K (V.entry nd' i) = key k := by
    rw [hat, S.keyed.see, G.key _ _ (V.fits_dr i g.node.disc) h0]
    exact hkey
  have hsame : ((Sub.node x nd' kid).flat V).map K = ((Sub.node x nd kid).flat V).map K ∧
      besides K (key k) ((Sub.node x nd' kid).flat V) =
        besides K (key k) ((Sub.node x nd kid).flat V) := same_keys hin R.num hne hkK hg
  obtain ⟨hmap, hbes⟩ := hsame
  refine ⟨_, _, Sub.node x nd' kid, hrun, (o.trans hout L).withBuf b, rfl, fun c h => h, ?_,
    fun h => absurd h hnc, Or.inr ⟨hmap, nd.keys i, nd.dr i, hkey, h0, g.node.seen i hin⟩,
    fun _ => hbes, fun hn h2c => ⟨nd.keys i, nd.dr i, ?_, hkey, ?_⟩, fun h => absurd h hnc,
    fun _ h => absurd h (by simp [InLeaf, AtHit, hr])⟩
  · rw [Sub.size_node, Sub.size_node, R.num]
    exact Nat.le_succ _
  · rw [flat_at hin]
    simp [View.entry]
  · show s.case2cPtr.getD _ = _
    rw [h2c]
    exact if_pos hn

end Ghost

/-! ## The way down -/

/-- What `back` and `leaf` of `Erased` say of what is handed back. -/
structure Handed (V : View α β) (key : α → κ) (K : β → κ) (s s' : Bt α) (T : Sub α (d + 1)) (k : α)
    (dwd : Dwd α) : Prop where
  back : s.s.narrow = true → s.case2cPtr = none → ∃ e v, V.see e v ∈ T.flat V ∧ key e = key k ∧
    s'.case2cPtr.getD dwd.k = .val e
  leaf : V.counts → Strict K (T.flat V) → InLeaf s k T → s'.case2cPtr = s.case2cPtr ∧
    ∃ e v, V.see e v ∈ T.flat V ∧ key e = key k ∧
      (¬ s.s.loose ∨ (∀ b ∈ T.flat V, K b ≤ key k) → s'.deref dwd.k = some e)

/-- A delete below a node that has been balanced before: `T₁` reads like `T`, and one of
its kids has lost the key. -/
theorem Erased.up {T : Sub α (d + 2)} {x : Nat} {nd : BtN α} {kid : Nat → Sub α (d + 1)}
    {K' : Sub α (d + 1)} {dwd : Dwd α} (o : Out V 1 s s₁ T (Sub.node x nd kid) p pi)
    (L : Link s T.addrs T.addr p pi) (hleft : s₁.dirtyLeft = s.dirtyLeft)
    (hptr : ∀ c, s.case2cPtr = some c → s₁.case2cPtr = some c) (hsize : T.size ≤ nd.n + 1)
    (hmap : ((Sub.node x nd kid).flat V).map K = (T.flat V).map K)
    (hbes : besides K (key k) ((Sub.node x nd kid).flat V) = besides K (key k) (T.flat V))
    (hw : V.counts → (Sub.node x nd kid).weight V = T.weight V) (hi : i ≤ nd.n)
    (hrich : V.t ≤ (kid i).size) (E : Erased V key K s₁ s₂ (kid i) K' x i k dwd)
    (H : Handed V key K s s₂ T k dwd)
    (hin : Strict K (T.flat V) → InLeaf s k T → Strict K ((kid i).flat V) ∧ InLeaf s₁ k (kid i)) :
    ∃ T', Erased V key K s s₂ T T' p pi k dwd := by
  have hs : s₁.s = s.s := congrArg (fun r => r.2.2.2.2) o.edit.rest
  have hloss := E.loss
  have hsc : V.counts → 0 + (kid i).weight V = 1 + K'.weight V := fun hc => by
    have := E.weight hc
    omega
  obtain ⟨o₂, hflat⟩ := E.out.lift_same o.good (o.link L) hi (by omega) hsc
  have hfocus := (Sub.node x nd kid).flat_focus V (show i ≤ nd.n from hi)
  rw [Sub.kid_node] at hfocus
  have hlen : ((kid i).flat V).length ≤ (T.flat V).length := by
    have h1 := congrArg List.length hmap
    rw [List.length_map, List.length_map, hfocus] at h1
    simp only [List.length_append] at h1
    omega
  have hslips : Slips V K s₁ k (kid i) → Slips V K s k T :=
    fun h => ⟨hs ▸ h.1, fun h' => h.2.1 (hin h'.1 h'.2), h.2.2.trans hlen⟩
  refine ⟨_, o.trans o₂ L, E.left.trans hleft, fun c h => E.ptr c (hptr c h), hsize, fun hc => ?_,
    ?_, fun hl => ?_, H.back, H.leaf, fun hst hl b j hb => ?_⟩
  · have h1 := E.weight hc
    have h2 := hw hc
    simp only [Sub.weight, hflat, hfocus, sum_wt_append] at h1 h2 ⊢
    omega
  · rw [← hmap, hfocus, hflat]
    simp only [List.map_append]
    rcases E.keys with h | ⟨h, hg⟩
    · exact Or.inl ((h.mono hslips).wrap _ _)
    · exact Or.inr ⟨by rw [h], hg⟩
  · rw [← hbes, hfocus, hflat]
    simp only [besides_append]
    rw [E.others (fun h => hl (hslips h))]
  · obtain ⟨h1, h2⟩ := hin hst hl
    have hbK := (E.slot h1 h2 b j hb).1
    have hap := o₂.good.node.apart i hi
    rw [splice_at] at hap
    refine ⟨Sub.kid_mem hi ?_, fun _ e => hap ((show b = x from e) ▸ hbK)⟩
    rw [splice_at]
    exact hbK

/-- Where the key is in an inner node, if it is in its top. -/
theorem hit_inner {T : Sub α (d + 2)} {owe : Int} (S : Setting V key K s) (g : Owing V s.heap owe T)
    (ho : Ordered K (T.flat V)) (hr : (findkindex s T.top k).2 = 0) :
    ∃ i < T.size, deletePos s T.top k .none = ((i : Int), 0) ∧ wayOf s T.top k .none = i + 1 ∧
      key (T.top.keys i) = key k := by
  obtain ⟨m, hm, F⟩ := g.found S.cmp S.log S.t S.keyed ho k
  obtain ⟨h0, he⟩ := F.hit.1 hr
  obtain ⟨i, rfl⟩ : ∃ i, m = i + 1 := ⟨m - 1, by omega⟩
  have hslot : (findkindex s T.top k).1 = (i : Int) := by
    rw [F.slot]
    omega
  refine ⟨i, by omega, Prod.ext hslot hr, ?_, he⟩
  rw [wayOf, deletePos, hslot]
  omega

/-- Only the keys count for the order. -/
theorem Ordered.of_map {l l' : List β} (h : Ordered K l) (e : l'.map K = l.map K) :
    Ordered K l' := by
  have h' : (l.map K).Pairwise (· ≤ ·) := List.pairwise_map.2 h
  rw [← e] at h'
  exact List.pairwise_map.1 h'

/-- What `Clear` asks where an inner node has the key in slot `i`. -/
structure ClearHit (V : View α β) (k : α) (drt : Bool) (dk : DK) (s : Bt α) (T : Sub α (d + 2))
    (p pi i : Nat) : Prop where
  ghost : drt = false → T.top.dr i ≠ 0 → ¬ V.counts
  before : (drt = false → T.top.dr i = 0) → V.t ≤ (T.kid i).size →
    Clear V k drt .a2 (s.paid drt T) (T.kid i) T.addr i
  behind : (drt = false → T.top.dr i = 0) → ¬ V.t ≤ (T.kid i).size → V.t ≤ (T.kid (i + 1)).size →
    Clear V k drt .b2 (s.paid drt T) (T.kid (i + 1)) T.addr (i + 1)
  merge : (drt = false → T.top.dr i = 0) → ¬ V.t ≤ (T.kid i).size →
    ¬ V.t ≤ (T.kid (i + 1)).size → V.ok (V.see k (drAfter2c T.top (T.kid i).top i)) ∧
      (V.counts → drAfter2c T.top (T.kid i).top i = T.top.dr i) ∧
      ∀ s' T', Folded V (debt drt) ((s.paid drt T).mark2c (s.keyPtr T.addr T.top i)) s'
          (T.paid drt) T' p pi i k → Clear V k drt dk s' (T'.kid i) T'.addr i

theorem Clear.hit {drt : Bool} {dk : DK} {T : Sub α (d + 2)} (h : Clear V k drt dk s T p pi)
    (hr : (deletePos s T.top k dk).2 = 0) (hway : wayOf s T.top k dk = i + 1) :
    ClearHit V k drt dk s T p pi i := by
  rw [Clear, if_pos hr, hway, Nat.add_sub_cancel] at h
  split_ifs at h with hg hy hz
  · exact ⟨fun _ _ => h, fun h0 => absurd (h0 hg.1) hg.2, fun h0 => absurd (h0 hg.1) hg.2,
      fun h0 => absurd (h0 hg.1) hg.2⟩
  · exact ⟨fun h1 h2 => absurd ⟨h1, h2⟩ hg, fun _ _ => h, fun _ hy' => absurd hy hy',
      fun _ hy' => absurd hy hy'⟩
  · exact ⟨fun h1 h2 => absurd ⟨h1, h2⟩ hg, fun _ hy' => absurd hy' hy, fun _ _ _ => h,
      fun _ _ hz' => absurd hz hz'⟩
  · exact ⟨fun h1 h2 => absurd ⟨h1, h2⟩ hg, fun _ hy' => absurd hy' hy,
      fun _ _ hz' => absurd hz' hz, fun _ _ _ => h⟩

/-- The tree when `remove_key` begins. -/
def Bt.begun (s : Bt α) : Bt α := { s with case2cPtr := none }

/-- What `remove_key` leaves when the root of `T` has no key left: the tree below it. -/
theorem Whole.shrunk {x : Nat} {nd : BtN α} {kid : Nat → Sub α (d + 1)}
    (W : Good V s.heap (Sub.node x nd kid)) (hb : ∀ b, s.heap b ≠ none → b < s.next)
    (hk : ∀ b, s.heap b ≠ none → b ∈ (Sub.node x nd kid).addrs) (hn : nd.n = 0) :
    Whole V ({ s with root := (kid 0).addr }.setHeap x none) (kid 0) ∧
      (kid 0).flat V = (Sub.node x nd kid).flat V := by
  have hap := W.node.apart 0 (Nat.zero_le _)
  have hlow := W.node.low (by omega) 0 (Nat.zero_le _)
  have h2 := V.two_le
  have hlive : ∀ b, ({ s with root := (kid 0).addr }.setHeap x none).heap b ≠ none →
      b ≠ x ∧ s.heap b ≠ none := by
    intro b hb'
    by_cases e : b = x
    · rw [e, Bt.setHeap_heap, upd_same] at hb'
      exact absurd rfl hb'
    · have hne : ({ s with root := (kid 0).addr }.setHeap x none).heap b = s.heap b := upd_ne _ _ e
      exact ⟨e, hne ▸ hb'⟩
  refine ⟨⟨?_, rfl, fun b hb' => hb b (hlive b hb').2, fun b hb' => ?_, fun _ => by omega⟩, ?_⟩
  · refine (W.kids 0 (Nat.zero_le _)).frame (fun b hb' => ?_)
    exact upd_ne _ _ (fun e => hap (e ▸ hb'))
  · obtain ⟨hne, hb'⟩ := hlive b hb'
    rcases hk b hb' with e | ⟨j, hj, hb'⟩
    · exact absurd e hne
    · obtain rfl : j = 0 := by omega
      exact hb'
  · rw [Sub.flat_node, hn, weave_zero]

section Delete

variable [RowStream α]

/-- What `delete_run` says of subtrees of depth `d`. -/
def Deletes (V : View α β) (key : α → κ) (K : β → κ) (k : α) (d : Nat) : Prop :=
  ∀ (s : Bt α) (T : Sub α (d + 1)) (p pi fuel : Nat), d < fuel → Setting V key K s → s.s.sane →
    (s.s.loose → ∀ b, V.ok b) → Good V s.heap T → Link s T.addrs T.addr p pi →
    (d ≠ 0 → 0 < T.size) → Ordered K (T.flat V) → (∃ b ∈ T.flat V, K b = key k) →
    Clear V k false .none s T p pi → ∀ plist : PList,
    ∃ dwd s' T', deletekey k .none false fuel T.addr p pi plist s = some (dwd, s') ∧
      Erased V key K s s' T T' p pi k dwd

/-- Case 2c: the key goes down and is deleted there. -/
theorem erase_2c {x fuel : Nat} {nd : BtN α} {kid : Nat → Sub α (d + 1)} (ih : Deletes V key K k d)
    (hf : d < fuel) (S : Setting V key K s) (hs : s.s.sane) (hlo : s.s.loose → ∀ b, V.ok b)
    (g : Good V s.heap (Sub.node x nd kid)) (L : Link s (Sub.node x nd kid).addrs x p pi)
    (ho : Ordered K ((Sub.node x nd kid).flat V)) (hin : i < nd.n)
    (hr : (findkindex s nd k).2 = 0) (hkey : key (nd.keys i) = key k)
    (hy : (kid i).size = V.t - 1) (hz : (kid (i + 1)).size = V.t - 1)
    (hok : V.ok (V.see k (drAfter2c nd (kid i).top i)))
    (hdr : V.counts → drAfter2c nd (kid i).top i = nd.dr i)
    (hclear : ∀ s' T', Folded V (debt false) ((s.paid false (Sub.node x nd kid)).mark2c
        (s.keyPtr x nd i)) s' (Sub.paid false (Sub.node x nd kid)) T' p pi i k →
      Clear V k false .none s' (T'.kid i) T'.addr i) (plist : PList) :
    ∃ dwd s' T', (do
        markCase2c (s.keyPtr x nd i)
        let (x, y) ← mergeCase2c x i k false p pi
        deletekey k .none false fuel y x i (addBP plist x i) : BtM α (Dwd α))
          (s.paid false (Sub.node x nd kid)) = some (dwd, s') ∧
      Erased V key K s s' (Sub.node x nd kid) T' p pi k dwd := by
  have h2 := V.two_le
  have o := g.paid false L
  have om : Out V (debt false) s ((s.paid false (Sub.node x nd kid)).mark2c (s.keyPtr x nd i))
      (Sub.node x nd kid) (Sub.paid false (Sub.node x nd kid)) p pi :=
    ⟨o.good, ⟨o.edit.away, o.edit.fresh, o.edit.kept, o.edit.root, o.edit.next, o.edit.bound, o.edit.rest⟩⟩
  have hmark : markCase2c (s.keyPtr x nd i) (s.paid false (Sub.node x nd kid)) =
      some ((), (s.paid false (Sub.node x nd kid)).mark2c (s.keyPtr x nd i)) := rfl
  generalize hs₀ : (s.paid false (Sub.node x nd kid)).mark2c (s.keyPtr x nd i) = s₀ at om hmark hclear
  have hptr₀ : s₀.case2cPtr = s.case2cPtr.or (some (s.keyPtr x nd i)) := by
    rw [← hs₀]
    rfl
  have hleft₀ : s₀.dirtyLeft = s.dirtyLeft := by
    rw [← hs₀]
    rfl
  obtain ⟨s₁, T₁, hmerge, F⟩ := mergeCase2c_folded om.good (om.link L)
    ((rest_t om.edit.rest).trans S.t) (show i < nd.n from hin)
    (show (kid i).size + 1 + (kid (i + 1)).size ≤ 2 * V.t - 1 by omega) k false hok hdr
  have hclear₁ := hclear s₁ T₁ F
  have o₁ := om.trans F.out L
  have S₁ := S.congr o₁.edit.rest
  have hs₁ : s₁.s = s.s := congrArg (fun r => r.2.2.2.2) o₁.edit.rest
  obtain ⟨x', nd', kid', rfl⟩ := exists_node T₁
  have hsize : nd'.n + 1 = nd.n := F.size
  have hkid : (kid' i).size = (kid i).size + 1 + (kid (i + 1)).size := F.kidSize
  have hi' : i ≤ nd'.n := by omega
  -- the node after the merge reads like the node before, with `k` for the key
  have hpre : (Sub.node x' nd' kid').pre V i = (Sub.node x nd kid).pre V i := F.pre
  have hpost : (Sub.node x' nd' kid').post V i = (Sub.node x nd kid).post V (i + 1) := F.post
  have hfold : (kid' i).flat V = (kid i).flat V ++
      V.see k (drAfter2c nd (kid i).top i) :: (kid (i + 1)).flat V := F.flat
  have hflat₁ : (Sub.node x' nd' kid').flat V = (Sub.node x nd kid).pre V i ++ ((kid i).flat V ++
      V.see k (drAfter2c nd (kid i).top i) ::
        ((kid (i + 1)).flat V ++ (Sub.node x nd kid).post V (i + 1))) := by
    rw [(Sub.node x' nd' kid').flat_focus V hi', hpre, hpost, Sub.kid_node, hfold]
    simp
  have hkK : K (V.entry nd i) = key k := by rw [S.keyed.entry]; exact hkey
  have hkS : K (V.see k (drAfter2c nd (kid i).top i)) = key k := S.keyed.see _ _
  have hmap : ((Sub.node x' nd' kid').flat V).map K = ((Sub.node x nd kid).flat V).map K := by
    rw [hflat₁, flat_at hin]
    simp only [List.map_append, List.map_cons, hkK, hkS]
  have hbes : besides K (key k) ((Sub.node x' nd' kid').flat V) =
      besides K (key k) ((Sub.node x nd kid).flat V) := by
    rw [hflat₁, flat_at hin]
    simp only [besides_append, besides_cons_hit hkK, besides_cons_hit hkS]
  have hw : V.counts → (Sub.node x' nd' kid').weight V = (Sub.node x nd kid).weight V := by
    intro hc
    rw [Sub.weight, Sub.weight, hflat₁, flat_at hin]
    simp only [List.map_append, List.map_cons, View.entry, V.wt_see hc, hdr hc]
  have ho₁ : Ordered K ((Sub.node x' nd' kid').flat V) := ho.of_map hmap
  obtain ⟨dwd, s₂, K', hrun, E⟩ := ih _ _ _ _ _ hf S₁ (hs₁ ▸ hs) (hs₁ ▸ hlo)
    (o₁.good.kids i hi') ((o₁.link L).toKid o₁.good hi') (fun _ => by omega) (ho₁.kid hi')
    ⟨_, by rw [hfold]; simp, hkS⟩ hclear₁ (addBP plist x' i)
  have hkp : ∀ c, s₁.case2cPtr = some c → s₂.case2cPtr = some c := E.ptr
  have hq : s₁.case2cPtr = s₀.case2cPtr := congrArg (fun r => r.2.1) F.quiet
  have H : Handed V key K s s₂ (Sub.node x nd kid) k dwd := by
    refine ⟨fun hn h2c => ⟨nd.keys i, nd.dr i, ?_, hkey, ?_⟩, fun _ _ h => ?_⟩
    · rw [flat_at hin]
      simp [View.entry]
    · have h1 : s₁.case2cPtr = some (s.keyPtr x nd i) := by
        rw [hq, hptr₀, h2c]
        rfl
      rw [hkp _ h1]
      exact if_pos hn
    · simp [InLeaf, AtHit, hr] at h
  obtain ⟨T', E'⟩ := Erased.up o₁ L ((congrArg (fun r => r.1) F.quiet).trans hleft₀)
    (fun c h => by rw [hq, hptr₀, h]; rfl) (by rw [Sub.size_node]; omega) hmap hbes hw hi'
    (by omega) E H (fun _ h => absurd h (by simp [InLeaf, AtHit, hr]))
  refine ⟨dwd, s₂, T', ?_, E'⟩
  rw [run_bind hmark]
  rw [show (Sub.paid false (Sub.node x nd kid)).addr = x from rfl] at hmerge
  rw [run_bind hmerge]
  exact hrun

/-- The key is below an inner node. -/
theorem erase_below {fuel : Nat} {T : Sub α (d + 2)} (ih : Deletes V key K k d) (hf : d < fuel)
    (S : Setting V key K s) (hs : s.s.sane) (hlo : s.s.loose → ∀ b, V.ok b) (g : Good V s.heap T)
    (L : Link s T.addrs T.addr p pi) (h0 : 0 < T.size) (ho : Ordered K (T.flat V))
    (hmem : ∃ b ∈ T.flat V, K b = key k) (hr : (findkindex s T.top k).2 ≠ 0)
    (hclear : Clear V k false .none s T p pi) (plist : PList) :
    ∃ dwd s' T', deletekey k .none false (fuel + 1) T.addr p pi plist s = some (dwd, s') ∧
      Erased V key K s s' T T' p pi k dwd := by
  have o := g.paid false L
  obtain ⟨w, hw, Fo⟩ := g.found S.cmp S.log S.t S.keyed ho k
  have hslot : slotOf s T.top k = w := Fo.slotOf
  have hway : wayOf s T.top k .none = w := hslot
  have hr' : (deletePos s T.top k .none).2 ≠ 0 := hr
  rw [Clear, if_neg hr', hway] at hclear
  rw [deletekey_inner g hr', hway]
  obtain ⟨i', s₁, T₁, hreb, R⟩ := rebalanceCase3_run (i := w) false o.good (o.link L)
    ((rest_t o.edit.rest).trans S.t) (by rwa [Sub.paid_size]) (by rwa [Sub.paid_size])
    (fun hd => keeps_paid.2 (hclear.1 hd))
  rw [Sub.paid_addr] at hreb
  have hclear₁ := hclear.2 i' s₁ T₁ hreb R
  have o₁ := o.trans R.out L
  have S₁ := S.congr o₁.edit.rest
  have hs₁ : s₁.s = s.s := congrArg (fun r => r.2.2.2.2) o₁.edit.rest
  have hflat : T₁.flat V = T.flat V := by
    rw [R.grown.flat (by rwa [Sub.paid_size]) R.fits, Sub.paid_flat]
  obtain ⟨A, B, -, -, hK⟩ := R.grown
  rw [Sub.paid_kid] at hK
  obtain ⟨b, hb, hbk⟩ := hmem
  have hbw := Fo.mem_kid S.keyed ho hr hb hbk
  have hsize : T.size ≤ T₁.size + 1 := by
    have := R.loss
    rwa [Sub.paid_size] at this
  obtain ⟨ow, hwi⟩ := R.within
  rw [Sub.paid_kid] at hwi
  obtain ⟨x, nd, kid, rfl⟩ := exists_node T₁
  have hi : i' ≤ nd.n := R.fits
  have hrich : V.t ≤ (kid i').size := R.rich
  have h2 := V.two_le
  have ho₁ : Ordered K ((kid i').flat V) := Ordered.kid (T := Sub.node x nd kid) (hflat ▸ ho) hi
  have hmemK : ∃ b ∈ (kid i').flat V, K b = key k := by
    refine ⟨b, ?_, hbk⟩
    rw [show (kid i').flat V = _ from hK]
    simp [hbw]
  obtain ⟨dwd, s₂, K', hrun, E⟩ := ih _ _ _ _ _ hf S₁ (hs₁ ▸ hs) (hs₁ ▸ hlo) (o₁.good.kids i' hi)
    ((o₁.link L).toKid o₁.good hi) (fun _ => by omega) ho₁ hmemK hclear₁ (addBP plist x i')
  have hsub : ∀ c ∈ (kid i').flat V, c ∈ T.flat V := by
    intro c hc
    rw [← hflat, (Sub.node x nd kid).flat_focus V (show i' ≤ nd.n from hi)]
    exact List.mem_append_right _ (List.mem_append_left _ hc)
  have hq : s₁.globals = s.globals := R.quiet
  have hptr : s₁.case2cPtr = s.case2cPtr := congrArg (fun r => r.2.1) hq
  have hleaf : Strict K (T.flat V) → InLeaf s k T →
      Strict K ((kid i').flat V) ∧ InLeaf s₁ k (kid i') := by
    intro hst hin
    have hstK : Strict K ((kid i').flat V) := by
      have hst' : Strict K ((Sub.node x nd kid).flat V) := hflat ▸ hst
      rw [(Sub.node x nd kid).flat_focus V (show i' ≤ nd.n from hi)] at hst'
      exact (List.pairwise_append.1 (List.pairwise_append.1 hst').2.1).1
    unfold InLeaf AtHit at hin
    rw [if_neg hr, hslot] at hin
    exact ⟨hstK, AtHit.within S o₁.edit.rest (g.kid hw) (o₁.good.kids i' hi) hstK hwi
      ⟨b, hbw, hbk⟩ hin⟩
  have H : Handed V key K s s₂ T k dwd := by
    constructor
    · intro hn h2c
      obtain ⟨e, v, he, hk, hv⟩ := E.back (hs₁ ▸ hn) (hptr.trans h2c)
      exact ⟨e, v, hsub _ he, hk, hv⟩
    · intro hc hst hin
      obtain ⟨hstK, hinK⟩ := hleaf hst hin
      obtain ⟨h1, e, v, he, hk, hv⟩ := E.leaf hc hstK hinK
      refine ⟨h1.trans hptr, e, v, hsub _ he, hk, fun h => hv ?_⟩
      exact h.imp (fun h => hs₁ ▸ h) (fun h c hc => h c (hsub c hc))
  obtain ⟨T', E'⟩ := Erased.up o₁ L (congrArg (fun r => r.1) hq) (fun c h => hptr.trans h) hsize
    (by rw [hflat]) (by rw [hflat]) (fun _ => by rw [Sub.weight, hflat]; rfl) hi hrich E H
    hleaf
  refine ⟨dwd, s₂, T', ?_, E'⟩
  rw [run_bind hreb]
  exact (run_bind hrun).trans rfl

/-- `deletekey` takes the key out of a subtree. -/
theorem delete_run (G : GhostOk V key) : ∀ d, Deletes V key K k d
  | 0 => by
      intro s T p pi fuel hf S hs _ g L _ ho hmem hclear plist
      obtain ⟨f, rfl⟩ : ∃ f, fuel = f + 1 := ⟨fuel - 1, by omega⟩
      exact delete_leaf S G g L hs ho hmem hclear f plist
  | d + 1 => by
      intro s T p pi fuel hf S hs hlo g L h0 ho hmem hclear plist
      obtain ⟨f, rfl⟩ : ∃ f, fuel = f + 1 := ⟨fuel - 1, by omega⟩
      have ih : Deletes V key K k d := delete_run G d
      have hf' : d < f := by omega
      by_cases hr : (findkindex s T.top k).2 = 0
      swap
      · exact erase_below ih hf' S hs hlo g L (h0 (by omega)) ho hmem hr hclear plist
      obtain ⟨i, hin, hpos, hway, hkey⟩ := hit_inner S g ho hr
      have C := hclear.hit hr hway
      obtain ⟨x, nd, kid, rfl⟩ := exists_node T
      have o := g.paid false L
      have ht : s.t = V.t := S.t
      have hle : i ≤ nd.n := Nat.le_of_lt hin
      rw [Sub.addr_node, deletekey_hit g hin hpos, ht]
      by_cases hg : nd.dr i ≠ 0
      · rw [if_pos ⟨rfl, hg⟩]
        exact erase_ghost S G g L hs hin hr hkey hg (C.ghost rfl hg)
      rw [if_neg (fun h => hg h.2)]
      have hd0 : nd.dr i = 0 := not_not.1 hg
      have ht' : (s.paid false (Sub.node x nd kid)).t = V.t := ht
      by_cases hy : V.t ≤ (kid i).size
      · obtain ⟨dwd, s₂, K', hrun, t⟩ := take_run (by simp) hf' ht' hs (o.good.kids i hle)
          ((o.link L).toKid o.good hle) hy (C.before (fun _ => hd0) hy) (addBP plist x i)
        obtain ⟨dwd', s', T', hend, E⟩ := erase_2a (k := k) S g L hin hr hkey hd0 hy t
        refine ⟨dwd', s', T', ?_, E⟩
        rw [if_pos hy, run_bind hrun]
        exact hend
      rw [if_neg hy]
      by_cases hz : V.t ≤ (kid (i + 1)).size
      · obtain ⟨dwd, s₂, K', hrun, t⟩ := take_run (by simp) hf' ht' hs (o.good.kids (i + 1) hin)
          ((o.link L).toKid o.good hin) hz (C.behind (fun _ => hd0) hy hz) (addBP plist x (i + 1))
        obtain ⟨dwd', s', T', hend, E⟩ := erase_2b (k := k) S hlo g L hin hr hkey hd0 hz t
        refine ⟨dwd', s', T', ?_, E⟩
        rw [if_pos hz, run_bind hrun]
        exact hend
      obtain ⟨hok, hdr, hfold⟩ := C.merge (fun _ => hd0) hy hz
      have hlow := g.node.low (by omega)
      have hy' : (kid i).size = V.t - 1 := by
        have := hlow i hle
        omega
      have hz' : (kid (i + 1)).size = V.t - 1 := by
        have := hlow (i + 1) hin
        omega
      rw [if_neg hz, if_pos ⟨hy', hz'⟩]
      exact erase_2c ih hf' S hs hlo g L ho hin hr hkey hy' hz' hok hdr hfold plist

/-! ## `bt_delete` -/

/-- What `bt_delete` does to the whole tree. -/
structure Deleted {d' : Nat} (V : View α β) (key : α → κ) (K : β → κ) (s s' : Bt α)
    (T : Sub α (d + 1)) (T' : Sub α (d' + 1)) (k : α) (dwd : Dwd α) : Prop where
  whole : Whole V s' T'
  kit : s'.kit = s.kit
  num : s'.numkeys = s.numkeys - 1
  left : s'.dirtyLeft = s.dirtyLeft
  weight : V.counts → T.weight V = T'.weight V + 1
  keys : KeyGone (Slips V K s k T) (key k) ((T.flat V).map K) ((T'.flat V).map K) ∨
    ((T'.flat V).map K = (T.flat V).map K ∧ ∃ e v, key e = key k ∧ v ≠ 0 ∧ V.ok (V.see e v))
  others : ¬ Slips V K s k T → besides K (key k) (T'.flat V) = besides K (key k) (T.flat V)
  back : s.s.narrow = true → ∃ e v, V.see e v ∈ T.flat V ∧ key e = key k ∧ dwd.k = .val e
  leaf : V.counts → Strict K (T.flat V) → InLeaf s k T → ∃ e v, V.see e v ∈ T.flat V ∧
    key e = key k ∧ (¬ s.s.loose ∨ (∀ b ∈ T.flat V, K b ≤ key k) → s'.deref dwd.k = some e)

theorem btDelete_run (G : GhostOk V key) {T : Sub α (d + 1)} (W : Whole V s T)
    (S : Setting V key K s) (hs : s.s.sane) (hlo : s.s.loose → ∀ b, V.ok b)
    (ho : Ordered K (T.flat V)) (hmem : ∃ b ∈ T.flat V, K b = key k)
    (hclear : Clear V k false .none s.begun T s.root 0) :
    ∃ dwd s' d', ∃ T' : Sub α (d' + 1), btDelete k s = some (dwd, s') ∧
      Deleted V key K s s' T T' k dwd := by
  have W₀ : Whole V s.begun T := ⟨W.good, W.root, W.bound, W.kept, W.inner⟩
  have S₀ : Setting V key K s.begun := ⟨S.cmp, S.log, S.t, S.keyed⟩
  obtain ⟨dwd, s₁, T₁, hrun, E⟩ := delete_run G d s.begun T s.root 0 s.next W₀.depth S₀ hs hlo W₀.good
    (W₀.link s.root 0) W₀.inner ho hmem hclear none
  have hbegun : InLeaf s k T → InLeaf s.begun k T :=
    AtHit.congr (show s.begun.rest = s.rest from rfl)
  have hslips : Slips V K s.begun k T → Slips V K s k T :=
    fun h => ⟨h.1, fun h' => h.2.1 ⟨h'.1, hbegun h'.2⟩, h.2.2⟩
  have hkeys := E.keys.imp_left fun h => h.mono hslips
  have hothers := fun (h : ¬ Slips V K s k T) => E.others fun h' => h (hslips h')
  have e := E.out.edit.rest
  have hroot : s₁.root = T₁.addr := by rw [E.out.edit.root, if_pos W₀.root.symm]
  -- what is handed back, before the root is looked at
  generalize hd' : (⟨s₁.case2cPtr.getD dwd.k, dwd.dr⟩ : Dwd α) = dwd'
  have hk' : dwd'.k = s₁.case2cPtr.getD dwd.k := by rw [← hd']
  have hback : s.s.narrow = true → ∃ e v, V.see e v ∈ T.flat V ∧ key e = key k ∧ dwd'.k = .val e := by
    rw [hk']
    exact fun hn => E.back hn rfl
  have hfin : ∀ {s₂ : Bt α}, s₂.case2cPtr = s₁.case2cPtr →
      (s₂.case2cPtr.elim (pure dwd) fun kp => pure { dwd with k := kp } : BtM α (Dwd α)) s₂ =
        some (dwd', s₂) := by
    intro s₂ h
    rw [h, ← hd']
    cases s₁.case2cPtr <;> rfl
  generalize hs₂ : { s₁ with numkeys := s₁.numkeys - 1 } = s₂
  have h2 : s₂.kit = s.kit ∧ s₂.numkeys = s.numkeys - 1 ∧ s₂.dirtyLeft = s.dirtyLeft := by
    rw [← hs₂]
    exact ⟨congrArg (fun r => (r.1, r.2.2)) e, congrArg (· - 1) (congrArg (fun r => r.2.1) e), E.left⟩
  have hstart : btDelete k s = (do
      let ndr ← getN s₂.root
      if ndr.n = 0 ∧ !ndr.leaf then do
        let c ← getNode s₂.root 0
        modify (fun s => { s with root := c })
        freeN s₂.root
      else pure ()
      let s ← get
      s.case2cPtr.elim (pure dwd) fun kp => pure { dwd with k := kp } : BtM α (Dwd α)) s₂ := by
    have hb : s.begun.root = T.addr := W₀.root
    have hrun' : deletekey k .none false s.begun.next s.begun.root s.begun.root 0 none s.begun =
        some (dwd, s₁) := by
      rw [hb, ← W.root]
      rw [← W.root] at hrun
      exact hrun
    rw [btDelete, removeKey, run_bind (show _ = some ((), s.begun) from rfl), run_bind (run_get _)]
    simp only [Bool.false_eq_true, if_false, case2cPtr_elim]
    rw [run_bind hrun', run_bind (show _ = some ((), s₂) from by rw [← hs₂]; rfl)]
    exact (run_bind (run_get _)).trans rfl
  rw [hstart]
  obtain ⟨x, nd, kid, rfl⟩ := exists_node T₁
  have hlive : s₂.heap s₂.root = some nd := by
    rw [← hs₂]
    exact hroot ▸ E.out.good.node.live
  have hptr₂ : s₂.case2cPtr = s₁.case2cPtr := by rw [← hs₂]
  rw [run_bind (getN_run hlive)]
  by_cases h0 : nd.n = 0 ∧ (!nd.leaf) = true
  swap
  · -- the root stays
    simp only [if_neg h0, run_bind (run_get _)]
    refine ⟨dwd', s₂, _, Sub.node x nd kid, hfin hptr₂, ⟨?_, ?_, ?_, ?_, fun hd => ?_⟩, h2.1, h2.2.1, h2.2.2,
      E.weight, hkeys, hothers, hback, fun hc hst hl => ?_⟩
    · rw [← hs₂]
      exact E.out.good
    · rw [← hs₂]
      exact hroot
    · rw [← hs₂]
      exact E.out.edit.bound
    · rw [← hs₂]
      exact E.out.edit.whole_kept W₀.kept
    · have hl : nd.leaf = false := Bool.eq_false_iff.2 (fun h => hd (E.out.good.node.leaf.1 h))
      rw [Sub.size_node]
      refine Nat.pos_of_ne_zero (fun h => h0 ⟨h, ?_⟩)
      rw [hl]
      rfl
    · obtain ⟨hp, e, v, he, hk, hv⟩ := E.leaf hc hst (hbegun hl)
      refine ⟨e, v, he, hk, fun h => ?_⟩
      rw [hk', hp, ← hs₂]
      exact hv h
  · -- the tree decreases in height
    have hl : nd.leaf = false := by simpa using h0.2
    obtain ⟨d, rfl⟩ : ∃ d', d = d' + 1 := by
      refine ⟨d - 1, ?_⟩
      have : d ≠ 0 := fun h => by simp [E.out.good.node.leaf.2 h] at hl
      omega
    have hnode : getNode s₂.root 0 s₂ = some ((kid 0).addr, s₂) := by
      rw [getNode_run hlive hl 0, E.out.good.node.link (by omega) 0 (Nat.zero_le _)]
    have hx : s₂.root = x := by
      rw [← hs₂]
      exact hroot
    have hfree : freeN s₂.root { s₂ with root := (kid 0).addr } =
        some ((), { s₂ with root := (kid 0).addr }.setHeap x none) := by
      rw [hx]
      exact freeN_run (by rw [← hx]; exact hlive)
    obtain ⟨W', hflat⟩ := Whole.shrunk (s := s₂) (by rw [← hs₂]; exact E.out.good)
      (by rw [← hs₂]; exact E.out.edit.bound) (by rw [← hs₂]; exact E.out.edit.whole_kept W₀.kept) h0.1
    have hmod : (modify (fun s => { s with root := (kid 0).addr }) : BtM α Unit) s₂ =
        some ((), { s₂ with root := (kid 0).addr }) := rfl
    simp only [if_pos h0, run_bind hnode]
    rw [run_bind hmod, run_bind hfree, run_bind (run_get _)]
    generalize hs₃ : ({ s₂ with root := (kid 0).addr } : Bt α).setHeap x none = s₃ at W'
    have h3 : s₃.kit = s₂.kit ∧ s₃.numkeys = s₂.numkeys ∧ s₃.dirtyLeft = s₂.dirtyLeft ∧
        s₃.case2cPtr = s₂.case2cPtr := by
      rw [← hs₃]
      exact ⟨rfl, rfl, rfl, rfl⟩
    refine ⟨dwd', s₃, d, kid 0, hfin (h3.2.2.2.trans hptr₂), W', h3.1.trans h2.1, h3.2.1.trans h2.2.1,
      h3.2.2.1.trans h2.2.2, fun hc => ?_, hflat ▸ hkeys, hflat ▸ hothers, hback, fun hc hst hl => ?_⟩
    · rw [E.weight hc, Sub.weight, Sub.weight, hflat]
    obtain ⟨hp, e, v, he, hk, hv⟩ := E.leaf hc hst (hbegun hl)
    refine ⟨e, v, he, hk, fun h => ?_⟩
    have hd := hv h
    have hsl := E.slot hst (hbegun hl)
    rw [hk', hp]
    show s₃.deref dwd.k = some e
    rw [← hd, ← hs₃, ← hs₂]
    cases hkd : dwd.k with
    | val a => rfl
    | slot b j =>
        have hne : b ≠ x := (hsl b j hkd).2 (by omega)
        exact congrArg (Option.map _) (upd_ne _ _ hne)
    | delBuf => rfl

end Delete

end AlchemyDB
