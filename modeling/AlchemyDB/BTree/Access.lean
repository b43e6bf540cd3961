/-
# `AlchemyDB.BTree.Access` — `bt_replace` and the lookups

Both walk down with `findkindex`.  `findnodekeyreplace` overwrites the entry it
finds, and nothing else; `findnodekey` hands out the entry of a key that is there.
-/
import AlchemyDB.BTree.Erase

namespace AlchemyDB

open Store Weave

variable {α β κ : Type} [LinearOrder κ] {d : Nat} {V : View α β} {key : α → κ} {K : β → κ}
  {s s₁ : Bt α} {p pi i : Nat} {k : α}

/-! ## Where the key is -/

/-- Slot `i` of the top node has the key. -/
theorem hit_top {T : Sub α (d + 1)} {owe : Int} (S : Setting V key K s) (g : Owing V s.heap owe T)
    (ho : Ordered K (T.flat V)) (hr : (findkindex s T.top k).2 = 0) :
    ∃ i < T.size, (findkindex s T.top k).1 = (i : Int) ∧ key (T.top.keys i) = key k := by
  obtain ⟨m, hm, F⟩ := g.found S.cmp S.log S.t S.keyed ho k
  obtain ⟨h0, he⟩ := F.hit.1 hr
  obtain ⟨i, rfl⟩ : ∃ i, m = i + 1 := ⟨m - 1, by omega⟩
  refine ⟨i, by omega, ?_, he⟩
  rw [F.slot]
  omega

/-- The kid below which the key is, when the top node does not have it. -/
theorem miss_top {T : Sub α (d + 1)} {owe : Int} (S : Setting V key K s) (g : Owing V s.heap owe T)
    (ho : Ordered K (T.flat V)) (hr : (findkindex s T.top k).2 ≠ 0) :
    ∃ m ≤ T.size, (findkindex s T.top k).1 + 1 = (m : Int) ∧
      ∀ b ∈ T.flat V, K b = key k → b ∈ (T.kid m).flat V := by
  obtain ⟨m, hm, F⟩ := g.found S.cmp S.log S.t S.keyed ho k
  refine ⟨m, hm, ?_, fun b hb he => F.mem_kid S.keyed ho hr hb he⟩
  rw [F.slot]
  omega

/-! ## `bt_replace` -/

/-- The entry under `k` has become `val`; `kp` is the entry that was there when slots hold the
entries themselves. -/
def Rewritten (V : View α β) (key : α → κ) (s : Bt α) (kp : KData α) (k val : α) (l l' : List β) :
    Prop :=
  ∃ A B e v, l = A ++ V.see e v :: B ∧ l' = A ++ V.see val v :: B ∧ key e = key k ∧
    (s.s.narrow = true → kp = .val e)

omit [LinearOrder κ] in
theorem Rewritten.wrap {kp : KData α} {val : α} {l l' : List β} (h : Rewritten V key s kp k val l l')
    (L R : List β) : Rewritten V key s kp k val (L ++ (l ++ R)) (L ++ (l' ++ R)) := by
  obtain ⟨A, B, e, v, rfl, rfl, hk⟩ := h
  exact ⟨L ++ A, B ++ R, e, v, by simp, by simp, hk⟩

omit [LinearOrder κ] in
theorem Rewritten.sum {kp : KData α} {val : α} {l l' : List β} (h : Rewritten V key s kp k val l l')
    (hc : V.counts) : (l'.map V.wt).sum = (l.map V.wt).sum := by
  obtain ⟨A, B, e, v, rfl, rfl, _⟩ := h
  simp [V.wt_see hc]

/-- What `bt_replace` does to a subtree. -/
structure Replaces (V : View α β) (key : α → κ) (s s' : Bt α) (T T' : Sub α (d + 1)) (p pi : Nat)
    (kp : KData α) (k val : α) : Prop where
  out : Out V 0 s s' T T' p pi
  quiet : s'.globals = s.globals
  size : T'.size = T.size
  read : Rewritten V key s kp k val (T.flat V) (T'.flat V)

omit [LinearOrder κ] in
/-- The entry is in the top node. -/
theorem replace_top {x : Nat} {nd : BtN α} {kid : Nat → Sub α d} {val : α}
    (g : Good V s.heap (Sub.node x nd kid)) (L : Link s (Sub.node x nd kid).addrs x p pi)
    (hi : i < nd.n) (hkey : key (nd.keys i) = key k)
    (hok : ∀ e v, V.ok (V.see e v) → V.ok (V.see val v)) :
    Replaces V key s (s.setHeap x (some (nd.setKey i val))) (Sub.node x nd kid)
      (Sub.node x (nd.setKey i val) kid) p pi (if s.s.narrow then .val (nd.keys i) else .slot x i) k
      val := by
  have hat : V.entry (nd.setKey i val) i = V.see val (nd.dr i) := View.entry_setKey_at _ _
  have hne : ∀ j < nd.n, j ≠ i → V.entry (nd.setKey i val) j = V.entry nd j :=
    fun j _ hji => View.entry_setKey_ne _ hji
  have hread : Rewritten V key s (if s.s.narrow then .val (nd.keys i) else .slot x i) k val
      ((Sub.node x nd kid).flat V) ((Sub.node x (nd.setKey i val) kid).flat V) := by
    have hflat : (Sub.node x (nd.setKey i val) kid).flat V = _ := flat_retop (x := x) hi rfl hne
    rw [hflat, flat_at (x := x) hi, hat]
    exact ⟨(Sub.node x nd kid).pre V i ++ (kid i).flat V, _, nd.keys i, nd.dr i,
      (List.append_assoc _ _ _).symm, (List.append_assoc _ _ _).symm, hkey, fun hn => if_pos hn⟩
  have R : Retop V nd (nd.setKey i val) := by
    refine ⟨rfl, rfl, rfl, View.P_setKey _ _ g.node.disc, fun j hj => ?_⟩
    by_cases hji : j = i
    · rw [hji, hat]
      exact hok _ _ (g.node.seen i hi)
    · rw [hne j hj hji]
      exact g.node.seen j hj
  refine ⟨Solo.out (Solo.put (solo_start g.node.live L (Or.inl rfl)) _) g L R (fun hc => ?_), rfl,
    rfl, hread⟩
  have h1 := hread.sum hc
  have h2 := g.sci hc
  show nd.scion + 0 = _
  rw [Sub.weight] at h2 ⊢
  omega

/-- The walk ends where the key is. -/
theorem replace_hit {T : Sub α (d + 1)} {val : α} (S : Setting V key K s) (g : Good V s.heap T)
    (L : Link s T.addrs T.addr p pi) (ho : Ordered K (T.flat V))
    (hr : (findkindex s T.top k).2 = 0) (hok : ∀ e v, V.ok (V.see e v) → V.ok (V.see val v))
    (fuel : Nat) :
    ∃ kp s' T', findnodekeyreplace k val (fuel + 1) T.addr s = some (some kp, s') ∧
      Replaces V key s s' T T' p pi kp k val := by
  obtain ⟨i, hi, hpos, hkey⟩ := hit_top S g ho hr
  obtain ⟨x, nd, kid, rfl⟩ := exists_node T
  simp only [Sub.top_node] at hpos hr hkey
  have hraw : setBTKeyRaw x i (.val val) s = some ((), s.setHeap x (some (nd.setKey i val))) :=
    setBTKeyRaw_run g.node.live rfl
  refine ⟨if s.s.narrow then .val (nd.keys i) else .slot x i, _, _, ?_, replace_top g L hi hkey hok⟩
  have hc : 0 ≤ (i : Int) ∧ (findkindex s nd k).2 = 0 := ⟨by omega, hr⟩
  simp only [findnodekeyreplace, Sub.addr_node, run_bind (run_get s), run_bind (getN_run g.node.live),
    hpos, if_pos hc, Int.toNat_natCast, run_bind (KEYS_run g.node.live i), run_bind hraw]
  rfl

theorem replace_run {val : α} (hok : ∀ e v, V.ok (V.see e v) → V.ok (V.see val v)) :
    ∀ {d : Nat} {s : Bt α} {T : Sub α (d + 1)} {p pi fuel : Nat}, d < fuel → Setting V key K s →
    Good V s.heap T → Link s T.addrs T.addr p pi → Ordered K (T.flat V) →
    (∃ b ∈ T.flat V, K b = key k) →
    ∃ kp s' T', findnodekeyreplace k val fuel T.addr s = some (some kp, s') ∧
      Replaces V key s s' T T' p pi kp k val := by
  intro d
  induction d with
  | zero =>
      intro s T p pi fuel hf S g L ho hmem
      obtain ⟨f, rfl⟩ : ∃ f, fuel = f + 1 := ⟨fuel - 1, by omega⟩
      have hr : (findkindex s T.top k).2 = 0 := by
        by_contra hr
        obtain ⟨b, hb, he⟩ := hmem
        obtain ⟨m, _, _, hin⟩ := miss_top S g ho hr
        have := hin b hb he
        simp [Sub.flat_nil] at this
      exact replace_hit S g L ho hr hok f
  | succ d ih =>
      intro s T p pi fuel hf S g L ho hmem
      obtain ⟨f, rfl⟩ : ∃ f, fuel = f + 1 := ⟨fuel - 1, by omega⟩
      by_cases hr : (findkindex s T.top k).2 = 0
      · exact replace_hit S g L ho hr hok f
      obtain ⟨m, hm, hpos, hin⟩ := miss_top S g ho hr
      obtain ⟨b, hb, he⟩ := hmem
      have hlow : V.t - 1 ≤ (T.kid m).size := by
        obtain ⟨x, nd, kid, rfl⟩ := exists_node T
        exact g.node.low (by omega) m hm
      have hoK := ho.kid hm
      obtain ⟨x, nd, kid, rfl⟩ := exists_node T
      have hl := g.inner
      have hm' : m ≤ nd.n := hm
      obtain ⟨kp, s₁, K', hrun, R⟩ := ih (show d < f by omega) S (g.kids m hm') (L.toKid g hm') hoK
        ⟨b, hin b hb he, he⟩
      have hsc : V.counts → 0 + (kid m).weight V = 0 + K'.weight V := by
        intro hc
        have := R.read.sum hc
        rw [Sub.weight, Sub.weight]
        omega
      have hsz : K'.size = (kid m).size := R.size
      obtain ⟨o, hflat⟩ := R.out.lift_same g L hm' (by rw [hsz]; exact hlow) hsc
      refine ⟨kp, s₁, _, ?_, o, R.quiet, rfl, ?_⟩
      · have hc : ¬ (0 ≤ (findkindex s nd k).1 ∧ (findkindex s nd k).2 = 0) := fun h => hr h.2
        have hnode : getNode x m s = some ((kid m).addr, s) := by
          rw [getNode_run g.node.live hl m, g.node.link (by omega) m hm']
        simp only [Sub.top_node] at hpos
        simp only [findnodekeyreplace, Sub.addr_node, run_bind (run_get s),
          run_bind (getN_run g.node.live), if_neg hc, hl, Bool.false_eq_true, if_false, hpos,
          Int.toNat_natCast, run_bind hnode]
        exact hrun
      · rw [hflat, (Sub.node x nd kid).flat_focus V hm]
        exact R.read.wrap _ _

/-- `bt_replace` overwrites the entry under `k`. -/
theorem btReplace_run {T : Sub α (d + 1)} {val : α} (W : Whole V s T) (S : Setting V key K s)
    (ho : Ordered K (T.flat V)) (hmem : ∃ b ∈ T.flat V, K b = key k)
    (hok : ∀ e v, V.ok (V.see e v) → V.ok (V.see val v)) :
    ∃ kp s', ∃ T' : Sub α (d + 1), btReplace k val s = some (some kp, s') ∧ Whole V s' T' ∧
      Rewritten V key s kp k val (T.flat V) (T'.flat V) ∧ s'.kit = s.kit ∧ s'.numkeys = s.numkeys ∧
      s'.globals = s.globals := by
  obtain ⟨kp, s', T', hrun, R⟩ := replace_run hok W.depth S W.good (W.link s.root 0) ho hmem
  have e := R.out.edit.rest
  refine ⟨kp, s', T', ?_, W.out R.out (fun h => ?_), R.read, congrArg (fun r => (r.1, r.2.2)) e,
    congrArg (fun r => r.2.1) e, R.quiet⟩
  · rw [btReplace, run_bind (run_get s), W.root]
    exact hrun
  · rw [R.size]
    exact W.inner h

end AlchemyDB
