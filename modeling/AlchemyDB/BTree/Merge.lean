/-
# `AlchemyDB.BTree.Merge` — two adjacent kids of a node

The runs of the merges (2c, 3b) and of the borrows (3a).  Each is executed on
the three nodes it touches, with `Focus`; what it leaves in them is a layout of
the kids' common sequence, so `Site.whole` and `Site.cut` give the tree.
-/
import AlchemyDB.BTree.Page
import AlchemyDB.BTree.Delete

namespace AlchemyDB

open Store Weave

variable {α β : Type} {d : Nat} {owe : Int}

/-! ## Three roles -/

/-- What belongs to the parent, to the left and to the right kid. -/
def tri {γ : Type} (a b c : γ) : Role → γ
  | .up => a
  | .lf => b
  | .rt => c

section Tri

variable {γ : Type} (a b c v : γ)

@[simp] theorem tri_up : tri a b c .up = a := rfl
@[simp] theorem tri_lf : tri a b c .lf = b := rfl
@[simp] theorem tri_rt : tri a b c .rt = c := rfl

@[simp] theorem upd_tri_up : upd (tri a b c) .up v = tri v b c := by
  funext r; cases r <;> rfl

@[simp] theorem upd_tri_lf : upd (tri a b c) .lf v = tri a v c := by
  funext r; cases r <;> rfl

@[simp] theorem upd_tri_rt : upd (tri a b c) .rt v = tri a b v := by
  funext r; cases r <;> rfl

end Tri

@[simp] theorem hang_tri_up (a b c : BtN α) (j v : Nat) :
    hang .up (tri a b c) .up j v = tri a b c := rfl

@[simp] theorem hang_tri_lf (a b c : BtN α) (j v : Nat) :
    hang .up (tri a b c) .lf j v = tri (a.setKid j v) b c := by
  simp [hang]

@[simp] theorem hang_tri_rt (a b c : BtN α) (j v : Nat) :
    hang .up (tri a b c) .rt j v = tri (a.setKid j v) b c := by
  simp [hang]

namespace Focus

variable {J : Job Role α} {s : Bt α} {x y z : Nat} {a b c : BtN α}

theorem up (F : Focus J .up s (tri x y z) (tri a b c)) : s.heap x = some a := F.live .up

theorem lf (F : Focus J .up s (tri x y z) (tri a b c)) : s.heap y = some b := F.live .lf

theorem rt (F : Focus J .up s (tri x y z) (tri a b c)) : s.heap z = some c := F.live .rt

theorem putUp (F : Focus J .up s (tri x y z) (tri a b c)) (nd : BtN α) :
    Focus J .up (s.setHeap x (some nd)) (tri x y z) (tri nd b c) := by
  simpa using F.write .up nd

theorem putLf (F : Focus J .up s (tri x y z) (tri a b c)) (nd : BtN α) :
    Focus J .up (s.setHeap y (some nd)) (tri x y z) (tri a nd c) := by
  simpa using F.write .lf nd

theorem putRt (F : Focus J .up s (tri x y z) (tri a b c)) (nd : BtN α) :
    Focus J .up (s.setHeap z (some nd)) (tri x y z) (tri a b nd) := by
  simpa using F.write .rt nd

/-- The kids hang from the parent. -/
theorem hangs_lf {j : Nat} (hl : a.leaf = false) (hj : a.nodes j = y) :
    Hangs J .up (tri x y z) (tri a b c) .lf x j :=
  Or.inr ⟨by simp, rfl, hl, hj⟩

theorem hangs_rt {j : Nat} (hl : a.leaf = false) (hj : a.nodes j = z) :
    Hangs J .up (tri x y z) (tri a b c) .rt x j :=
  Or.inr ⟨by simp, rfl, hl, hj⟩

theorem hangs_up : Hangs J .up (tri x y z) (tri a b c) .up J.p J.pi := Or.inl ⟨rfl, rfl, rfl⟩

end Focus

/-- The DR that the separator has when case 2c has put it behind the keys of `ny`: a DR
of zero is not written, so what the slot held before shows. -/
def drAfter2c (nd ny : BtN α) (l : Nat) : Nat := if nd.dr l = 0 then ny.dr ny.n else nd.dr l

/-- Two adjacent kids of a good node. -/
structure Pair (V : View α β) (owe : Int) (s : Bt α) (x : Nat) (nd : BtN α) (kid : Nat → Sub α (d + 1))
    (l y : Nat) (ny : BtN α) (ky : Nat → Sub α d) (z : Nat) (nz : BtN α) (kz : Nat → Sub α d)
    (p pi : Nat) : Prop where
  good : Owing V s.heap owe (Sub.node x nd kid)
  link : Link s (Sub.node x nd kid).addrs x p pi
  lt : l < nd.n
  y : kid l = Sub.node y ny ky
  z : kid (l + 1) = Sub.node z nz kz
  t : s.t = V.t

namespace Pair

variable {V : View α β} {s : Bt α} {x l y z p pi : Nat} {nd ny nz : BtN α}
  {kid : Nat → Sub α (d + 1)} {ky kz : Nat → Sub α d}

theorem site (B : Pair V owe s x nd kid l y ny ky z nz kz p pi) :
    Site V owe s x nd kid l 1 (ny.n + 1 + nz.n) (joinE ny.n (V.entry ny) (V.entry nd l) (V.entry nz))
      (joinF ny.n ky kz) p pi :=
  site_two B.good B.link B.lt B.y B.z

theorem goodY (B : Pair V owe s x nd kid l y ny ky z nz kz p pi) :
    Good V s.heap (Sub.node y ny ky) := B.y ▸ B.good.kids l (Nat.le_of_lt B.lt)

theorem goodZ (B : Pair V owe s x nd kid l y ny ky z nz kz p pi) :
    Good V s.heap (Sub.node z nz kz) := B.z ▸ B.good.kids (l + 1) B.lt

theorem mem_y (B : Pair V owe s x nd kid l y ny ky z nz kz p pi) {b : Nat}
    (h : b ∈ (Sub.node y ny ky).addrs) : b ∈ (Sub.node x nd kid).addrs :=
  Sub.kid_mem (Nat.le_of_lt B.lt) (B.y ▸ h)

theorem mem_z (B : Pair V owe s x nd kid l y ny ky z nz kz p pi) {b : Nat}
    (h : b ∈ (Sub.node z nz kz).addrs) : b ∈ (Sub.node x nd kid).addrs :=
  Sub.kid_mem B.lt (B.z ▸ h)

/-- The parent is no leaf, and its pointers lead to the kids. -/
theorem nodes (B : Pair V owe s x nd kid l y ny ky z nz kz p pi) :
    nd.leaf = false ∧ nd.nodes l = y ∧ nd.nodes (l + 1) = z := by
  have ok := B.good.node
  refine ⟨?_, ?_, ?_⟩
  · have : ¬ nd.leaf = true := fun h => absurd (ok.leaf.1 h) (by omega)
    simpa using this
  · rw [ok.link (by omega) l (Nat.le_of_lt B.lt), B.y]
    rfl
  · rw [ok.link (by omega) (l + 1) B.lt, B.z]
    rfl

theorem inj (B : Pair V owe s x nd kid l y ny ky z nz kz p pi) :
    ∀ r q, tri x y z r = tri x y z q → r = q := by
  have ok := B.good.node
  have hxy : x ≠ y := by
    intro e
    apply ok.apart l (Nat.le_of_lt B.lt)
    rw [B.y, e]
    exact Or.inl rfl
  have hxz : x ≠ z := by
    intro e
    apply ok.apart (l + 1) B.lt
    rw [B.z, e]
    exact Or.inl rfl
  have hyz : y ≠ z := by
    intro e
    apply ok.disj l (Nat.le_of_lt B.lt) (l + 1) B.lt (by omega) y
    · rw [B.y]
      exact Or.inl rfl
    · rw [B.z, e]
      exact Or.inl rfl
  intro r q h
  cases r <;> cases q <;> simp_all

/-- The three nodes in their roles. -/
theorem focus (B : Pair V owe s x nd kid l y ny ky z nz kz p pi) :
    Focus ⟨s, tri x y z, p, pi⟩ .up s (tri x y z) (tri nd ny nz) := by
  refine Focus.start' (fun r => ?_) B.inj (B.link.mono ?_)
  · cases r
    · exact B.good.node.live
    · exact B.goodY.node.live
    · exact B.goodZ.node.live
  · rintro b ⟨r, rfl⟩
    cases r
    · exact Or.inl rfl
    · exact B.mem_y (Or.inl rfl)
    · exact B.mem_z (Or.inl rfl)

theorem cast (B : Pair V owe s x nd kid l y ny ky z nz kz p pi) :
    Cast s x nd kid l 1 p pi ⟨s, tri x y z, p, pi⟩ := by
  refine ⟨rfl, rfl, rfl, rfl, fun r hr => Or.inl ?_, fun m hm => ?_⟩
  · cases r
    · exact absurd rfl hr
    · exact ⟨0, by omega, by rw [Nat.add_zero l, B.y]; rfl⟩
    · exact ⟨1, by omega, by rw [B.z]; rfl⟩
  · obtain rfl | rfl : m = 0 ∨ m = 1 := by omega
    · exact ⟨.lf, by rw [Nat.add_zero l, B.y]; rfl⟩
    · exact ⟨.rt, by rw [B.z]; rfl⟩

end Pair

/-! ## The end of a merge -/

/-- The parent has lost key `l` and the kid after it; its kid `l` is at `a`. -/
structure Closed (V : View α β) (nd nd' : BtN α) (l a : Nat) : Prop where
  disc : V.P nd'
  num : nd'.n = nd.n - 1
  leaf : nd'.leaf = nd.leaf
  scion : nd'.scion = nd.scion
  entL : ∀ j < l, V.entry nd' j = V.entry nd j
  entR : ∀ j, l ≤ j → j + 1 < nd.n → V.entry nd' j = V.entry nd (j + 1)
  nodL : ∀ j < l, nd'.nodes j = nd.nodes j
  nodI : nd'.nodes l = a
  nodR : ∀ j, l < j → j < nd.n → nd'.nodes j = nd.nodes (j + 1)

/-- Behind its first `m` keys and kids, `ny` has got those of `nz`, whose kids have the
scions `f`. -/
structure Joined (V : View α β) (ny nz nd : BtN α) (m : Nat) (f : Nat → Int) : Prop where
  disc : V.P nd
  num : nd.n = ny.n + nz.n
  leaf : nd.leaf = nz.leaf
  entL : ∀ j < m, V.entry nd j = V.entry ny j
  entR : ∀ j < nz.n, V.entry nd (m + j) = V.entry nz j
  nodL : ∀ j < m, nd.nodes j = ny.nodes j
  nodR : nz.leaf = false → ∀ j ≤ nz.n, nd.nodes (m + j) = nz.nodes j
  scion : nd.scion = ny.scion + ((List.range nz.n).map (fun j => 1 + (nz.dr j : Int))).sum +
    if nz.leaf then 0 else ((List.range (nz.n + 1)).map f).sum

/-- What the parent held in slot `l` does not matter. -/
theorem Closed.of_ne {V : View α β} {nd nd₀ nd' : BtN α} {l a : Nat} (C : Closed V nd₀ nd' l a)
    (hn : nd₀.n = nd.n) (hl : nd₀.leaf = nd.leaf) (hs : nd₀.scion = nd.scion)
    (he : ∀ j, j ≠ l → V.entry nd₀ j = V.entry nd j)
    (hk : ∀ j, j ≠ l → nd₀.nodes j = nd.nodes j) : Closed V nd nd' l a := by
  refine ⟨C.disc, hn ▸ C.num, hl ▸ C.leaf, hs ▸ C.scion, ?_, ?_, ?_, C.nodI, ?_⟩
  · exact fun j hj => (C.entL j hj).trans (he j (by omega))
  · exact fun j hj hj' => (C.entR j hj (by omega)).trans (he _ (by omega))
  · exact fun j hj => (C.nodL j hj).trans (hk j (by omega))
  · exact fun j hj hj' => (C.nodR j hj (by omega)).trans (hk _ (by omega))

section MergeEnd

variable {V : View α β} {J : Job Role α} {s : Bt α} {x l y z : Nat} {nd ny nz : BtN α}

/-- The parent closes the gap. -/
theorem closeGap_run (F : Focus J .up s (tri x y z) (tri nd ny nz)) (hV : J.s.t = V.t)
    (hP : V.P nd) (hok : ∀ j < nd.n, j ≠ l → V.ok (V.entry nd j)) (hx : nd.leaf = false)
    (hl : nd.nodes l = y) (hn : l < nd.n) (drt : Bool) :
    ∃ s' nd', (do
        let ndx ← getN x
        let (x, _) ← mvXKeys x l x (l + 1) (ndx.n - l - 1) J.p J.pi
        mvXNodes x (l + 1) x (l + 2) (ndx.n - l - 1)
        let x ← trimBTN x drt
        freeN z
        pure (x, y) : BtM α (Nat × Nat)) s = some ((x, y), s'.setHeap z none) ∧
      Focus J .up s' (tri x y z) (tri nd' ny nz) ∧ Closed V nd nd' l y := by
  obtain ⟨nd₁, hfold, hp₁, hl₁, he1, he2, -, -⟩ := View.slide_down (V := V) (i := l)
    (f := fun nd m => nd.mvIn V.t (l + m) (l + 1 + m))
    (fun nd m h => View.slid_mvIn h (by omega)) (nd.n - l - 1) nd hP
  have hmv := mvXKeys_in F.up l (l + 1) (nd.n - l - 1) J.p J.pi
  simp only [mvXKeysOrder, if_neg (show ¬ l ≥ l + 1 by omega), F.t, hV, hfold] at hmv
  have F₁ := F.putUp nd₁
  have hx₁ : nd₁.leaf = false := hl₁.leaf.trans hx
  have hmn := mvXNodes_run F₁.up F₁.up hx₁ hx₁ (l + 1) (l + 2) (nd.n - l - 1)
  have F₂ := F₁.putUp (nd₁.mvKids nd₁.nodes (l + 1) (l + 2) (nd.n - l - 1))
  have htr := trimBTN_run F₂.up drt
  rw [F₂.t, hV] at htr
  have F₃ := F₂.putUp ((nd₁.mvKids nd₁.nodes (l + 1) (l + 2) (nd.n - l - 1)).trim V.t drt)
  refine ⟨_, _, ?_, F₃, ?_⟩
  · simp only [run_bind (getN_run F.up), run_bind hmv, run_bind hmn, run_bind htr,
      run_bind (freeN_run F₃.rt)]
    rfl
  · have hP₂ : V.P (nd₁.mvKids nd₁.nodes (l + 1) (l + 2) (nd.n - l - 1)) := View.P_mvKids hp₁
    have hent : ∀ j < nd.n, V.entry ((nd₁.mvKids nd₁.nodes (l + 1) (l + 2)
        (nd.n - l - 1)).trim V.t drt) j = V.entry nd₁ j := by
      intro j hj
      rw [View.entry_trim drt hP₂ (by have := hl₁.n; simp only [BtN.mvKids_n]; omega)]
      rfl
    refine ⟨View.P_trim drt hP₂, by simp [hl₁.n], by simp [hl₁.leaf], by simp [hl₁.scion],
      ?_, ?_, ?_, ?_, ?_⟩
    · intro j hj
      rw [hent j (by omega), he2 j (by omega) (hok j (by omega) (by omega))]
    · intro j hj hj'
      rw [hent j (by omega), he1 j hj (by omega) (hok _ hj' (by omega))]
    · intro j hj
      rw [BtN.trim_nodes, BtN.mvKids_out (by omega), hl₁.nodes]
    · rw [BtN.trim_nodes, BtN.mvKids_out (by omega), hl₁.nodes, hl]
    · intro j hj hj'
      obtain ⟨m, rfl⟩ : ∃ m, j = l + 1 + m := ⟨j - (l + 1), by omega⟩
      rw [BtN.trim_nodes, BtN.mvKids_in (by omega), hl₁.nodes]
      congr 1
      omega

/-- What the runs below need to know about the kids of the right node: live nodes that
play no role, with the scions `f`. -/
def KidsLive (J : Job Role α) (nz : BtN α) (f : Nat → Int) : Prop :=
  nz.leaf = false → ∀ {s : Bt α} {ad : Role → Nat} {ct : Role → BtN α}, Focus J .up s ad ct →
    ∀ j ≤ nz.n, ∃ c, s.heap (nz.nodes j) = some c ∧ c.scion = f j ∧ ∀ r, nz.nodes j ≠ ad r

/-- The kids of the right node follow those of the left one. -/
theorem moveKids_run {f : Nat → Int} (F : Focus J .up s (tri x y z) (tri nd ny nz))
    (hPy : V.P ny) (hleaf : ny.leaf = nz.leaf) {m : Nat}
    (hf : nz.leaf = false → ∀ j < m, ∃ c, s.heap (nz.nodes j) = some c ∧ c.scion = f j ∧
      nz.nodes j ≠ y) (yo : Nat) :
    ∃ s' ny', unlessLeaf nz.leaf (do
        moveScion y z m
        mvXNodes y yo z 0 m) s = some ((), s') ∧
      Focus J .up s' (tri x y z) (tri nd ny' nz) ∧ V.P ny' ∧ ny'.n = ny.n ∧
      ny'.leaf = ny.leaf ∧ (∀ j, V.entry ny' j = V.entry ny j) ∧
      (∀ j < yo, ny'.nodes j = ny.nodes j) ∧
      (nz.leaf = false → ∀ j < m, ny'.nodes (yo + j) = nz.nodes j) ∧
      ny'.scion = ny.scion + if nz.leaf then 0 else ((List.range m).map f).sum := by
  cases hz : nz.leaf with
  | true =>
      exact ⟨s, ny, rfl, F, hPy, rfl, rfl, fun _ => rfl, fun _ _ => rfl, by simp, by simp⟩
  | false =>
      have hzy : z ≠ y := fun e => by simpa using F.inj .rt .lf e
      have hm := moveScion_run F.rt hz F.lf hzy (hf hz)
      have F₁ := F.putLf (ny.addSc ((List.range m).map f).sum)
      have hmn := mvXNodes_run F₁.lf F₁.rt (hleaf.trans hz) hz yo 0 m
      refine ⟨_, (ny.addSc ((List.range m).map f).sum).mvKids nz.nodes yo 0 m, ?_, F₁.putLf _,
        View.P_mvKids (View.P_addSc _ hPy), rfl, rfl, fun _ => rfl, ?_, ?_, rfl⟩
      · simp only [unlessLeaf, Bool.false_eq_true, if_false, run_bind hm, hmn]
      · exact fun j hj => BtN.mvKids_out (Or.inl hj)
      · intro _ j hj
        rw [BtN.mvKids_in hj, Nat.zero_add]

theorem mergeEnd_run {f : Nat → Int} (F : Focus J .up s (tri x y z) (tri nd ny nz))
    (hV : J.s.t = V.t) (hP : V.P nd) (hPy : V.P ny) (hPz : V.P nz) (yn : Nat)
    (hok : ∀ j < nd.n, j ≠ l → V.ok (V.entry nd j)) (hoky : ∀ j < yn + 1, V.ok (V.entry ny j))
    (hokz : ∀ j < nz.n, V.ok (V.entry nz j)) (hx : nd.leaf = false)
    (hl : nd.nodes l = y) (hn : l < nd.n) (hleaf : ny.leaf = nz.leaf) (hf : KidsLive J nz f)
    (drt : Bool) :
    ∃ a s' nd' ny' nz', mergeEnd x l y z yn nz.leaf drt J.p J.pi s =
        some ((x, a), s'.setHeap z none) ∧
      Focus J .up s' (tri x a z) (tri nd' ny' nz') ∧ Closed V nd nd' l a ∧
      Joined V ny nz ny' (yn + 1) f := by
  have hsc := getScionRange_run F.rt nz.n
  generalize hsum : ((List.range nz.n).map (fun j => 1 + (nz.dr j : Int))).sum = sc at hsc
  have hPy₁ : V.P (ny.addSc sc) := View.P_addSc sc hPy
  have F₁ := F.putLf (ny.addSc sc)
  obtain ⟨a, s₂, hmv, F₂⟩ := Focus.mvXKeys (r := .lf) (q := .rt) (by simp) (by simp) F₁
    (Focus.hangs_lf hx hl) (yn + 1) 0 nz.n
  obtain ⟨ny₂, nz₂, hfold, hp₂, hk₂, -, hkz, he1, he2⟩ :=
    View.pass_down (V := V) (f := fun w i => BtN.mvAcross V.t w (yn + 1 + i) (0 + i))
      (yn + 1) 0 (fun nd ns m h h' => View.passed_mv h h') nz.n _ _ hPy₁ hPz
  simp only [hV, mvXKeysOrder, if_pos (Nat.zero_le (yn + 1)), tri_lf, tri_rt, hfold, hang_tri_lf,
    upd_tri_lf, upd_tri_rt, ge_iff_le] at hmv F₂
  obtain ⟨s₃, ny₃, hmid, F₃, hp₃, h3n, h3l, h3e, h3o, h3i, h3s⟩ := moveKids_run F₂ hp₂
    (by rw [hk₂.leaf, hkz.leaf]; exact hleaf) (m := nz.n + 1) (f := f) (by
      intro hz j hj
      rw [hkz.leaf] at hz
      obtain ⟨c, h1, h2, h3⟩ := hf hz F₂ j (by omega)
      rw [hkz.nodes]
      exact ⟨c, h1, h2, h3 .lf⟩) (yn + 1)
  have F₄ := F₃.putLf (ny₃.addN nz.n)
  obtain ⟨s', nd', hclose, F', hC⟩ := closeGap_run F₄ hV (View.P_setKid l a hP) hok hx
    (upd_same _ _ _) hn drt
  refine ⟨a, s', nd', ny₃.addN nz.n, nz₂, ?_, F', ?_, ?_⟩
  · rw [hkz.leaf] at hmid
    simp only [mergeEnd, run_bind (getN_run F.rt), run_bind hsc, run_bind (incrScion_run F.lf _),
      run_bind hmv, run_bind hmid, run_bind (addN_run F₃.lf _)]
    exact hclose
  · refine ⟨hC.disc, hC.num, hC.leaf, hC.scion, hC.entL, hC.entR, ?_, hC.nodI, ?_⟩
    · intro j hj
      rw [hC.nodL j hj, BtN.setKid_nodes, upd_ne _ _ (by omega)]
    · intro j hj hj'
      rw [hC.nodR j hj hj', BtN.setKid_nodes, upd_ne _ _ (by omega)]
  · refine ⟨View.P_addN _ hp₃, ?_, ?_, ?_, ?_, ?_, ?_, ?_⟩
    · rw [BtN.addN_n, h3n, hk₂.n, BtN.addSc_n]
    · rw [BtN.addN_leaf, h3l, hk₂.leaf]
      exact hleaf
    · intro j hj
      exact (h3e j).trans (he2 j (Or.inl hj) (hoky j hj))
    · intro j hj
      have h := he1 (yn + 1 + j) (by omega) (by omega)
      rw [show yn + 1 + j - (yn + 1) + 0 = j by omega] at h
      exact (h3e _).trans (h (hokz j hj))
    · intro j hj
      exact (h3o j hj).trans (by rw [hk₂.nodes, BtN.addSc_nodes])
    · intro hz j hj
      exact (h3i (hkz.leaf.trans hz) j (by omega)).trans (by rw [hkz.nodes])
    · rw [BtN.addN_scion, h3s, hk₂.scion, hkz.leaf, BtN.addSc_scion, hsum]

end MergeEnd

/-! ## Merges -/

namespace Pair

variable {V : View α β} {s : Bt α} {x l y z p pi : Nat} {nd ny nz : BtN α}
  {kid : Nat → Sub α (d + 1)} {ky kz : Nat → Sub α d}

theorem kidsLive (B : Pair V owe s x nd kid l y ny ky z nz kz p pi) :
    KidsLive ⟨s, tri x y z, p, pi⟩ nz (fun j => (kz j).scion) := by
  intro hz s' ad ct F j hj
  have S := B.site
  have hd : d ≠ 0 := fun h => by
    have := B.goodZ.node.leaf.2 h
    simp [hz] at this
  have h := S.live_kid B.cast F hd (j := ny.n + 1 + j) (by omega)
  rw [show joinF ny.n ky kz (ny.n + 1 + j) = kz j from joinF_gt] at h
  rwa [B.goodZ.node.link hd j hj]

/-- The weight of the right kid, in the numbers the code adds up. -/
theorem weightZ (B : Pair V owe s x nd kid l y ny ky z nz kz p pi) (hc : V.counts) :
    ((weave nz.n (V.entry nz) (fun j => (kz j).flat V)).map V.wt).sum =
      ((List.range nz.n).map (fun j => 1 + (nz.dr j : Int))).sum +
        if nz.leaf then 0 else ((List.range (nz.n + 1)).map (fun j => (kz j).scion)).sum := by
  rw [sum_weave]
  congr 1
  · congr 1
    refine List.map_congr_left (fun j _ => ?_)
    exact V.wt_see hc _ _
  · have hg : ∀ j ≤ nz.n, (((kz j).flat V).map V.wt).sum = (kz j).scion :=
      fun j hj => ((B.goodZ.kids j hj).scion hc).symm
    have hs : ((List.range (nz.n + 1)).map (fun j => (((kz j).flat V).map V.wt).sum)).sum =
        ((List.range (nz.n + 1)).map (fun j => (kz j).scion)).sum := by
      congr 1
      refine List.map_congr_left (fun j hj => hg j ?_)
      have := List.mem_range.1 hj
      omega
    rw [hs]
    split_ifs with hl
    · obtain rfl : d = 0 := B.goodZ.node.leaf.1 hl
      refine List.sum_eq_zero (fun n hn => ?_)
      obtain ⟨j, _, rfl⟩ := List.mem_map.1 hn
      cases kz j
      rfl
    · rfl

/-- The kids are at most as full as they may be. -/
theorem low (B : Pair V owe s x nd kid l y ny ky z nz kz p pi) :
    V.t - 1 ≤ ny.n ∧ V.t - 1 ≤ nz.n := by
  have h1 := B.good.node.low (by omega) l (Nat.le_of_lt B.lt)
  have h2 := B.good.node.low (by omega) (l + 1) B.lt
  rw [B.y] at h1
  rw [B.z] at h2
  exact ⟨h1, h2⟩

theorem leaf_eq (B : Pair V owe s x nd kid l y ny ky z nz kz p pi) : ny.leaf = nz.leaf := by
  rw [Bool.eq_iff_iff, B.goodY.node.leaf, B.goodZ.node.leaf]

/-- The nodes of the run are nodes of the tree. -/
theorem addrs_union (B : Pair V owe s x nd kid l y ny ky z nz kz p pi) :
    (Sub.node x nd kid).addrs ∪ Set.range (tri x y z) = (Sub.node x nd kid).addrs := by
  refine Set.union_eq_left.2 ?_
  rintro b ⟨r, rfl⟩
  cases r
  · exact Or.inl rfl
  · exact B.mem_y (Or.inl rfl)
  · exact B.mem_z (Or.inl rfl)

/-- The tree after a merge, from what the run left in the nodes: the left kid holds its
keys, the separator `e` and the keys of the right kid. -/
theorem merged (B : Pair V owe s x nd kid l y ny ky z nz kz p pi) {a : Nat} {s' : Bt α}
    {nd' ny₁ ny' nz' : BtN α} {e : β}
    (F : Focus ⟨s, tri x y z, p, pi⟩ .up s' (tri x a z) (tri nd' ny' nz'))
    (C : Closed V nd nd' l a) (K : Joined V ny₁ nz ny' (ny.n + 1) (fun j => (kz j).scion))
    (hfull : ny.n + 1 + nz.n ≤ 2 * V.t - 1) (hn : ny₁.n = ny.n + 1)
    (hent : ∀ j < ny.n, V.entry ny₁ j = V.entry ny j) (he : V.entry ny₁ ny.n = e)
    (hok : V.ok e) (hnod : ny₁.nodes = ny.nodes)
    (hsc : V.counts → ny₁.scion = ny.scion + V.wt e ∧ V.wt e = V.wt (V.entry nd l)) :
    ∃ T' : Sub α (d + 2), Out V owe s (s'.setHeap z none) (Sub.node x nd kid) T' p pi ∧
      T'.addr = x ∧ T'.top = nd' ∧ (T'.kid l).addr = a ∧ (T'.kid l).top = ny' ∧
      T'.pre V l = (Sub.node x nd kid).pre V l ∧
      T'.post V l = (Sub.node x nd kid).post V (l + 1) ∧
      (T'.kid l).flat V = (Sub.node y ny ky).flat V ++ e :: (Sub.node z nz kz).flat V ∧
      Within V (Sub.node y ny ky) (T'.kid l) 0 ∧
      Within V (Sub.node z nz kz) (T'.kid l) (ny.n + 1) ∧
      V.entry (T'.kid l).top ny.n = e ∧
      Spans V (T'.kid l) (joinE ny.n (V.entry ny) e (V.entry nz)) (joinF ny.n ky kz) 0
        (ny.n + 1 + nz.n) := by
  have hl := B.lt
  have hlow := B.low
  have hN := C.num
  have U : UpOk V nd nd' l 1 0 := by
    refine ⟨by omega, ?_, C.leaf, C.disc, C.scion, C.entL, ?_, C.nodL, ?_⟩
    · have := B.good.node.fill
      omega
    · intro j hj hj'
      have := C.entR (j - 1) (by omega) (by omega)
      rwa [Nat.sub_add_cancel (by omega)] at this
    · intro j hj hj'
      have := C.nodR (j - 1) (by omega) (by omega)
      rwa [Nat.sub_add_cancel (by omega)] at this
  have hleaf : ny'.leaf = true ↔ d = 0 := by
    rw [K.leaf]
    exact B.goodZ.node.leaf
  have P : PartOk V ny' (joinE ny.n (V.entry ny) e (V.entry nz)) (joinF ny.n ky kz) 0
      (ny.n + 1 + nz.n) := by
    refine ⟨by have := K.num; omega, hleaf, hfull, by omega, K.disc, ?_, ?_, ?_, ?_⟩
    · intro j hj
      rw [Nat.zero_add]
      rcases Nat.lt_trichotomy j ny.n with h | h | h
      · rw [joinE_lt h, K.entL j (by omega), hent j h]
      · rw [h, joinE_at, K.entL _ (by omega), he]
      · obtain ⟨m, rfl⟩ : ∃ m, j = ny.n + 1 + m := ⟨j - (ny.n + 1), by omega⟩
        rw [joinE_gt, K.entR m (by omega)]
    · intro j hj
      rw [Nat.zero_add]
      rcases Nat.lt_trichotomy j ny.n with h | h | h
      · rw [joinE_lt h]
        exact B.goodY.node.seen j h
      · rw [h, joinE_at]
        exact hok
      · obtain ⟨m, rfl⟩ : ∃ m, j = ny.n + 1 + m := ⟨j - (ny.n + 1), by omega⟩
        rw [joinE_gt]
        exact B.goodZ.node.seen m (by omega)
    · intro hd j hj
      rw [Nat.zero_add]
      by_cases h : j ≤ ny.n
      · rw [joinF_le h, K.nodL j (by omega), hnod, B.goodY.node.link hd j h]
      · obtain ⟨m, rfl⟩ : ∃ m, j = ny.n + 1 + m := ⟨j - (ny.n + 1), by omega⟩
        have hz : nz.leaf = false := by
          rw [← K.leaf]
          simpa using fun h => hd (hleaf.1 h)
        rw [joinF_gt, K.nodR hz m (by omega), B.goodZ.node.link hd m (by omega)]
    · intro hc
      have hy := B.goodY.sci hc
      have hz := B.weightZ hc
      simp only [Nat.zero_add]
      rw [read_join V y z, sum_wt_append, List.map_cons, List.sum_cons, K.scion, (hsc hc).1, hy,
        Sub.flat_node V z, hz]
      simp only [Sub.weight]
      omega
  have hw := B.site.whole B.cast F U C.nodI P (fun hc => by
    rw [read_join V y z, read_join V y z]
    simp [(hsc hc).2])
  obtain ⟨hg, -, hedit, hnot, hpre, hpost⟩ := hw
  rw [B.addrs_union] at hedit
  have hk := Site.wholeTree_kid kid (tri x a z) (tri nd' ny' nz') (joinF ny.n ky kz) l 1
  refine ⟨_, ⟨hg.frame (fun b hb => ?_), hedit.free (B.mem_z (Or.inl rfl))⟩, rfl, rfl, by rw [hk]; rfl,
    by rw [hk]; rfl, hpre, hpost, ?_, ?_, ?_, ?_, ?_⟩
  · have : b ≠ z := fun e => hnot (e ▸ hb)
    simp [this]
  · rw [hk]
    refine (Site.part_flat P).trans ?_
    simp only [Nat.zero_add]
    exact read_join V y z ny nz ky kz e
  · rw [hk]
    refine Site.part_within P (by omega) (fun j hj => ?_) (fun j hj => ?_)
    · rw [Nat.zero_add, Nat.zero_add, joinE_lt hj]
    · rw [Nat.zero_add, Nat.zero_add, joinF_le hj]
  · rw [hk]
    refine Site.part_within P (Nat.le_refl _) (fun j hj => ?_) (fun j hj => ?_)
    · rw [Nat.zero_add, joinE_gt]
    · rw [Nat.zero_add, joinF_gt]
  · rw [hk]
    exact (P.ent ny.n (by omega)).trans (by rw [Nat.zero_add, joinE_at])
  · rw [hk]
    exact P.spans _

/-- Case 3b. -/
theorem mergeCase3b_run (B : Pair V owe s x nd kid l y ny ky z nz kz p pi) {drt : Bool}
    (hfull : ny.n + 1 + nz.n ≤ 2 * V.t - 1)
    (hdr : drt = false → V.see (nd.keys l) (ny.dr ny.n) = V.entry nd l) :
    ∃ a s' T', mergeCase3b x l drt p pi s = some ((x, a), s') ∧ s'.globals = s.globals ∧
      Out V owe s s' (Sub.node x nd kid) T' p pi ∧ T'.addr = x ∧ T'.size = nd.n - 1 ∧
      (T'.kid l).addr = a ∧ (T'.kid l).size = ny.n + 1 + nz.n ∧
      Grown V (Sub.node x nd kid) T' l l ∧ Grown V (Sub.node x nd kid) T' (l + 1) l ∧
      Within V (kid l) (T'.kid l) 0 ∧ Within V (kid (l + 1)) (T'.kid l) (ny.n + 1) ∧
      Spans V (T'.kid l) (joinE ny.n (V.entry ny) (V.entry nd l) (V.entry nz)) (joinF ny.n ky kz) 0
        (ny.n + 1 + nz.n) := by
  obtain ⟨hx, hy, hz⟩ := B.nodes
  have F := B.focus
  have F₁ := F.putLf (ny.addSc (1 + nd.dr l))
  have F₂ := F₁.putLf ((ny.addSc (1 + nd.dr l)).addN 1)
  obtain ⟨a, s₃, hset, F₃⟩ := F₂.setBTKey (r := .lf) (q := .up) (Focus.hangs_lf hx hy) (by simp)
    ny.n l drt
  simp only [tri_lf, tri_up, hang_tri_lf, upd_tri_lf, upd_tri_up, B.t] at hset F₃
  have hcp := View.passed_cp drt ny.n l
    (View.P_addN 1 (View.P_addSc (1 + nd.dr l) B.goodY.node.disc)) B.good.node.disc hdr
  have hPx := V.zero l (View.P_setKid l a B.good.node.disc)
  have hoff : ∀ j, j ≠ l → V.entry ((nd.setKid l a).zDR V.t l) j = V.entry nd j := by
    intro j hj
    have := V.see_zero_ne (nd.keys j) (View.P_setKid l a B.good.node.disc) hj
    simpa [View.entry] using this
  have hent : ∀ j < ny.n, V.entry (((ny.addSc (1 + nd.dr l)).addN 1).cpDst V.t nd ny.n l drt) j =
      V.entry ny j := fun j hj => (hcp.off j (by omega) (B.goodY.node.seen j hj)).trans rfl
  obtain ⟨a', s', nd', ny', nz', hend, F', C, K⟩ := mergeEnd_run (l := l) F₃ B.t hPx hcp.ok
    B.goodZ.node.disc ny.n
    (fun j hj hj' => by
      rw [hoff j hj']
      exact B.good.node.seen j (by simpa using hj))
    (fun j hj => by
      rcases Nat.lt_succ_iff_lt_or_eq.1 hj with h | rfl
      · rw [hent j h]
        exact B.goodY.node.seen j h
      · rw [hcp.here]
        exact B.good.node.seen l B.lt)
    B.goodZ.node.seen (by simpa using hx) (by simp) (by simpa using B.lt)
    (hcp.like.leaf.trans B.leaf_eq) B.kidsLive drt
  have C' : Closed V nd nd' l a' :=
    C.of_ne (by simp) (by simp) (by simp) hoff (fun j hj => by simp [hj])
  have hnum := C'.num
  obtain ⟨T', hout, hx', hn', ha', hs', hpre, hpost, hflat, hwy, hwz, hsep', hsp⟩ := B.merged F' C' K hfull
    (by rw [hcp.like.n]; rfl) hent hcp.here (B.good.node.seen l B.lt)
    (by rw [hcp.like.nodes]; rfl)
    (fun hc => ⟨by rw [hcp.like.scion]; exact congrArg (ny.scion + ·) (V.wt_see hc _ _).symm,
      rfl⟩)
  refine ⟨a', s'.setHeap z none, T', ?_, F'.quiet, hout, hx', ?_, ha', ?_, ?_, ?_,
    B.y ▸ hwy, B.z ▸ hwz, hsp⟩
  · simp only [mergeCase3b, run_bind (getNode_run F.up hx _), hy, hz, run_bind (getN_run F.up),
      run_bind (incrScion_run F.lf _), run_bind (getN_run F₁.lf), run_bind (addN_run F₁.lf _),
      BtN.addSc_n, run_bind hset, run_bind (getN_run F₃.rt)]
    exact hend
  · rw [Sub.size_top, hn', hnum]
  · rw [Sub.size_top, hs', K.num, hcp.like.n]
    rfl
  · refine ⟨[], V.entry nd l :: (Sub.node z nz kz).flat V, by simp [hpre], ?_, ?_⟩
    · rw [hpost, Sub.post_succ V _ B.lt, Sub.kid_node, B.z]
      rfl
    · rw [hflat, Sub.kid_node, B.y]
      rfl
  · refine ⟨(Sub.node y ny ky).flat V ++ [V.entry nd l], [], ?_, by simp [hpost], ?_⟩
    · rw [hpre, Sub.pre_succ, Sub.kid_node, B.y]
      rfl
    · rw [hflat, Sub.kid_node, B.z]
      simp

/-- Case 2c: the separator becomes `k`. -/
theorem mergeCase2c_run (B : Pair V owe s x nd kid l y ny ky z nz kz p pi) (k : α) (drt : Bool)
    (hfull : ny.n + 1 + nz.n ≤ 2 * V.t - 1) (hok : V.ok (V.see k (drAfter2c nd ny l)))
    (hdr : V.counts → drAfter2c nd ny l = nd.dr l) :
    ∃ a s' T', mergeCase2c x l k drt p pi s = some ((x, a), s') ∧ s'.globals = s.globals ∧
      Out V owe s s' (Sub.node x nd kid) T' p pi ∧ T'.addr = x ∧ T'.size = nd.n - 1 ∧
      (T'.kid l).addr = a ∧ (T'.kid l).size = ny.n + 1 + nz.n ∧
      T'.pre V l = (Sub.node x nd kid).pre V l ∧
      T'.post V l = (Sub.node x nd kid).post V (l + 1) ∧
      (T'.kid l).flat V = (Sub.node y ny ky).flat V ++
        V.see k (drAfter2c nd ny l) :: (Sub.node z nz kz).flat V ∧
      Within V (Sub.node y ny ky) (T'.kid l) 0 ∧
      Within V (Sub.node z nz kz) (T'.kid l) (ny.n + 1) ∧
      V.entry (T'.kid l).top ny.n = V.see k (drAfter2c nd ny l) := by
  obtain ⟨hx, hy, hz⟩ := B.nodes
  have hP := B.good.node.disc
  have hPy : V.P (ny.addSc (1 + nd.dr l)) := View.P_addSc _ B.goodY.node.disc
  have hv := V.fits_dr l hP
  have F := B.focus
  have F₁ := F.putLf (ny.addSc (1 + nd.dr l))
  obtain ⟨a, s₂, hset, F₂⟩ := F₁.setDR (r := .lf) (Focus.hangs_lf hx hy) ny.n (nd.dr l)
  simp only [tri_lf, hang_tri_lf, upd_tri_lf, B.t] at hset F₂
  generalize hny : (ny.addSc (1 + nd.dr l)).stDR V.t ny.n (nd.dr l) = ny₂ at hset F₂
  have hP₂ : V.P ny₂ := hny ▸ V.set ny.n hPy hv
  have hL₂ : ny₂.keys = ny.keys ∧ ny₂.n = ny.n ∧ ny₂.leaf = ny.leaf ∧ ny₂.nodes = ny.nodes ∧
      ny₂.scion = ny.scion + (1 + nd.dr l) := by
    subst hny
    simp
  obtain ⟨hk₂, hn₂, hl₂, hd₂, hs₂⟩ := hL₂
  have hoff : ∀ j < ny.n, V.entry ny₂ j = V.entry ny j := by
    intro j hj
    rw [View.entry, hk₂, ← hny, V.see_set_ne _ hPy hv (Nat.ne_of_lt hj)]
    · rfl
    · exact B.goodY.node.seen j hj
  have hat : V.see k (ny₂.dr ny.n) = V.see k (drAfter2c nd ny l) := by
    unfold drAfter2c
    split_ifs with h0
    · rw [← hny, h0, BtN.stDR, if_pos rfl]
      rfl
    · rw [← hny, V.see_set_at _ _ hPy hv h0]
  have hraw : setBTKeyRaw a ny.n (.val k) s₂ = _ := setBTKeyRaw_run F₂.lf (k := k) rfl
  have F₃ := F₂.putLf (ny₂.setKey ny.n k)
  have F₄ := F₃.putLf ((ny₂.setKey ny.n k).addN 1)
  have hent : ∀ j < ny.n, V.entry ((ny₂.setKey ny.n k).addN 1) j = V.entry ny j :=
    fun j hj => (View.entry_setKey_ne k (by omega)).trans (hoff j hj)
  have hsep : V.entry ((ny₂.setKey ny.n k).addN 1) ny.n = V.see k (drAfter2c nd ny l) :=
    (View.entry_setKey_at ny.n k).trans hat
  obtain ⟨a', s', nd', ny', nz', hend, F', C, K⟩ := mergeEnd_run (l := l) F₄ B.t
    (View.P_setKid l a hP) (View.P_addN 1 (View.P_setKey ny.n k hP₂)) B.goodZ.node.disc ny.n
    (fun j hj _ => B.good.node.seen j hj)
    (fun j hj => by
      rcases Nat.lt_succ_iff_lt_or_eq.1 hj with h | rfl
      · rw [hent j h]
        exact B.goodY.node.seen j h
      · rwa [hsep])
    B.goodZ.node.seen hx (by simp) B.lt (hl₂.trans B.leaf_eq) B.kidsLive drt
  have C' : Closed V nd nd' l a' :=
    C.of_ne rfl rfl rfl (fun j _ => rfl) (fun j hj => by simp [hj])
  have hnum := C'.num
  obtain ⟨T', hout, hx', hn', ha', hs', hpre, hpost, hflat, hwy, hwz, hsep', -⟩ := B.merged F' C' K hfull
    (congrArg (· + 1) hn₂) hent hsep hok hd₂
    (fun hc => by
      rw [V.wt_see hc, hdr hc, View.entry, V.wt_see hc]
      exact ⟨hs₂, rfl⟩)
  refine ⟨a', s'.setHeap z none, T', ?_, F'.quiet, hout, hx', ?_, ha', ?_, hpre, hpost, hflat,
    hwy, hwz, hsep'⟩
  · simp only [mergeCase2c, run_bind (getNode_run F.up hx _), hy, hz, run_bind (getN_run F.up),
      run_bind (incrScion_run F.lf _), run_bind (getN_run F₁.lf), BtN.addSc_n, BtN.addSc_leaf,
      run_bind hset, run_bind hraw, run_bind (addN_run F₃.lf _), B.leaf_eq]
    exact hend
  · rw [Sub.size_top, hn', hnum]
  · rw [Sub.size_top, hs', K.num, BtN.addN_n, BtN.setKey_n, hn₂]

end Pair

end AlchemyDB
