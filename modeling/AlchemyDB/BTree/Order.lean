/-
# `AlchemyDB.BTree.Order` — the binary search is right

The comparator of a tree is read through a function `key` into a linear order.
In a node whose keys do not decrease, `findkindex` returns the last slot whose
key is at most the one looked for (`Found`); over a whole subtree that is read in
order this says which entries lie before and behind the slot the search goes on
with.
-/
import Mathlib.Order.Lattice
import Mathlib.Data.Nat.Log
import AlchemyDB.BTree.Search
import AlchemyDB.BTree.Tree

namespace AlchemyDB

open Store Weave

variable {α β κ : Type} [LinearOrder κ] {d : Nat}

/-- `cmp` compares entries by their keys. -/
structure CmpOk (cmp : α → α → Int) (key : α → κ) : Prop where
  lt : ∀ a b, cmp a b < 0 ↔ key a < key b
  eq : ∀ a b, cmp a b = 0 ↔ key a = key b

theorem CmpOk.gt {cmp : α → α → Int} {key : α → κ} (C : CmpOk cmp key) (a b : α) :
    cmp a b > 0 ↔ key b < key a := by
  have h1 := C.lt a b
  have h2 := C.eq a b
  constructor
  · intro h
    have hlt : ¬ key a < key b := fun h' => by have := h1.2 h'; omega
    have hne : key a ≠ key b := fun h' => by have := h2.2 h'; omega
    exact lt_of_le_of_ne (not_lt.1 hlt) hne.symm
  · intro h
    have hlt : ¬ cmp a b < 0 := fun h' => lt_asymm h (h1.1 h')
    have hne : cmp a b ≠ 0 := fun h' => (ne_of_gt h) (h2.1 h')
    omega

/-- `_log2` is the logarithm on the numbers the search of a node uses it for. -/
def LogOk (t nbits : Nat) : Prop := ∀ a, 0 < a → a < 2 * t - 1 → log2 a nbits = Nat.log2 a

/-! ## One node -/

/-- The loop of `findkindex` holds `i` for a slot at most `k`, slot `0` apart, and has
`a` slots above it to decide. -/
structure Between (key : α → κ) (keys : Nat → α) (n : Nat) (k : α) (a i : Nat) : Prop where
  fits : i + a < n
  below : 0 < i → key (keys i) ≤ key k
  above : ∀ j, i + a < j → j < n → key k < key (keys j)
  align : 0 < a → 2 ^ (Nat.log2 a + 1) ∣ i

section Loop

variable {cmp : α → α → Int} {key : α → κ} {keys : Nat → α} {n t nbits : Nat} {k : α}

/-- A number below `2 ^ b` has fewer than `b` bits. -/
theorem log2_succ_le {a b : Nat} (h0 : 0 < a) (h : a < 2 ^ b) : Nat.log2 a + 1 ≤ b :=
  Nat.succ_le_of_lt ((Nat.log2_lt (by omega)).2 h)

/-- The probe was above `k`: the slots below it stay. -/
theorem Between.down (hs : ∀ i j, i ≤ j → j < n → key (keys i) ≤ key (keys j)) {a i : Nat}
    (B : Between key keys n k a i) (ha : 0 < a)
    (h : key k < key (keys (2 ^ Nat.log2 a + i))) :
    Between key keys n k (2 ^ Nat.log2 a - 1) i := by
  have hle : 2 ^ Nat.log2 a ≤ a := Nat.log2_self_le (by omega)
  have hpos : 0 < 2 ^ Nat.log2 a := Nat.two_pow_pos _
  have hf := B.fits
  refine ⟨by omega, B.below, fun j hj hn => ?_, fun h0 => ?_⟩
  · exact lt_of_lt_of_le h (hs _ _ (by omega) hn)
  · have := log2_succ_le h0 (show 2 ^ Nat.log2 a - 1 < 2 ^ Nat.log2 a by omega)
    exact Nat.dvd_trans (Nat.pow_dvd_pow 2 (by omega)) (B.align ha)

/-- The probe was not: it is the new slot. -/
theorem Between.up {a i : Nat} (B : Between key keys n k a i) (ha : 0 < a)
    (h : key (keys (2 ^ Nat.log2 a + i)) ≤ key k) :
    i ||| 2 ^ Nat.log2 a = i + 2 ^ Nat.log2 a ∧
      Between key keys n k (a - 2 ^ Nat.log2 a) (i + 2 ^ Nat.log2 a) := by
  have hle : 2 ^ Nat.log2 a ≤ a := Nat.log2_self_le (by omega)
  have hlt : a < 2 ^ (Nat.log2 a + 1) := Nat.lt_log2_self
  have hf := B.fits
  obtain ⟨c, hc⟩ := B.align ha
  constructor
  · rw [hc]
    exact (Nat.two_pow_add_eq_or_of_lt (Nat.pow_lt_pow_right (by omega) (by omega)) c).symm
  · refine ⟨by omega, fun _ => by rwa [Nat.add_comm], fun j hj hn => ?_, fun h0 => ?_⟩
    · exact B.above j (by omega) hn
    · have h1 := log2_succ_le h0 (show a - 2 ^ Nat.log2 a < 2 ^ Nat.log2 a by
        rw [Nat.pow_succ] at hlt
        omega)
      refine Nat.dvd_add ?_ (Nat.pow_dvd_pow 2 h1)
      exact Nat.dvd_trans (Nat.pow_dvd_pow 2 (by omega)) (B.align ha)

theorem findkLoop_between (C : CmpOk cmp key) (hl : LogOk t nbits) (hn : n ≤ 2 * t - 1)
    (hs : ∀ i j, i ≤ j → j < n → key (keys i) ≤ key (keys j)) :
    ∀ (fuel a i : Nat), a ≤ fuel → Between key keys n k a i →
      Between key keys n k 0 (findkLoop cmp nbits keys k fuel a i) := by
  intro fuel
  induction fuel with
  | zero =>
      intro a i ha B
      obtain rfl : a = 0 := by omega
      exact B
  | succ fuel ih =>
      intro a i ha B
      by_cases h0 : a = 0
      · subst h0
        simpa [findkLoop] using B
      have hpos : 0 < 2 ^ Nat.log2 a := Nat.two_pow_pos _
      have hle : 2 ^ Nat.log2 a ≤ a := Nat.log2_self_le h0
      have hf := B.fits
      rw [findkLoop, if_neg h0, hl a (by omega) (by omega)]
      simp only
      split_ifs with h
      · exact ih _ _ (by omega) (B.down hs (by omega) ((C.lt _ _).1 h))
      · obtain ⟨he, B'⟩ := B.up (by omega) (not_lt.1 fun h' => h ((C.lt _ _).2 h'))
        rw [he]
        exact ih _ _ (by omega) B'

end Loop

/-- What `findkindex` returns in a node of `n` keys: the slots before `m` are at most
`k`, the others are above it, and `r` is zero when slot `m - 1` holds `k`. -/
structure Found (key : α → κ) (nd : BtN α) (k : α) (i r : Int) (m : Nat) : Prop where
  slot : i = (m : Int) - 1
  fits : m ≤ nd.n
  below : ∀ j < m, key (nd.keys j) ≤ key k
  above : ∀ j, m ≤ j → j < nd.n → key k < key (nd.keys j)
  hit : r = 0 ↔ 0 < m ∧ key (nd.keys (m - 1)) = key k

theorem findkindex_found {s : Bt α} {key : α → κ} (C : CmpOk s.cmp key)
    (hl : LogOk s.t s.nbits) {nd : BtN α} (hn : nd.n ≤ 2 * s.t - 1)
    (hs : ∀ i j, i ≤ j → j < nd.n → key (nd.keys i) ≤ key (nd.keys j)) (k : α) :
    ∃ m, Found key nd k (findkindex s nd k).1 (findkindex s nd k).2 m := by
  by_cases h0 : nd.n = 0
  · refine ⟨0, ?_⟩
    simp only [findkindex, if_pos h0]
    exact ⟨rfl, by omega, fun j hj => by omega, fun j _ hj => by omega, by simp⟩
  · have B : Between key nd.keys nd.n k 0
        (findkLoop s.cmp s.nbits nd.keys k nd.n (nd.n - 1) 0) :=
      findkLoop_between C hl hn hs nd.n (nd.n - 1) 0 (by omega)
        ⟨by omega, fun h => by omega, fun j hj hn => by omega, fun _ => Nat.dvd_zero _⟩
    simp only [findkindex, if_neg h0]
    generalize findkLoop s.cmp s.nbits nd.keys k nd.n (nd.n - 1) 0 = i at B
    have hf := B.fits
    split_ifs with hr
    · -- the key of the slot the loop stopped at was never compared: it is slot 0
      have hk := (C.lt _ _).1 hr
      obtain rfl : i = 0 := by
        rcases Nat.eq_zero_or_pos i with h | h
        · exact h
        · exact absurd (B.below h) (not_le.2 hk)
      refine ⟨0, rfl, by omega, fun j hj => by omega, fun j _ hj => ?_, ?_⟩
      · exact lt_of_lt_of_le hk (hs 0 j (by omega) hj)
      · have hne : s.cmp k (nd.keys 0) ≠ 0 := by omega
        simp [hne]
    · have hk : key (nd.keys i) ≤ key k := not_lt.1 fun h => hr ((C.lt _ _).2 h)
      refine ⟨i + 1, by simp, by omega, fun j hj => ?_, fun j hj hn => ?_, ?_⟩
      · exact le_trans (hs j i (by omega) (by omega)) hk
      · exact B.above j (by omega) hn
      · rw [C.eq, Nat.add_sub_cancel]
        exact ⟨fun h => ⟨by omega, h.symm⟩, fun h => h.2.symm⟩

/-- A negative comparison is one with the first key. -/
theorem findkindex_neg {b : Bt α} {key : α → κ} (C : CmpOk b.cmp key)
    (hl : LogOk b.t b.nbits) {nd : BtN α} (hn : nd.n ≤ 2 * b.t - 1)
    (hs : ∀ i j, i ≤ j → j < nd.n → key (nd.keys i) ≤ key (nd.keys j)) {k : α}
    (h : (findkindex b nd k).2 < 0) : (findkindex b nd k).1 < 0 := by
  by_cases h0 : nd.n = 0
  · simp only [findkindex, if_pos h0]
    decide
  · have B : Between key nd.keys nd.n k 0
        (findkLoop b.cmp b.nbits nd.keys k nd.n (nd.n - 1) 0) :=
      findkLoop_between C hl hn hs nd.n (nd.n - 1) 0 (by omega)
        ⟨by omega, fun h => by omega, fun j hj hn => by omega, fun _ => Nat.dvd_zero _⟩
    simp only [findkindex, if_neg h0] at h ⊢
    generalize findkLoop b.cmp b.nbits nd.keys k nd.n (nd.n - 1) 0 = i at B h
    by_cases hr : b.cmp k (nd.keys i) < 0
    · rw [if_pos hr]
      have hk := (C.lt _ _).1 hr
      rcases Nat.eq_zero_or_pos i with rfl | hi
      · show ((0 : Nat) : Int) - 1 < 0
        decide
      · exact absurd (B.below hi) (not_le.2 hk)
    · rw [if_neg hr] at h
      exact absurd h hr

/-- A comparison that is not negative is one with the slot returned. -/
theorem findkindex_nonneg {b : Bt α} {nd : BtN α} {k : α} (h0 : nd.n ≠ 0)
    (h : ¬ (findkindex b nd k).2 < 0) : 0 ≤ (findkindex b nd k).1 := by
  simp only [findkindex, if_neg h0] at h ⊢
  by_cases hr : b.cmp k (nd.keys (findkLoop b.cmp b.nbits nd.keys k nd.n (nd.n - 1) 0)) < 0
  · rw [if_pos hr] at h
    exact absurd hr h
  · rw [if_neg hr]
    exact Int.natCast_nonneg _

/-! ## A subtree that is read in order -/

/-- The entries of a view have keys, which do not depend on the DR. -/
structure Keyed (V : View α β) (key : α → κ) (K : β → κ) : Prop where
  see : ∀ k dr, K (V.see k dr) = key k

/-- The keys do not decrease. -/
def Ordered (K : β → κ) (l : List β) : Prop := l.Pairwise (fun a b => K a ≤ K b)

section Ordered

variable {K : β → κ} {l r : List β}

theorem Ordered.left (h : Ordered K (l ++ r)) : Ordered K l := (List.pairwise_append.1 h).1

theorem Ordered.right (h : Ordered K (l ++ r)) : Ordered K r := (List.pairwise_append.1 h).2.1

theorem Ordered.across (h : Ordered K (l ++ r)) {a b : β} (ha : a ∈ l) (hb : b ∈ r) :
    K a ≤ K b := (List.pairwise_append.1 h).2.2 a ha b hb

end Ordered

section Subtree

variable {V : View α β} {key : α → κ} {K : β → κ}

omit [LinearOrder κ] in
theorem Keyed.entry (H : Keyed V key K) (nd : BtN α) (j : Nat) :
    K (V.entry nd j) = key (nd.keys j) := H.see _ _

theorem Sub.entry_mem_pre : ∀ (T : Sub α (d + 1)) {i j : Nat}, j < i → V.entry T.top j ∈ T.pre V i
  | .node a nd kid, i, j, h => by
      induction i with
      | zero => omega
      | succ i ih =>
          rw [Sub.pre_succ]
          rcases Nat.lt_succ_iff_lt_or_eq.1 h with h | rfl
          · exact List.mem_append_left _ (ih h)
          · simp

theorem Sub.entry_mem_post (T : Sub α (d + 1)) {i : Nat} (h : i < T.size) :
    V.entry T.top i ∈ T.post V i := by
  rw [T.post_succ V h]
  exact List.mem_cons_self

/-- The keys of a node of an ordered subtree do not decrease. -/
theorem Ordered.node (H : Keyed V key K) {T : Sub α (d + 1)} (h : Ordered K (T.flat V)) :
    ∀ i j, i ≤ j → j < T.size → key (T.top.keys i) ≤ key (T.top.keys j) := by
  intro i j hij hj
  rcases Nat.eq_or_lt_of_le hij with rfl | hlt
  · exact le_rfl
  rw [T.flat_focus V (Nat.le_of_lt hj)] at h
  have := h.across (T.entry_mem_pre hlt)
    (List.mem_append_right _ (T.entry_mem_post hj))
  rwa [H.entry, H.entry] at this

theorem Ordered.kid {T : Sub α (d + 1)} (h : Ordered K (T.flat V)) {i : Nat} (hi : i ≤ T.size) :
    Ordered K ((T.kid i).flat V) := by
  rw [T.flat_focus V hi] at h
  exact h.right.left

/-- What is read before the slot found is at most `k`, what is read behind is above. -/
theorem Found.around (H : Keyed V key K) {T : Sub α (d + 1)} (h : Ordered K (T.flat V)) {k : α}
    {i r : Int} {m : Nat} (F : Found key T.top k i r m) :
    (∀ a ∈ T.pre V m, K a ≤ key k) ∧ ∀ b ∈ T.post V m, key k < K b := by
  have hn := T.size_top
  constructor
  · intro a ha
    rcases Nat.eq_zero_or_pos m with rfl | hm
    · obtain ⟨x, nd, kid, rfl⟩ := exists_node T
      simp [Sub.pre, Weave.left] at ha
    · obtain ⟨c, rfl⟩ : ∃ c, m = c + 1 := ⟨m - 1, by omega⟩
      have hk := F.below c (by omega)
      have hc : c < T.size := by
        rw [hn]
        have := F.fits
        omega
      refine le_trans ?_ hk
      rw [T.flat_focus V (Nat.le_of_lt hc), T.post_succ V hc] at h
      rw [Sub.pre_succ] at ha
      rw [← H.entry (V := V)]
      simp only [List.mem_append, List.mem_singleton] at ha
      rcases ha with ha | ha | rfl
      · exact h.across ha (by simp)
      · exact h.right.across ha (by simp)
      · exact le_rfl
  · intro b hb
    rcases Nat.lt_or_ge m T.size with hm | hm
    · have hk := F.above m (Nat.le_refl m) (by omega)
      rw [T.flat_focus V (Nat.le_of_lt hm)] at h
      have h' := h.right.right
      rw [T.post_succ V hm] at hb h'
      rcases List.mem_cons.1 hb with rfl | hb
      · rwa [H.entry]
      · refine lt_of_lt_of_le hk ?_
        rw [← H.entry (V := V)]
        exact List.rel_of_pairwise_cons h' hb
    · obtain ⟨x, nd, kid, rfl⟩ := exists_node T
      have hz : nd.n - m = 0 := by
        simp only [Sub.size_node] at hm
        omega
      simp [Sub.post, hz, Weave.right] at hb

/-- Without a hit, what is read before the slot is below `k`. -/
theorem Found.before (H : Keyed V key K) {T : Sub α (d + 1)} (h : Ordered K (T.flat V)) {k : α}
    {i r : Int} {m : Nat} (F : Found key T.top k i r m) (hr : r ≠ 0) :
    ∀ a ∈ T.pre V m, K a < key k := by
  intro a ha
  refine lt_of_le_of_ne ((F.around H h).1 a ha) (fun e => hr (F.hit.2 ?_))
  have hm : 0 < m := by
    rcases Nat.eq_zero_or_pos m with rfl | hm
    · obtain ⟨x, nd, kid, rfl⟩ := exists_node T
      simp [Sub.pre, Weave.left] at ha
    · exact hm
  refine ⟨hm, le_antisymm (F.below _ (by omega)) ?_⟩
  obtain ⟨c, rfl⟩ : ∃ c, m = c + 1 := ⟨m - 1, by omega⟩
  have hc : c < T.size := by
    rw [T.size_top]
    have := F.fits
    omega
  rw [T.flat_focus V (Nat.le_of_lt hc), T.post_succ V hc] at h
  rw [Sub.pre_succ] at ha
  rw [← e, Nat.add_sub_cancel, ← H.entry (V := V)]
  simp only [List.mem_append, List.mem_singleton] at ha
  rcases ha with ha | ha | rfl
  · exact h.across ha (by simp)
  · exact h.right.across ha (by simp)
  · exact le_rfl

/-- An entry with the key looked for is in the kid the search goes on with, unless
there is a hit. -/
theorem Found.mem_kid (H : Keyed V key K) {T : Sub α (d + 1)} (h : Ordered K (T.flat V)) {k : α}
    {i r : Int} {m : Nat} (F : Found key T.top k i r m) (hr : r ≠ 0) {b : β}
    (hb : b ∈ T.flat V) (he : K b = key k) : b ∈ (T.kid m).flat V := by
  have hm : m ≤ T.size := T.size_top ▸ F.fits
  rw [T.flat_focus V hm] at hb
  simp only [List.mem_append] at hb
  rcases hb with hb | hb | hb
  · exact absurd he (ne_of_lt (F.before H h hr b hb))
  · exact hb
  · exact absurd he.symm (ne_of_lt ((F.around H h).2 b hb))

end Subtree

end AlchemyDB
