/-
# `AlchemyDB.BTree.Removal` — the entry at the end of a subtree is taken

`deletekey` with `DK_2A` or `DK_2B` removes the last or the first entry of a
subtree, for the key above to be replaced by it.  The node it is called on has
at least `t` keys, and rebalancing on the way down keeps this so.  What it hands
back is in general a pointer: for a slot of 4 or 8 bytes the entry itself, for a
`BIG_BT` the buffer `BT_DelBuf`, and else the key slot of the leaf, which by then
holds what has moved into it.
-/
import AlchemyDB.BTree.Delete
import AlchemyDB.BTree.Descent
import AlchemyDB.BTree.Rebalance

namespace AlchemyDB

open Store Weave

variable {α β : Type} {d : Nat} {V : View α β}

/-! ## A key leaves a leaf -/

/-- The contents of a leaf after key `i` has been taken out. -/
structure Dropped (V : View α β) (nd nd' : BtN α) (i : Nat) : Prop where
  num : nd'.n = nd.n - 1
  leaf : nd'.leaf = nd.leaf
  scion : nd'.scion = nd.scion
  disc : V.P nd'
  lo : ∀ j < i, V.entry nd' j = V.entry nd j
  hi : ∀ j, i ≤ j → j + 1 < nd.n → V.entry nd' j = V.entry nd (j + 1)
  keys : nd'.keys i = nd.keys (if i + 1 < nd.n then i + 1 else i)

section Leaf

variable {s : Bt α} {x : Nat} {nd : BtN α}

theorem dropKey_run (h : s.heap x = some nd) (ht : s.t = V.t) (hP : V.P nd)
    (hok : ∀ j < nd.n, V.ok (V.entry nd j)) {i : Nat} (hi : i < nd.n) (drt : Bool) (p pi : Nat) :
    ∃ nd', dropKey x i drt p pi s = some ((), s.setHeap x (some nd')) ∧ Dropped V nd nd' i := by
  obtain ⟨nd₁, hfold, hP₁, hL, he1, he2, hk1, hk2⟩ := View.slide_down (V := V) (i := i)
    (f := fun nd j => nd.mvIn V.t (i + j) (i + 1 + j))
    (fun nd m h => View.slid_mvIn h (by omega)) (nd.n - i - 1) nd hP
  have hmv := mvXKeys_in h i (i + 1) (nd.n - i - 1) p pi
  rw [mvXKeysOrder, if_neg (by omega), ht, hfold] at hmv
  have h₁ : (s.setHeap x (some nd₁)).heap x = some nd₁ := upd_same _ _ _
  have htr := trimBTN_run h₁ drt
  rw [Bt.setHeap_setHeap, Bt.setHeap_t, ht] at htr
  have hn : nd₁.n = nd.n := hL.n
  refine ⟨nd₁.trim V.t drt, ?_, ?_, ?_, ?_, View.P_trim drt hP₁, ?_, ?_, ?_⟩
  · simp only [dropKey, run_bind (getN_run h), run_bind hmv, run_bind htr]
    rfl
  · rw [BtN.trim_n, hn]
  · rw [BtN.trim_leaf, hL.leaf]
  · rw [BtN.trim_scion, hL.scion]
  · intro j hj
    rw [View.entry_trim drt hP₁ (by omega), he2 j (Or.inl hj) (hok j (by omega))]
  · intro j hj hj'
    rw [View.entry_trim drt hP₁ (by omega), he1 j hj (by omega) (hok (j + 1) hj')]
  · rw [BtN.trim_keys]
    split_ifs with hlt
    · exact hk1 i (Nat.le_refl i) (by omega)
    · exact hk2 i (Or.inr (by omega))

/-- The reading of the leaf, before and after. -/
theorem Dropped.flat {nd nd' : BtN α} {i : Nat} (D : Dropped V nd nd' i) (hi : i < nd.n) (x : Nat)
    (kid : Nat → Sub α 0) :
    ∃ A B, (Sub.node x nd kid).flat V = A ++ V.entry nd i :: B ∧
      (Sub.node x nd' kid).flat V = A ++ B ∧
      A = (List.range i).map (V.entry nd) ∧
      B = (List.range (nd.n - (i + 1))).map (fun j => V.entry nd (i + 1 + j)) := by
  refine ⟨_, _, ?_, ?_, rfl, rfl⟩
  · rw [flat_leaf, show nd.n = i + ((nd.n - (i + 1)) + 1) by omega, List.range_add, List.map_append,
      List.range_succ_eq_map, List.map_map, List.map_cons, List.map_map]
    congr 2
    · rw [show i + (nd.n - (i + 1) + 1) - (i + 1) = nd.n - (i + 1) by omega]
      refine List.map_congr_left (fun j _ => ?_)
      show V.entry nd (i + (j + 1)) = _
      rw [show i + (j + 1) = i + 1 + j by omega]
  · rw [flat_leaf, D.num, show nd.n - 1 = i + (nd.n - (i + 1)) by omega, List.range_add,
      List.map_append, List.map_map]
    congr 1
    · exact List.map_congr_left (fun j hj => D.lo j (List.mem_range.1 hj))
    · refine List.map_congr_left (fun j hj => ?_)
      have := List.mem_range.1 hj
      show V.entry nd' (i + j) = _
      rw [D.hi (i + j) (by omega) (by omega)]
      congr 1
      omega

theorem Dropped.seen {nd nd' : BtN α} {i : Nat} (D : Dropped V nd nd' i)
    (hok : ∀ j < nd.n, V.ok (V.entry nd j)) : ∀ j < nd'.n, V.ok (V.entry nd' j) := by
  intro j hj
  rw [D.num] at hj
  rcases Nat.lt_or_ge j i with h | h
  · rw [D.lo j h]
    exact hok j (by omega)
  · rw [D.hi j h (by omega)]
    exact hok (j + 1) (by omega)

end Leaf

/-! ## What is handed back -/

/-- The tree with another content of `BT_DelBuf`. -/
def Bt.withBuf (s : Bt α) (o : Option α) : Bt α := { s with delBuf := o }

/-- `CREATE_RETURN_DELETED_KEY` does not copy from an address that is none. -/
def Bts.sane (b : Bts) : Prop := b.narrow = true → b.bigBt = false

/-- The pointer handed back for key `i` of `x`: the entry, the buffer, or the slot. -/
def Bt.handed (s : Bt α) (x i : Nat) (e : α) : KData α :=
  if s.s.narrow then .val e else if s.s.bigBt then .delBuf else .slot x i

/-- The buffer after that. -/
def Bt.bufAfter (s : Bt α) (e : α) : Option α := if s.s.bigBt then some e else s.delBuf

theorem createReturnDeletedKey_run {s : Bt α} {x : Nat} {nd : BtN α} (h : s.heap x = some nd)
    (hs : s.s.sane) (i dr : Nat) :
    createReturnDeletedKey (if s.s.narrow then .val (nd.keys i) else .slot x i) dr s =
      some (⟨s.handed x i (nd.keys i), dr⟩, s.withBuf (s.bufAfter (nd.keys i))) := by
  simp only [createReturnDeletedKey, run_bind (run_get s), Bt.handed, Bt.bufAfter, Bt.withBuf]
  by_cases hn : s.s.narrow = true
  · have hb := hs hn
    simp [hn, hb]
  · by_cases hb : s.s.bigBt = true
    · simp only [hn, hb, Bool.false_eq_true, if_true, if_false, Bt.deref, h, Option.map_some]
      rfl
    · simp [hn, hb]

/-- `kp` denotes `e`; if it points to a key slot, then to one of a node of `R`. -/
structure Held (s : Bt α) (R : Set Nat) (kp : KData α) (e : α) : Prop where
  den : s.deref kp = some e
  mem : ∀ b j, kp = .slot b j → b ∈ R

theorem Held.later {s s' : Bt α} {R R' : Set Nat} {kp : KData α} {e : α} (H : Held s R kp e)
    (hb : s'.delBuf = s.delBuf) (hsub : R ⊆ R')
    (hh : ∀ b ∈ R, ∀ nd, s.heap b = some nd → ∃ nd', s'.heap b = some nd' ∧ nd'.keys = nd.keys) :
    Held s' R' kp e := by
  refine ⟨?_, fun b j h => hsub (H.mem b j h)⟩
  have hd := H.den
  cases kp with
  | val k => exact hd
  | slot b j =>
      simp only [Bt.deref, Option.map_eq_some_iff] at hd ⊢
      obtain ⟨nd, hnd, he⟩ := hd
      obtain ⟨nd', hnd', hk⟩ := hh b (H.mem b j rfl) nd hnd
      exact ⟨nd', hnd', by rw [hk, he]⟩
  | delBuf => exact hb.trans hd

/-- What the pointer of a key that has left its leaf denotes. -/
theorem Dropped.held {s : Bt α} {x i : Nat} {nd nd' : BtN α} (D : Dropped V nd nd' i)
    {R : Set Nat} (hx : x ∈ R) :
    Held ((s.withBuf (s.bufAfter (nd.keys i))).setHeap x (some nd')) R
      (s.handed x i (nd.keys i))
      (nd.keys (if (s.s.narrow || s.s.bigBt) = false ∧ i + 1 < nd.n then i + 1 else i)) := by
  have hk := D.keys
  by_cases hn : s.s.narrow = true
  · refine ⟨?_, fun b j h => ?_⟩
    · simp [Bt.handed, hn, Bt.deref]
    · simp [Bt.handed, hn] at h
  · by_cases hb : s.s.bigBt = true
    · refine ⟨?_, fun b j h => ?_⟩
      · simp [Bt.handed, hn, hb, Bt.deref, Bt.withBuf, Bt.bufAfter, Bt.setHeap]
      · simp [Bt.handed, hn, hb] at h
    · refine ⟨?_, fun b j h => ?_⟩
      · simp only [Bt.handed, hn, hb, Bool.false_eq_true, if_false, Bt.deref, Bt.setHeap_heap,
          upd_same, Option.map_some, hk, Bool.or_self, true_and]
      · simp only [Bt.handed, hn, hb, Bool.false_eq_true, if_false, KData.slot.injEq] at h
        rw [← h.1]
        exact hx

/-! ## On the way down -/

/-- The top node of a subtree when `deletekey` has entered it: a delete has taken one off
its scion. -/
def Sub.paid (drt : Bool) : Sub α (d + 1) → Sub α (d + 1)
  | .node x nd kid => .node x (if drt then nd else nd.addSc (-1)) kid

/-- The tree by then. -/
def Bt.paid (s : Bt α) (drt : Bool) (T : Sub α (d + 1)) : Bt α :=
  s.setHeap T.addr (some (T.paid drt).top)

/-- What a delete that has entered a node owes to its scion. -/
def debt (drt : Bool) : Int := if drt then 0 else 1

section Paid

variable {s : Bt α} {T : Sub α (d + 1)} {drt : Bool} {p pi : Nat}

@[simp] theorem Sub.paid_addr : (T.paid drt).addr = T.addr := by cases T; rfl

@[simp] theorem Sub.paid_kid (j : Nat) : (T.paid drt).kid j = T.kid j := by cases T; rfl

@[simp] theorem Sub.paid_flat : (T.paid drt).flat V = T.flat V := by
  cases T
  cases drt <;> rfl

@[simp] theorem Sub.paid_size : (T.paid drt).size = T.size := by
  cases T
  cases drt <;> rfl

@[simp] theorem Sub.paid_pre (i : Nat) : (T.paid drt).pre V i = T.pre V i := by
  cases T
  cases drt <;> rfl

@[simp] theorem Sub.paid_post (i : Nat) : (T.paid drt).post V i = T.post V i := by
  cases T
  cases drt <;> rfl

@[simp] theorem Sub.paid_keys : (T.paid drt).top.keys = T.top.keys := by
  cases T
  cases drt <;> rfl

@[simp] theorem Sub.paid_dr (i : Nat) : (T.paid drt).top.dr i = T.top.dr i := by
  cases T
  cases drt <;> rfl

theorem Sub.paid_entry (j : Nat) : V.entry (T.paid drt).top j = V.entry T.top j := by
  simp [View.entry]

theorem paid_addrs : (T.paid drt).addrs = T.addrs := by
  cases T
  cases drt <;> rfl

theorem keeps_paid {T : Sub α (d + 2)} {i : Nat} : Keeps V (T.paid drt) i ↔ Keeps V T i := by
  cases T
  cases drt <;> exact Iff.rfl

/-- Entering a node changes nothing but its scion. -/
theorem Owing.paid (g : Good V s.heap T) (drt : Bool) (L : Link s T.addrs T.addr p pi) :
    Out V (debt drt) s (s.paid drt T) T (T.paid drt) p pi := by
  obtain ⟨x, nd, kid, rfl⟩ := exists_node T
  cases drt with
  | true =>
      have hs : s.paid true (Sub.node x nd kid) = s := by
        show s.setHeap x (some nd) = s
        rw [Bt.setHeap, ← g.node.live, upd_self]
      rw [hs]
      exact ⟨g, Edit.refl L⟩
  | false =>
      refine ⟨⟨{ g.node with
          live := upd_same _ _ _
          disc := View.P_addSc _ g.node.disc
          sci := fun hc => ?_ }, fun j hj => ?_⟩,
        Edit.write L (Or.inl rfl) (by simp [g.node.live]) _⟩
      · have h : nd.scion = (Sub.node x nd kid).weight V := g.sci hc
        show nd.scion + -1 + 1 = (Sub.node x nd kid).weight V
        omega
      · exact (g.kids j hj).frame (fun b hb =>
          upd_ne _ _ (fun e => g.node.apart j hj ((show b = x from e) ▸ hb)))

end Paid

/-- What case 2c has made of `T`: key `i` has become `k` and lies between the kids on both
sides of it, in one node. -/
structure Folded (V : View α β) (owe : Int) (s s' : Bt α) (T T' : Sub α (d + 2)) (p pi i : Nat)
    (k : α) : Prop where
  out : Out V owe s s' T T' p pi
  quiet : s'.globals = s.globals
  top : T'.addr = T.addr
  size : T'.size + 1 = T.size
  kidSize : (T'.kid i).size = (T.kid i).size + 1 + (T.kid (i + 1)).size
  pre : T'.pre V i = T.pre V i
  post : T'.post V i = T.post V (i + 1)
  flat : (T'.kid i).flat V = (T.kid i).flat V ++
    V.see k (drAfter2c T.top (T.kid i).top i) :: (T.kid (i + 1)).flat V
  lower : Within V (T.kid i) (T'.kid i) 0
  upper : Within V (T.kid (i + 1)) (T'.kid i) ((T.kid i).size + 1)
  sep : V.entry (T'.kid i).top (T.kid i).size = V.see k (drAfter2c T.top (T.kid i).top i)

theorem mergeCase2c_folded {owe : Int} {s : Bt α} {T : Sub α (d + 2)} {p pi i : Nat}
    (g : Owing V s.heap owe T) (L : Link s T.addrs T.addr p pi) (ht : s.t = V.t) (hi : i < T.size)
    (hfull : (T.kid i).size + 1 + (T.kid (i + 1)).size ≤ 2 * V.t - 1) (k : α) (drt : Bool)
    (hok : V.ok (V.see k (drAfter2c T.top (T.kid i).top i)))
    (hdr : V.counts → drAfter2c T.top (T.kid i).top i = T.top.dr i) :
    ∃ s' T', mergeCase2c T.addr i k drt p pi s = some ((T'.addr, (T'.kid i).addr), s') ∧
      Folded V owe s s' T T' p pi i k := by
  obtain ⟨x, nd, kid, rfl⟩ := exists_node T
  obtain ⟨y, ny, ky, z, nz, kz, B⟩ := pair_of g L ht hi
  simp only [Sub.kid_node, B.y, B.z, Sub.size_node, Sub.top_node] at hfull hok hdr
  obtain ⟨a, s', T', hrun, hq, hout, hx, hsz, ha, hks, hpre, hpost, hflat, hlo, hhi, hsep⟩ :=
    B.mergeCase2c_run k drt hfull hok hdr
  have hi' : i < nd.n := hi
  refine ⟨s', T', by rw [hx, ha]; exact hrun, hout, hq, hx, ?_, ?_, hpre, hpost, ?_, ?_, ?_, ?_⟩
  · rw [hsz, Sub.size_node]
    omega
  all_goals simpa only [Sub.kid_node, B.y, B.z, Sub.size_node, Sub.top_node]

/-- The slot of the kid that `deletekey` goes on with. -/
def wayOf (s : Bt α) (nd : BtN α) (k : α) (dk : DK) : Nat := ((deletePos s nd k dk).1 + 1).toNat

/-- The tree with the key that case 2c removes remembered, unless there is one. -/
def Bt.mark2c (s : Bt α) (kp : KData α) : Bt α :=
  { s with case2cPtr := s.case2cPtr.or (some kp) }

/-- The pointer `KEYS` makes of key `i` of a node. -/
def Bt.keyPtr (s : Bt α) (x : Nat) (nd : BtN α) (i : Nat) : KData α :=
  if s.s.narrow then .val (nd.keys i) else .slot x i

/-- Nothing that the view sees is lost or comes back on the way of a delete or an eviction:
a delete drops the DRs of the keys it moves through a parent, case 2c brings back what the
slot behind the keys held, and a ghost is not counted as removed. -/
def Clear (V : View α β) (k : α) (drt : Bool) :
    {d : Nat} → DK → Bt α → Sub α (d + 1) → Nat → Nat → Prop
  | 0, dk, s, T, _, _ => dk = .none → drt = false → V.counts ∨ s.s.inode = true →
      T.top.dr (wayOf s T.top k dk - 1) = 0
  | _ + 1, dk, s, T, p, pi =>
    if (deletePos s T.top k dk).2 = 0 then
      if drt = false ∧ T.top.dr (wayOf s T.top k dk - 1) ≠ 0 then ¬ V.counts
      else if V.t ≤ (T.kid (wayOf s T.top k dk - 1)).size then
        Clear V k drt .a2 (s.paid drt T) (T.kid (wayOf s T.top k dk - 1)) T.addr
          (wayOf s T.top k dk - 1)
      else if V.t ≤ (T.kid (wayOf s T.top k dk)).size then
        Clear V k drt .b2 (s.paid drt T) (T.kid (wayOf s T.top k dk)) T.addr (wayOf s T.top k dk)
      else
        V.ok (V.see k (drAfter2c T.top (T.kid (wayOf s T.top k dk - 1)).top
          (wayOf s T.top k dk - 1))) ∧
        (V.counts → drAfter2c T.top (T.kid (wayOf s T.top k dk - 1)).top
          (wayOf s T.top k dk - 1) = T.top.dr (wayOf s T.top k dk - 1)) ∧
        ∀ s' T', Folded V (debt drt) ((s.paid drt T).mark2c (s.keyPtr T.addr T.top
            (wayOf s T.top k dk - 1))) s' (T.paid drt) T' p pi (wayOf s T.top k dk - 1) k →
          Clear V k drt dk s' (T'.kid (wayOf s T.top k dk - 1)) T'.addr (wayOf s T.top k dk - 1)
    else (drt = false → Keeps V T (wayOf s T.top k dk)) ∧
      ∀ i' s' T', rebalanceCase3 T.addr (wayOf s T.top k dk) drt p pi (s.paid drt T) =
          some ((T'.addr, (T'.kid i').addr, i'), s') →
        Ready V (debt drt) (s.paid drt T) s' (T.paid drt) T' p pi (wayOf s T.top k dk) i' →
        Clear V k drt dk s' (T'.kid i') T'.addr i'

/-! ## The last or the first entry is taken -/

/-- The list `l` is `l'` with `b` at the end that `dk` stands for. -/
def AtEnd (dk : DK) (b : β) (l l' : List β) : Prop :=
  match dk with
  | .none => False
  | .a2 => l = l' ++ [b]
  | .b2 => l = b :: l'

/-- The entry that `deletekey` hands back after the entry `e` has been taken: in a slot that
is neither 4 or 8 bytes wide nor saved to `BT_DelBuf` the next one has moved to its place. -/
def Replaced (V : View α β) (b : Bts) (dk : DK) (e e' : α) (l' : List β) : Prop :=
  e' = e ∨ (dk = .b2 ∧ (b.narrow || b.bigBt) = false ∧ ∃ v B, l' = V.see e' v :: B)

/-- What taking an entry has done to a subtree. -/
structure Taken (V : View α β) (dk : DK) (s s' : Bt α) (T T' : Sub α (d + 1)) (p pi : Nat)
    (dwd : Dwd α) : Prop where
  out : Out V 0 s s' T T' p pi
  left : s'.dirtyLeft = s.dirtyLeft
  ptr : s'.case2cPtr = s.case2cPtr
  loss : T.size ≤ T'.size + 1
  fits : V.fits dwd.dr
  ends : ∃ e e', AtEnd dk (V.see e dwd.dr) (T.flat V) (T'.flat V) ∧
    Held s' T'.addrs dwd.k e' ∧ Replaced V s.s dk e e' (T'.flat V)

/-- The weight that is gone. -/
theorem AtEnd.weight (hc : V.counts) {dk : DK} {e : α} {v : Nat} {T T' : Sub α d}
    (h : AtEnd dk (V.see e v) (T.flat V) (T'.flat V)) :
    T.weight V = T'.weight V + (1 + v) := by
  have hw := V.wt_see hc e v
  cases dk with
  | none => exact absurd h id
  | a2 =>
      have h : T.flat V = T'.flat V ++ [V.see e v] := h
      simp [Sub.weight, h, hw]
  | b2 =>
      have h : T.flat V = V.see e v :: T'.flat V := h
      simp [Sub.weight, h, hw]
      omega

section Take

variable [RowStream α] {s : Bt α} {x p pi : Nat} {nd : BtN α} {k : α} {dk : DK} {drt : Bool}

/-- Case 1 for a key to be taken. -/
theorem deleteCase1_take (h : s.heap x = some nd) (ht : s.t = V.t) (hs : s.s.sane) (hP : V.P nd)
    (hok : ∀ j < nd.n, V.ok (V.entry nd j)) {i : Nat} (hi : i < nd.n) (hdk : dk ≠ .none)
    (drt : Bool) (p pi : Nat) (plist : PList) :
    ∃ nd', deleteCase1 x i dk drt p pi plist s = some (⟨s.handed x i (nd.keys i), nd.dr i⟩,
        (s.withBuf (s.bufAfter (nd.keys i))).setHeap x (some nd')) ∧
      Dropped V (nd.addSc (-((1 - debt drt) + nd.dr i))) nd' i := by
  have hk := KEYS_run h i
  have hd := getDR_run h i
  have hc := createReturnDeletedKey_run h hs i (nd.dr i)
  have h₁ : (s.withBuf (s.bufAfter (nd.keys i))).heap x = some nd := h
  generalize hm : (-((1 - debt drt) + (nd.dr i : Int))) = m
  obtain ⟨nd', hdrop, D⟩ := dropKey_run (V := V) (s := (s.withBuf (s.bufAfter (nd.keys i))).setHeap x
    (some (nd.addSc m))) (x := x) (upd_same _ _ _) ht (View.P_addSc m hP) hok hi drt p pi
  rw [Bt.setHeap_setHeap] at hdrop
  refine ⟨nd', ?_, D⟩
  simp only [deleteCase1, run_bind (run_get s), run_bind hk, run_bind hd, run_bind hc, hdk,
    if_false]
  cases drt with
  | true =>
      have hsc := decrScion_run h₁ (1 + (nd.dr i : Int))
      rw [show -(1 + (nd.dr i : Int)) = m by simpa [debt] using hm] at hsc
      simp only [if_true, run_bind hsc, pure_bind, Bool.false_eq_true, if_false,
        run_bind hdrop]
      rfl
  | false =>
      simp only [Bool.false_eq_true, if_false]
      split_ifs with h0
      · have hsc := decrScion_run h₁ (nd.dr i : Int)
        rw [show -((nd.dr i : Int)) = m by simpa [debt] using hm] at hsc
        simp only [run_bind hsc, pure_bind, Bool.false_eq_true, if_false,
          run_bind hdrop]
        rfl
      · have hm0 : m = 0 := by
          simp only [not_not] at h0
          simp [debt, h0] at hm
          omega
        have hsame : (s.withBuf (s.bufAfter (nd.keys i))).setHeap x (some (nd.addSc m)) =
            s.withBuf (s.bufAfter (nd.keys i)) := by
          rw [hm0, show nd.addSc 0 = nd by simp [BtN.addSc], Bt.setHeap, ← h₁, upd_self]
        rw [hsame] at hdrop
        simp only [pure_bind, Bool.false_eq_true, if_false, run_bind hdrop]
        rfl

omit [RowStream α] in
/-- A node is entered. -/
theorem payScion_run {T : Sub α (d + 1)} (g : Good V s.heap T) (drt : Bool) :
    payScion T.addr drt s = some ((), s.paid drt T) := by
  obtain ⟨x, nd, kid, rfl⟩ := exists_node T
  cases drt with
  | true =>
      have hs : s.paid true (Sub.node x nd kid) = s := by
        show s.setHeap x (some nd) = s
        rw [Bt.setHeap, ← g.node.live, upd_self]
      rw [hs]
      rfl
  | false => exact decrScion_run g.node.live 1

omit [RowStream α] in
theorem Out.withBuf {owe : Int} {s s' : Bt α} {T T' : Sub α d} {p pi : Nat}
    (o : Out V owe s s' T T' p pi) (b : Option α) : Out V owe s (s'.withBuf b) T T' p pi :=
  ⟨o.good, ⟨o.edit.away, o.edit.fresh, o.edit.kept, o.edit.root, o.edit.next, o.edit.bound, o.edit.rest⟩⟩

/-- `deletekey` in a leaf. -/
theorem deletekey_leaf {T : Sub α 1} (g : Good V s.heap T) {i : Nat}
    (hi : (if dk = .b2 then (deletePos s T.top k dk).1 + 1 else (deletePos s T.top k dk).1) = i)
    (fuel : Nat) (plist : PList) :
    deletekey k dk drt (fuel + 1) T.addr p pi plist s =
      deleteCase1 T.addr i dk drt p pi plist (s.paid drt T) := by
  have henter := payScion_run g drt
  obtain ⟨x, nd, kid, rfl⟩ := exists_node T
  have hl : nd.leaf = true := g.node.leaf.2 rfl
  simp only [Sub.addr_node, Sub.top_node] at henter hi ⊢
  simp only [deletekey, run_bind (run_get s), run_bind (getN_run g.node.live), run_bind henter, hl,
    if_true, hi, Int.natCast_nonneg, not_lt.2, if_false, Int.toNat_natCast]

/-- `deletekey` in an inner node that does not have the key. -/
theorem deletekey_inner {T : Sub α (d + 2)} (g : Good V s.heap T)
    (hr : (deletePos s T.top k dk).2 ≠ 0) (fuel : Nat) (plist : PList) :
    deletekey k dk drt (fuel + 1) T.addr p pi plist s = (do
      let (x, xp, i) ← rebalanceCase3 T.addr (wayOf s T.top k dk) drt p pi
      let dwd ← deletekey k dk drt fuel xp x i (addBP plist x i)
      settleScion x dk dwd.dr drt
      pure dwd : BtM α (Dwd α)) (s.paid drt T) := by
  have henter := payScion_run g drt
  obtain ⟨x, nd, kid, rfl⟩ := exists_node T
  have hl := g.inner
  simp only [Sub.addr_node, Sub.top_node] at henter hr ⊢
  simp only [deletekey, run_bind (run_get s), run_bind (getN_run g.node.live), run_bind henter, hl,
    Bool.false_eq_true, if_false, hr, wayOf]

omit [RowStream α] in
/-- The slot from which a leaf gives an entry. -/
theorem take_slot {T : Sub α 1} (hdk : dk ≠ .none) (hn : 0 < T.size) :
    (if dk = .b2 then (deletePos s T.top k dk).1 + 1 else (deletePos s T.top k dk).1) =
      ((if dk = .b2 then 0 else T.size - 1 : Nat) : Int) := by
  rw [T.size_top] at hn ⊢
  cases dk with
  | none => exact absurd rfl hdk
  | a2 =>
      simp only [deletePos, reduceCtorEq, if_false]
      omega
  | b2 => simp [deletePos]

theorem take_leaf {T : Sub α 1} (g : Good V s.heap T) (L : Link s T.addrs T.addr p pi)
    (ht : s.t = V.t) (hs : s.s.sane) (hrich : V.t ≤ T.size) (hdk : dk ≠ .none) (fuel : Nat)
    (plist : PList) :
    ∃ dwd s' T', deletekey k dk drt (fuel + 1) T.addr p pi plist s = some (dwd, s') ∧
      Taken V dk s s' T T' p pi dwd := by
  have h2 := V.two_le
  have o := g.paid drt L
  have hslot := take_slot (s := s) (k := k) hdk (show 0 < T.size by omega)
  have hi : (if dk = .b2 then 0 else T.size - 1) < T.size := by split_ifs <;> omega
  rw [deletekey_leaf g hslot fuel plist]
  generalize hj : (if dk = .b2 then 0 else T.size - 1) = i at hi hslot
  obtain ⟨x, nd, kid, rfl⟩ := exists_node T
  have hw : Sub.paid drt (Sub.node x nd kid) = Sub.node x (nd.addSc (- debt drt)) kid := by
    cases drt <;> simp [Sub.paid, debt, BtN.addSc]
  have hpaid : (s.paid drt (Sub.node x nd kid)).heap x = some (nd.addSc (- debt drt)) := by
    rw [Bt.paid, hw]
    exact upd_same _ _ _
  obtain ⟨nd', hrun, D⟩ := deleteCase1_take hpaid ht hs
    (View.P_addSc _ g.node.disc) g.node.seen hi hdk drt p pi plist
  have hsum : (nd.addSc (- debt drt)).addSc (-((1 - debt drt) + (nd.dr i : Int))) =
      nd.addSc (-(1 + (nd.dr i : Int))) := by
    simp only [BtN.addSc]
    congr 1
    omega
  change Dropped V ((nd.addSc (- debt drt)).addSc (-((1 - debt drt) + (nd.dr i : Int)))) nd' i at D
  rw [hsum] at D
  have hbuf : ∀ b, ((s.paid drt (Sub.node x nd kid)).withBuf b).setHeap x (some nd') =
      (s.setHeap x (some nd')).withBuf b := fun b => by
    simp [Bt.paid, Bt.withBuf, Bt.setHeap]
  obtain ⟨A, B, hA, hB, hA', hB'⟩ := D.flat hi x kid
  have hends : AtEnd dk (V.see (nd.keys i) (nd.dr i)) ((Sub.node x nd kid).flat V)
      ((Sub.node x nd' kid).flat V) := by
    rw [hB]
    cases dk with
    | none => exact absurd rfl hdk
    | a2 =>
        have hB0 : B = [] := by
          have hz : nd.n - (i + 1) = 0 := by
            rw [← hj, Sub.size_node]
            simp only [reduceCtorEq, if_false]
            omega
          rw [hB']
          simp [hz]
        rw [hB0, List.append_nil]
        rw [hB0] at hA
        exact hA
    | b2 =>
        have hA0 : A = [] := by
          rw [hA', ← hj]
          rfl
        rw [hA0, List.nil_append]
        rw [hA0] at hA
        exact hA
  have hout : Out V 0 s (s.setHeap x (some nd')) (Sub.node x nd kid) (Sub.node x nd' kid) p pi := by
    refine leaf_out g L D.leaf ?_ D.disc (D.seen g.node.seen) (fun hc => ?_)
    · have := g.node.fill
      rw [D.num]
      show nd.n - 1 ≤ _
      omega
    · have h1 := hends.weight hc
      have h3 := g.sci hc
      have h4 := D.scion
      rw [BtN.addSc_scion] at h4
      omega
  have hheld := D.held (s := s.paid drt (Sub.node x nd kid)) (x := x)
    (R := (Sub.node x nd' kid).addrs) (Or.inl rfl)
  refine ⟨_, _, Sub.node x nd' kid, hrun, ?_, rfl, rfl, ?_,
    V.fits_dr i (View.P_addSc _ g.node.disc), nd.keys i, _, hends, hheld, ?_⟩
  · rw [hbuf]
    exact hout.withBuf _
  · rw [Sub.size_node, Sub.size_node, D.num]
    show nd.n ≤ nd.n - 1 + 1
    omega
  · show Replaced V s.s dk (nd.keys i) (nd.keys (if (s.s.narrow || s.s.bigBt) = false ∧ i + 1 < nd.n
      then i + 1 else i)) _
    split_ifs with hc
    · have hb : dk = .b2 := by
        by_contra hb
        rw [if_neg hb, Sub.size_node] at hj
        omega
      have h0 : 0 = i := by rwa [if_pos hb] at hj
      obtain ⟨m, hm⟩ : ∃ m, nd'.n = m + 1 := ⟨nd.n - 2, by
        rw [D.num]
        show nd.n - 1 = _
        omega⟩
      have he : V.entry nd' 0 = V.see (nd.keys (i + 1)) (nd.dr (i + 1)) := by
        rw [h0]
        exact D.hi i (Nat.le_refl i) hc.2
      have hcons := flat_leaf (V := V) x nd' kid
      rw [hm, List.range_succ_eq_map, List.map_cons, he] at hcons
      exact Or.inr ⟨hb, hc.1, _, _, hcons⟩
    · exact Or.inl rfl

omit [RowStream α] in
theorem Sub.pre_zero : ∀ (T : Sub α (d + 1)), T.pre V 0 = []
  | .node _ _ _ => rfl

omit [RowStream α] in
theorem Sub.post_size : ∀ (T : Sub α (d + 1)), T.post V T.size = []
  | .node _ nd _ => by
      show right _ _ nd.n (nd.n - nd.n) = []
      rw [Nat.sub_self]
      rfl

/-- An entry at the end of a kid is one at the end of the node when nothing is read
beyond the kid. -/
theorem AtEnd.wrap {b : β} {l l' A B : List β} (h : AtEnd dk b l l') (ha : dk = .a2 → B = [])
    (hb : dk = .b2 → A = []) : AtEnd dk b (A ++ (l ++ B)) (A ++ (l' ++ B)) := by
  cases dk with
  | none => exact absurd h id
  | a2 =>
      have h : l = l' ++ [b] := h
      simp [AtEnd, ha rfl, h]
  | b2 =>
      have h : l = b :: l' := h
      simp [AtEnd, hb rfl, h]

omit [RowStream α] in
theorem Replaced.wrap {b : Bts} {e e' : α} {l' A B : List β} (h : Replaced V b dk e e' l')
    (hb : dk = .b2 → A = []) : Replaced V b dk e e' (A ++ (l' ++ B)) := by
  rcases h with h | ⟨h1, h2, v, C, rfl⟩
  · exact Or.inl h
  · exact Or.inr ⟨h1, h2, v, C ++ B, by rw [hb h1]; rfl⟩

variable {s₁ : Bt α} {kid : Nat → Sub α (d + 1)} {i : Nat} {K' : Sub α (d + 1)} {dwd : Dwd α}

omit [RowStream α] in
/-- The entry has been taken from kid `i`, and the scion of the node is settled. -/
theorem Taken.lift (t : Taken V dk s s₁ (kid i) K' x i dwd)
    (g : Owing V s.heap (debt drt) (Sub.node x nd kid))
    (L : Link s (Sub.node x nd kid).addrs x p pi) (hi : i ≤ nd.n) (hrich : V.t ≤ (kid i).size)
    (ha : dk = .a2 → (Sub.node x nd kid).post V i = [])
    (hb : dk = .b2 → (Sub.node x nd kid).pre V i = []) (hdk : dk ≠ .none) :
    ∃ s' T', settleScion x dk dwd.dr drt s₁ = some ((), s') ∧ T'.size = nd.n ∧
      Taken V dk s s' (Sub.node x nd kid) T' p pi dwd := by
  obtain ⟨e, e', hend, hheld, hrep⟩ := t.ends
  have hx := t.out.parent g L hi
  have hloss := t.loss
  generalize hc : (if drt then 1 + (dwd.dr : Int) else (dwd.dr : Int)) = c
  have hF : Follows V (debt drt) 0 nd ((nd.setKid i K'.addr).addSc (-c)) i (kid i) K' := by
    refine ⟨rfl, rfl, View.P_addSc _ (View.P_setKid _ _ g.node.disc), fun j _ => rfl, rfl, ?_⟩
    intro hcnt
    rw [hend.weight hcnt, BtN.addSc_scion, BtN.setKid_scion]
    cases drt <;> simp only [debt, Bool.false_eq_true, if_true, if_false] at hc ⊢ <;> omega
  obtain ⟨hout, hflat⟩ := t.out.lift g L hi (by omega) hF
  have hkid : K'.addrs ⊆ (Sub.node x ((nd.setKid i K'.addr).addSc (-c))
      (splice i 0 0 (fun _ => K') kid)).addrs := fun b hb => by
    refine Or.inr ⟨i, hi, ?_⟩
    rwa [← Nat.add_zero i, splice_in (Nat.le_refl 0)]
  have hxK : x ∉ K'.addrs := by
    have := hout.good.node.apart i hi
    rwa [← Nat.add_zero i, splice_in (Nat.le_refl 0)] at this
  refine ⟨_, _, ?_, rfl, hout, t.left, t.ptr, Nat.le_succ _, t.fits, e, e', ?_, ?_, ?_⟩
  · rw [settleScion, if_neg hdk, hc, decrScion_run hx]
  · rw [hflat, (Sub.node x nd kid).flat_focus V (show i ≤ nd.n from hi)]
    exact hend.wrap ha hb
  · refine hheld.later rfl hkid (fun b hb nb hnb => ⟨nb, ?_, rfl⟩)
    rw [← hnb]
    exact upd_ne _ _ (fun e => hxK (e ▸ hb))
  · rw [hflat]
    exact hrep.wrap hb

omit [RowStream α] in
/-- Taking an entry of a node below which the tree was rebalanced first. -/
theorem Taken.after {owe : Int} {s₂ : Bt α} {T T₁ T₂ : Sub α (d + 1)} (o : Out V owe s s₁ T T₁ p pi)
    (L : Link s T.addrs T.addr p pi) (hq : s₁.globals = s.globals) (hsz : T.size ≤ T₂.size + 1)
    (hflat : T₁.flat V = T.flat V) (t : Taken V dk s₁ s₂ T₁ T₂ p pi dwd) :
    Taken V dk s s₂ T T₂ p pi dwd := by
  obtain ⟨e, e', hend, hheld, hrep⟩ := t.ends
  have hs : s₁.s = s.s := congrArg (fun r => r.2.2.2.2) o.edit.rest
  have h1 : s₁.dirtyLeft = s.dirtyLeft := congrArg (fun r => r.1) hq
  have h2 : s₁.case2cPtr = s.case2cPtr := congrArg (fun r => r.2.1) hq
  exact ⟨o.trans t.out L, t.left.trans h1, t.ptr.trans h2, hsz, t.fits, e, e', hflat ▸ hend, hheld,
    hs ▸ hrep⟩

/-- `deletekey` with `DK_2A` or `DK_2B`. -/
theorem take_run (hdk : dk ≠ .none) : ∀ {d : Nat} {s : Bt α} {T : Sub α (d + 1)} {p pi fuel : Nat},
    d < fuel → s.t = V.t → s.s.sane → Good V s.heap T → Link s T.addrs T.addr p pi →
    V.t ≤ T.size → Clear V k drt dk s T p pi → ∀ plist : PList,
    ∃ dwd s' T', deletekey k dk drt fuel T.addr p pi plist s = some (dwd, s') ∧
      Taken V dk s s' T T' p pi dwd := by
  intro d
  induction d with
  | zero =>
      intro s T p pi fuel hf ht hs g L hrich _ plist
      obtain ⟨f, rfl⟩ : ∃ f, fuel = f + 1 := ⟨fuel - 1, by omega⟩
      exact take_leaf g L ht hs hrich hdk f plist
  | succ d ih =>
      intro s T p pi fuel hf ht hs g L hrich hclear plist
      obtain ⟨f, rfl⟩ : ∃ f, fuel = f + 1 := ⟨fuel - 1, by omega⟩
      have h2 := V.two_le
      have o := g.paid drt L
      have hleaf : T.top.leaf = false := by
        obtain ⟨x, nd, kid, rfl⟩ := exists_node T
        exact g.inner
      have hr : (deletePos s T.top k dk).2 ≠ 0 := by
        cases dk with
        | none => exact absurd rfl hdk
        | a2 => simp [deletePos, hleaf]
        | b2 => simp [deletePos, hleaf]
      have hway : wayOf s T.top k dk = if dk = .b2 then 0 else T.size := by
        rw [T.size_top]
        cases dk with
        | none => exact absurd rfl hdk
        | a2 => simp [wayOf, deletePos]
        | b2 => simp [wayOf, deletePos]
      have hle : wayOf s T.top k dk ≤ T.size := by
        rw [hway]
        split_ifs <;> omega
      rw [Clear, if_neg hr] at hclear
      rw [deletekey_inner g hr]
      generalize wayOf s T.top k dk = w at hclear hway hle
      obtain ⟨i', s₂, T₂, hreb, R⟩ := rebalanceCase3_run (i := w) drt o.good (o.link L) ht
        (by rwa [Sub.paid_size]) (by rw [Sub.paid_size]; omega)
        (fun hd => keeps_paid.2 (hclear.1 hd))
      rw [Sub.paid_addr] at hreb
      have hclear₂ := hclear.2 i' s₂ T₂ hreb R
      have L₁ := o.link L
      have L₂ := R.out.link L₁
      have hrest : s₂.rest = s.rest := R.out.edit.rest.trans o.edit.rest
      obtain ⟨x, nd, kid, rfl⟩ := exists_node T₂
      have g₂ := R.out.good
      have hi : i' ≤ nd.n := R.fits
      have ht₂ : s₂.t = V.t := (congrArg (fun r => r.2.2.1) hrest).trans ht
      have hs₂ : s₂.s.sane := by
        rw [show s₂.s = s.s from congrArg (fun r => r.2.2.2.2) hrest]
        exact hs
      obtain ⟨dwd, s₃, K', hrun, t⟩ := ih (show d < f by omega) ht₂ hs₂ (g₂.kids i' hi)
        (L₂.toKid g₂ hi) R.rich hclear₂ (addBP plist x i')
      obtain ⟨A, B, hpre, hpost, hK⟩ := R.grown
      obtain ⟨s', T', hset, hsz, t'⟩ := t.lift g₂ L₂ hi R.rich
        (fun h => by
          have h0 : T.post V w = [] := by rw [hway, h]; exact T.post_size
          rw [Sub.paid_post, h0] at hpost
          exact (List.append_eq_nil_iff.1 hpost.symm).2)
        (fun h => by
          have h0 : T.pre V w = [] := by rw [hway, h]; exact T.pre_zero
          rw [Sub.paid_pre, h0] at hpre
          exact (List.append_eq_nil_iff.1 hpre.symm).1) hdk
      refine ⟨dwd, s', T', ?_, ?_⟩
      · rw [run_bind hreb]
        simp only [Sub.addr_node, Sub.kid_node] at hrun ⊢
        rw [run_bind hrun, run_bind hset]
        rfl
      · refine Taken.after (o.trans R.out L) L R.quiet ?_ ?_ t'
        · have := R.loss
          rw [Sub.paid_size, Sub.size_node] at this
          omega
        · rw [R.grown.flat (by rwa [Sub.paid_size]) R.fits, Sub.paid_flat]

end Take

end AlchemyDB
