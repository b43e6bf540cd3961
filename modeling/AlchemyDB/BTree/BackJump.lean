/-
# `AlchemyDB.BTree.BackJump` — OFFSET by scions, descending

The same count as for an ascending range, in the other direction: `iter_leaf_scion_rev`
counts off what is in front of the key in a leaf, `iter_node_scion_rev` the kid in front of
the key, and `btScionFind` begins with the last child.
-/
import AlchemyDB.BTree.BackSeek
import AlchemyDB.BTree.Jump

namespace AlchemyDB

open Store Weave

variable {α κ : Type} [LinearOrder κ] [RowStream α] {d D : Nat} {K : RangeKeys α κ} {tr : Trans}
  {b : Bt α} {T₀ : Sub α (D + 1)} {T : Sub α (d + 1)} {up : List BtLlN} {R P L : List (α × Nat)}

/-! ## One step by scion -/

/-- What is left to do when the OFFSET is used up. -/
def adjustBack (b : Bt α) (it : BtIterator) : Option BtIterator :=
  if it.bln.ik - it.data.overBy < 0 then toParent b false (it.at 0 0)
  else some (it.at (it.bln.ik - it.data.overBy) it.bln.iN)

/-- A step by scion counts off `k` entries, or ends the count. -/
def JumpedBack (tr : Trans) (b : Bt α) (T₀ : Sub α (D + 1)) (cnt ofst : Nat) (L : List (α × Nat))
    (it : BtIterator) : Prop :=
  (∃ k, 0 < k ∧ Tally it.data (cnt + k) ofst ∧ Back (tr.view α) T₀ it (L.drop k)) ∨
    (0 ≤ it.data.overBy ∧ (∃ nd, b.heap it.bln.self = some nd) ∧
      ∃ it', adjustBack b it = some it' ∧ Back (tr.view α) T₀ it' (L.drop (ofst - cnt)))

omit [LinearOrder κ] [RowStream α] in
/-- In a leaf the keys in front are dropped one by one. -/
theorem leaf_dropBack {r : Trans} {T : Sub α 1} {i : Nat} : ∀ {m : Nat},
    (P ++ T.pre (r.view α) (i + m)).reverse.drop m = (P ++ T.pre (r.view α) i).reverse
  | 0 => rfl
  | m + 1 => by
      rw [← Nat.add_assoc, T.pre_succ, T.kid_leaf, List.nil_append, ← List.append_assoc,
        List.reverse_append, List.reverse_singleton, List.singleton_append, List.drop_succ_cons,
        leaf_dropBack]

omit [RowStream α] in
/-- Where an iterator stands a slot can be read. -/
theorem Back.reads {it : BtIterator} (S : Scanned (tr.view α) K.key (fun c => K.key c.1) b T₀)
    (A : Back (tr.view α) T₀ it L) :
    ∃ nd, ∃ i : Nat, b.heap it.bln.self = some nd ∧ it.bln.ik = i ∧ i < nd.n ∧
      b.slot nd i = some (nd.keys i) ∧ (nd.keys i, nd.dr i) ∈ T₀.flat (tr.view α) := by
  rcases A.spot with ⟨_, hF⟩ | ⟨_, _, i, hi, hs, hik, _⟩
  · obtain ⟨d, T, R, j, P, H, hflat, -⟩ := hF.reads
    refine ⟨T.top, j, by rw [H.self]; exact S.heap H.trail, H.ik, T.size_top ▸ H.lt,
      S.slot H.trail H.lt, ?_⟩
    rw [hflat]
    exact List.mem_append_right _ (List.mem_append_left _ (T.entry_mem_flat H.lt))
  · exact ⟨T₀.top, i, by rw [hs]; exact S.heap .root, hik, T₀.size_top ▸ hi, S.slot .root hi,
      T₀.entry_mem_flat hi⟩

omit [RowStream α] in
/-- When the OFFSET is used up at a key, nothing is left to do. -/
theorem Back.adjusted {it : BtIterator} (S : Scanned (tr.view α) K.key (fun c => K.key c.1) b T₀)
    (A : Back (tr.view α) T₀ it L) (h : it.data.overBy = 0) : adjustBack b it = some it := by
  obtain ⟨nd, i, hheap, hik, hi, -⟩ := A.reads S
  have hc : ¬ it.bln.ik - it.data.overBy < 0 := by omega
  rw [adjustBack, if_neg hc, h, sub_zero]
  rfl

/-- After a jump to a key: the count goes on, or it has just ended. -/
theorem Back.settle {it : BtIterator} {cnt ofst k : Nat}
    (S : Scanned (tr.view α) K.key (fun c => K.key c.1) b T₀)
    (A : Back (tr.view α) T₀ it (L.drop k)) (hk : 0 < k) (hle : cnt + k ≤ ofst)
    (hd : it.data = ⟨(cnt + k : Nat), ofst, ofst - (cnt + k : Nat), -1⟩) :
    JumpedBack tr b T₀ cnt ofst L it.settle := by
  by_cases h0 : it.data.diff = 0
  · have hs : it.settle = it.stop := by rw [BtIterator.settle, if_pos h0]
    have hko : k = ofst - cnt := by
      rw [hd] at h0
      simp only at h0
      omega
    have A' : Back (tr.view α) T₀ it.stop (L.drop k) := ⟨A.room, A.cap, A.spot⟩
    obtain ⟨nd, -, hheap, -⟩ := A'.reads S
    rw [hs]
    exact .inr ⟨le_rfl, ⟨nd, hheap⟩, it.stop, A'.adjusted S rfl, hko ▸ A'⟩
  · have hs : it.settle = it := by rw [BtIterator.settle, if_neg h0]
    rw [hs]
    exact .inl ⟨k, hk, by rw [hd]; exact ⟨rfl, rfl, le_rfl, rfl, hle⟩, A⟩

omit [RowStream α] in
/-- `iter_leaf_scion_rev`. -/
theorem Standing.leaf_scion_rev {T : Sub α 1} {it : BtIterator} {cnt ofst j : Nat}
    {A : List (α × Nat)} (S : Scanned (tr.view α) K.key (fun c => K.key c.1) b T₀)
    (H : Standing (tr.view α) T₀ it.bln it.up A T R j)
    (hP : T₀.flat (tr.view α) = P ++ (T.flat (tr.view α) ++ R))
    (hL : L = (P ++ T.pre (tr.view α) (j + 1)).reverse) (hroom : it.up.length < it.numNodes)
    (hcap : it.numNodes ≤ maxBtreeDepth) (hfin : it.finished = false)
    (C : Tally it.data cnt ofst) :
    ∃ it', iterLeafScionRev b it = some it' ∧ JumpedBack tr b T₀ cnt ofst L it' := by
  have hlt := H.lt
  have hle := C.le
  have hik := H.ik
  obtain ⟨hn1, hn2, hn3, hn4, -⟩ := C
  have hheap : b.heap it.bln.self = some T.top := by rw [H.self]; exact S.heap H.trail
  -- the leaf is counted off
  have hall : L.drop (j + 1) = P.reverse := by
    rw [hL]
    have := leaf_dropBack (r := tr) (P := P) (T := T) (i := 0) (m := j + 1)
    rwa [Nat.zero_add, T.pre_zero, List.append_nil] at this
  by_cases hc : it.data.cnt + (it.bln.ik + 1) ≥ it.data.ofst
  · refine ⟨{ it with data := { it.data with overBy := it.data.ofst - it.data.cnt } },
      by rw [iterLeafScionRev]; exact if_pos hc, .inr ⟨by simp only; omega, ⟨T.top, hheap⟩, ?_⟩⟩
    by_cases hend : ofst - cnt = j + 1
    · have h0 : it.bln.ik - (it.data.ofst - it.data.cnt) < 0 := by omega
      obtain ⟨it', hrun, B, -⟩ := S.toParentBack (i := 0) (P := P)
        (I := ({ it with data := { it.data with overBy := it.data.ofst - it.data.cnt } } :
          BtIterator).at 0 0) H.trail H.self rfl (by omega) hP hroom hcap hfin
      refine ⟨it', ?_, by rw [hend, hall]; exact B⟩
      rw [adjustBack, if_pos h0]
      exact hrun
    · have h0 : ¬ it.bln.ik - (it.data.ofst - it.data.cnt) < 0 := by omega
      obtain ⟨m, hm⟩ : ∃ m, j = m + (ofst - cnt) := ⟨j - (ofst - cnt), by omega⟩
      refine ⟨({ it with data := { it.data with overBy := it.data.ofst - it.data.cnt } } :
        BtIterator).at (it.bln.ik - (it.data.ofst - it.data.cnt)) it.bln.iN, if_neg h0, hroom, hcap,
        .inl ⟨hfin, ?_⟩⟩
      have hdrop : L.drop (ofst - cnt) = (P ++ T.pre (tr.view α) (m + 1)).reverse := by
        rw [hL, show j + 1 = m + 1 + (ofst - cnt) by omega, leaf_dropBack]
      rw [hdrop]
      exact H.trail.faces (by omega) hP H.self (by simp only [BtIterator.at]; omega) fun h =>
        absurd rfl h
  · obtain ⟨it', hrun, B, hd⟩ := S.toParentBack (i := 0) (P := P)
      (I := { it.at 0 0 with data := it.data.count (it.bln.ik + 1) }) H.trail H.self rfl (by omega) hP
      hroom hcap hfin
    refine ⟨it', ?_, .inl ⟨j + 1, by omega, ?_, by rw [hall]; exact B⟩⟩
    · rw [iterLeafScionRev]
      exact (if_neg hc).trans hrun
    · rw [hd]
      exact ⟨by simp only [Fol.count]; omega, hn2, by simp only [Fol.count]; omega, hn4, by omega⟩

/-- `iter_node_scion_rev`. -/
theorem Standing.node_scion_rev {T : Sub α (d + 1 + 1)} {it : BtIterator} {cnt ofst j : Nat}
    {A : List (α × Nat)} (S : Scanned (tr.view α) K.key (fun c => K.key c.1) b T₀)
    (hdirty : b.dirty = false) (H : Standing (tr.view α) T₀ it.bln it.up A T R j)
    (hP : T₀.flat (tr.view α) = P ++ (T.flat (tr.view α) ++ R))
    (hL : L = (P ++ T.pre (tr.view α) (j + 1)).reverse) (hroom : it.up.length < it.numNodes)
    (hcap : it.numNodes ≤ maxBtreeDepth) (hfin : it.finished = false)
    (C : Tally it.data cnt ofst) :
    ∃ it', iterNodeScionRev b T.top it = some it' ∧ JumpedBack tr b T₀ cnt ofst L it' := by
  have hlt := H.lt
  have hN := H.iN (by omega)
  have hik := H.ik
  have hle := C.le
  obtain ⟨hn1, hn2, hn3, hn4, -⟩ := C
  have hkid : b.child T.top it.bln.iN = some (T.kid j).addr := by
    rw [hN]
    exact S.child H.trail hlt.le
  have t' := Trail.kid H.trail hlt.le (.left H.self H.ik hN hlt)
  have hscion := S.scion t'
  have hdr : dirtyDR b T.top it.bln.ik = 0 := by simp [dirtyDR, hdirty]
  have hP' : T₀.flat (tr.view α) = P ++ T.pre (tr.view α) j ++
      ((T.kid j).flat (tr.view α) ++ (T.post (tr.view α) j ++ R)) := by
    rw [hP, T.flat_focus _ hlt.le]
    simp only [List.append_assoc]
  have hread : L = (tr.view α).entry T.top j ::
      (((T.kid j).flat (tr.view α)).reverse ++ (P ++ T.pre (tr.view α) j).reverse) := by
    rw [hL, T.pre_succ]
    simp
  simp only [iterNodeScionRev, hkid, Option.bind_eq_bind, Option.bind_some, S.heap t', hdr, hscion,
    add_zero]
  set s := ((T.kid j).flat (tr.view α)).length with hs
  by_cases hjump : it.data.diff > (s : Int)
  · -- over the subtree, and the key behind it
    rw [if_pos hjump]
    have hd0 : ¬ (it.data.count ((s : Int) + 1)).diff < 0 := by
      simp only [Fol.count]
      omega
    rw [if_neg hd0]
    have hdata : it.data.count ((s : Int) + 1) =
        ⟨(cnt + (s + 1) : Nat), ofst, ofst - (cnt + (s + 1) : Nat), -1⟩ := by
      simp only [Fol.count, Fol.mk.injEq]
      omega
    have hdrop : L.drop (s + 1) = (P ++ T.pre (tr.view α) j).reverse := by
      rw [hread, List.drop_succ_cons, hs, ← List.length_reverse, List.drop_left]
    rcases Nat.eq_zero_or_pos j with rfl | hj0
    · have h0 : ¬ it.bln.ik ≠ 0 := by simp [hik]
      have h1 : ¬ it.bln.iN ≠ 0 := by simp [hN]
      rw [if_neg h0, if_neg h1]
      obtain ⟨it', hrun, B, hd⟩ := S.toParentBack (i := 0) (P := P)
        (I := { it with data := it.data.count ((s : Int) + 1) }) H.trail H.self hik hlt hP hroom hcap
        hfin
      have B' : Back (tr.view α) T₀ it' (L.drop (s + 1)) := by
        rw [hdrop, T.pre_zero, List.append_nil]
        exact B
      refine ⟨it'.settle, ?_, B'.settle S (Nat.succ_pos s) (by omega) (hd.trans hdata)⟩
      exact congrArg (Option.map BtIterator.settle) hrun
    · obtain ⟨m, rfl⟩ : ∃ m, j = m + 1 := ⟨j - 1, by omega⟩
      have h0 : it.bln.ik ≠ 0 := by omega
      have h1 : it.bln.iN ≠ 0 := by omega
      rw [if_pos h0, if_pos h1]
      refine ⟨_, rfl, Back.settle S ⟨hroom, hcap, .inl ⟨hfin, ?_⟩⟩ (Nat.succ_pos s) (by omega) hdata⟩
      rw [hdrop]
      exact H.trail.faces (by omega) hP H.self (by simp only [BtIterator.at]; omega) fun _ => by
        simp only [BtIterator.at]
        omega
  · rw [if_neg hjump]
    by_cases hd0 : (it.data.count 1).diff < 0
    · -- nothing is left to count
      have hko : ofst - cnt = 0 := by
        simp only [Fol.count] at hd0
        omega
      have B : Back (tr.view α) T₀ ({ it with data := it.data.count 1 } : BtIterator).stop L :=
        ⟨hroom, hcap, .inl ⟨hfin, hL ▸ H.trail.faces hlt hP H.self hik fun _ => hN⟩⟩
      obtain ⟨nd, -, hheap, -⟩ := B.reads S
      refine ⟨({ it with data := it.data.count 1 } : BtIterator).stop, if_pos hd0,
        .inr ⟨le_rfl, ⟨nd, hheap⟩, _, B.adjusted S rfl, ?_⟩⟩
      rw [hko]
      exact B
    · -- the key, and down to the last one in front of it
      have hdata : it.data.count 1 = ⟨(cnt + 1 : Nat), ofst, ofst - (cnt + 1 : Nat), -1⟩ := by
        simp only [Fol.count, Fol.mk.injEq]
        omega
      obtain ⟨it', hrun, B, hd⟩ := S.descendBack (i := { it with data := it.data.count 1 }) H.trail hlt
        H.self hik hN hP' hroom hcap hfin
      have B' : Back (tr.view α) T₀ it' (L.drop 1) := by
        rw [hread, List.drop_succ_cons, List.drop_zero, ← List.reverse_append]
        exact B
      refine ⟨it'.settle, ?_, B'.settle S Nat.one_pos (by simp only [Fol.count] at hd0; omega)
        (hd.trans hdata)⟩
      rw [if_neg hd0]
      exact congrArg (Option.map BtIterator.settle) hrun

/-! ## `XthIterFind` -/

theorem GoingBack.scion {si : BtSIter α κ} {c : α × Nat} {cnt ofst : Nat} (S : Searched K tr b T₀)
    (hdirty : b.dirty = false) (G : GoingBack tr T₀ si (c :: L)) (C : Tally si.x.data cnt ofst) :
    ∃ st it', btNext K b .scion false si = some (some st, { si with nim := false, x := it' }) ∧
      JumpedBack tr b T₀ cnt ofst (c :: L) it' := by
  have hT := S.scanned
  obtain ⟨hfin, hF⟩ := G.back.stand
  obtain ⟨d, T, R, j, P, H, hP, hL⟩ := hF.reads
  obtain ⟨h0, hsound⟩ := G.entry S
  have hc : c = (tr.view α).entry T.top j := by
    rw [T.pre_succ, ← List.append_assoc, ← List.append_assoc, List.reverse_append] at hL
    exact (List.cons.inj hL).1
  have hnull : K.null (T.top.keys j) = false := by
    have := hsound.null
    rwa [hc] at this
  have hdr : T.top.dr j = 0 := by
    have := h0
    rwa [hc] at this
  have hheap : b.heap si.x.bln.self = some T.top := by rw [H.self]; exact hT.heap H.trail
  have hstep : ∃ it', (if T.top.leaf then iLeaf b .scion false T.top si.x
      else iNode b .scion false T.top si.x) = some it' ∧ JumpedBack tr b T₀ cnt ofst (c :: L) it' := by
    cases d with
    | zero =>
        rw [if_pos ((H.trail.good S.clean.whole.good).top_leaf.2 rfl)]
        simp only [iLeaf, hdirty, Bool.false_eq_true, if_false]
        exact H.leaf_scion_rev hT hP hL G.back.room G.back.cap hfin C
    | succ d =>
        rw [if_neg fun h => absurd ((H.trail.good S.clean.whole.good).top_leaf.1 h) (by omega)]
        exact H.node_scion_rev hT hdirty hP hL G.back.room G.back.cap hfin C
  obtain ⟨it', hrun, hJ⟩ := hstep
  refine ⟨(T.top.keys j, si.x.bln.self, si.x.bln.ik), it', ?_, hJ⟩
  cases hl : T.top.leaf <;> rw [hl] at hrun <;>
    simp only [Bool.false_eq_true, if_false, if_true] at hrun <;>
    simp only [btNext, hfin, Bool.false_eq_true, if_false, hheap, H.ik, Option.bind_eq_bind,
      Option.bind_some, hT.slot H.trail H.lt, if_true, Int.toNat_natCast, hdr, ne_eq,
      not_true_eq_false, decide_false, hl, hrun, RangeKeys.stream, hnull]

/-- The loop of `XthIterFind` drops as many entries as the OFFSET says. -/
theorem Searched.xthLoopBack (S : Searched K tr b T₀) (hdirty : b.dirty = false) {o : Nat} :
    ∀ {f n : Nat} {s : BtSIter α κ} {L : List (α × Nat)}, o - n < f →
      GoingBack tr T₀ s L → s.scan = false → Tally s.x.data n o →
      ∃ si', AlchemyDB.xthLoop K b false f s = some si' ∧
        GoingBack tr T₀ si' (L.drop (o - n)) ∧ si'.high = s.high
  | 0, _, _, _, hf, _, _, _ => absurd hf (Nat.not_lt_zero _)
  | f + 1, n, s, [], _, G, hs, _ => by
      refine ⟨s, ?_, by simpa using G, rfl⟩
      simp [AlchemyDB.xthLoop, btNext_finished G.back.finished, hs]
  | f + 1, n, s, c :: L, hf, G, hs, C => by
      obtain ⟨st, it', hnext, hJ⟩ := G.scion S hdirty C
      rcases hJ with ⟨k, hk, C', A⟩ | ⟨hover, ⟨nd, hheap⟩, it'', hadj, A⟩
      · have G' : GoingBack tr T₀ { s with nim := false, x := it' } ((c :: L).drop k) :=
          ⟨A, G.empty, G.missed, rfl⟩
        have hle := C'.le
        obtain ⟨si', hrun, G'', hh⟩ := S.xthLoopBack hdirty (f := f) (n := n + k)
          (by omega) G' hs C'
        refine ⟨si', ?_, ?_, hh⟩
        · simp only [AlchemyDB.xthLoop, hnext, Option.bind_eq_bind, Option.bind_some, Option.isNone_some,
            Bool.false_eq_true, if_false, C'.overBy, if_true]
          exact hrun
        · rw [List.drop_drop, show k + (o - (n + k)) = o - n by omega] at G''
          exact G''
      · have hne : ¬ it'.data.overBy = -1 := by omega
        refine ⟨{ s with nim := false, x := it'' }, ?_, ⟨A, G.empty, G.missed, rfl⟩, rfl⟩
        simp only [AlchemyDB.xthLoop, hnext, Option.bind_eq_bind, Option.bind_some, Option.isNone_some,
          Bool.false_eq_true, if_false, hne, hdirty, hheap]
        rw [adjustBack] at hadj
        by_cases hn : it'.bln.ik - it'.data.overBy < 0
        · rw [if_pos hn] at hadj ⊢
          rw [hadj]
          rfl
        · rw [if_neg hn] at hadj ⊢
          obtain rfl := Option.some.inj hadj
          rfl

variable [DecidableEq κ] {low high : κ} {bkey : α}

/-- A descending range with an OFFSET gives the entries of the range without the first `ofst`. -/
theorem Searched.xthBack (S : Searched K tr b T₀) (hdirty : b.dirty = false)
    (hb : K.bkey high = some bkey) (hk : K.key bkey = high) (ofst : Nat) :
    ∃ g, btGetXthIter K b low high ofst false = some g ∧
      Delivers K b false (takes K false low ((backFrom K (endsInFront b bkey b.next b.root) high
        (T₀.flat (tr.view α))).drop ofst)) g := by
  by_cases hn : b.numkeys = 0
  · refine ⟨.null, by simp [btGetXthIter, hn], ?_⟩
    rw [S.cells_nil hn]
    simp [backFrom, onwards, takes, Delivers]
  obtain ⟨r, hrun, hr⟩ := S.setIterBack (f := low) (s := false) hn hk high
  generalize backFrom K (endsInFront b bkey b.next b.root) high (T₀.flat (tr.view α)) = L at hr
  cases hr with
  | off si hnil he hm =>
      refine ⟨.iter si, ?_, ?_⟩
      · simp [btGetXthIter, hn, xthIterFind, hb, hrun]
      · rw [hnil, List.drop_nil]
        exact ⟨si, by simp [btRangeNext, he], hm⟩
  | «at» e x i nd si hheap hdr hg G hh hs =>
      have hstream := streamToBTEntry_run (i := i) si hheap hg
      let si₁ : BtSIter α κ :=
        { si with be := some (e, nd.dr i.toNat), x := { si.x with data := ⟨0, ofst, 0, -1⟩ } }
      have G₁ : GoingBack tr T₀ si₁ L :=
        ⟨⟨G.back.room, G.back.cap, G.back.spot⟩, G.empty, G.missed, G.nim⟩
      obtain ⟨si₂, hloop, G₂, hh₂⟩ := S.xthLoopBack hdirty (f := ofst + 2 * b.next) (n := 0)
        (o := ofst) (s := si₁) (by have := S.clean.whole.depth; omega) G₁ hs
        ⟨rfl, rfl, by simp [si₁], rfl, Nat.zero_le _⟩
      obtain ⟨nd₂, j, hheap₂, hik₂, -, hslot₂, hmem₂⟩ := G₂.back.reads S.scanned
      have hsound₂ := (S.entry hmem₂).2
      have hstream₂ := streamToBTEntry_run (i := si₂.x.bln.ik) si₂ hheap₂ hsound₂.ghost
      refine ⟨.iter { si₂ with
        be := some (nd₂.keys j, nd₂.dr si₂.x.bln.ik.toNat), nim := false, missed := false,
        empty := false }, ?_, ?_⟩
      · rw [hik₂] at hstream₂
        simp only [btGetXthIter, hn, if_false, xthIterFind, hb, hrun, Option.bind_eq_bind,
          Option.bind_some, hstream, Bool.false_eq_true, hik₂,
          hdirty, Bool.false_and]
        rw [hloop]
        simp only [Option.bind_some, hheap₂, hik₂, hslot₂, hsound₂.null, Bool.false_eq_true, if_false,
          hstream₂, if_true]
      · have G₃ : GoingBack tr T₀ { si₂ with
            be := some (nd₂.keys j, nd₂.dr si₂.x.bln.ik.toNat), nim := false, missed := false,
            empty := false } (L.drop ofst) := ⟨G₂.back, rfl, rfl, rfl⟩
        have hlow : low = si₂.high := by rw [hh₂, ← hh]
        rw [hlow]
        exact G₃.yields S

omit [LinearOrder κ] in
/-- What starts from the null pointer is empty. -/
theorem null_back (h : K.bkey high = none) (ofst : Nat) :
    (∃ g, btGetRangeIter K b low high false = some g ∧ Delivers K b false [] g) ∧
      ∃ g, btGetXthIter K b low high ofst false = some g ∧ Delivers K b false [] g := by
  by_cases hn : b.numkeys = 0
  · exact ⟨⟨.null, by simp [btGetRangeIter, hn], rfl⟩, .null, by simp [btGetXthIter, hn], rfl⟩
  · refine ⟨⟨.leaked, by simp [btGetRangeIter, hn, h], rfl⟩, .iter (createIterator b low false),
      by simp [btGetXthIter, hn, xthIterFind, h], ?_⟩
    exact ⟨createIterator b low false, by simp [btRangeNext, createIterator], rfl⟩

end AlchemyDB
