/-
# `AlchemyDB.BTree.Jump` — OFFSET by scions

In a clean tree the scion of a node is the number of the keys below it.  `XthIterFind`
counts leaves and subtrees off the OFFSET until the rest of it ends in a leaf or at a key,
and `btScionFind` goes down to the child that the OFFSET ends in; both leave the iterator
with the list before it that is left when OFFSET entries are dropped.
-/
import AlchemyDB.BTree.Seek

namespace AlchemyDB

open Store Weave

variable {α κ : Type} [LinearOrder κ] [RowStream α] {d D : Nat} {K : RangeKeys α κ} {tr : Trans}
  {b : Bt α} {T₀ : Sub α (D + 1)} {T : Sub α (d + 1)} {up : List BtLlN} {R L : List (α × Nat)}

/-! ## Scions -/

omit [RowStream α] in
/-- The scion of a node is the length of its reading. -/
theorem Scanned.scion (S : Scanned (tr.view α) K.key (fun c => K.key c.1) b T₀)
    (t : Trail (tr.view α) T₀ T up R) : T.top.scion = (T.flat (tr.view α)).length := by
  have g := t.good S.good
  have hw : ((T.flat (tr.view α)).map (tr.view α).wt).sum = (T.flat (tr.view α)).length := by
    have h : (T.flat (tr.view α)).map (tr.view α).wt = (T.flat (tr.view α)).map fun _ => (1 : Int) :=
      List.map_congr_left fun c hc => by
        rw [flat_clean] at hc
        show (1 : Int) + c.2 = 1
        rw [cells_clean _ g c hc]
        rfl
    rw [h]
    simp
  have hs := g.scion trivial
  rw [Sub.weight, hw] at hs
  obtain ⟨a, nd, kid, rfl⟩ := exists_node T
  exact hs

omit [LinearOrder κ] [RowStream α] in
/-- A leaf reads its keys. -/
theorem leaf_post {r : Trans} {T : Sub α 1} : ∀ {m j : Nat}, j + m = T.size →
    T.post (r.view α) j = (List.range m).map fun i => (T.top.keys (j + i), T.top.dr (j + i))
  | 0, j, h => by
      obtain rfl : j = T.size := by omega
      rw [T.post_size]
      rfl
  | m + 1, j, h => by
      rw [T.post_at (by omega), T.kid_leaf, List.nil_append, leaf_post (m := m) (by omega),
        List.range_succ_eq_map, List.map_cons, List.map_map]
      refine congrArg₂ List.cons rfl (List.map_congr_left fun i _ => ?_)
      simp only [Function.comp_apply, Nat.succ_eq_add_one]
      rw [show j + 1 + i = j + (i + 1) by omega]

omit [LinearOrder κ] [RowStream α] in
theorem leaf_drop {T : Sub α 1} {j m : Nat} (h : j + m ≤ T.size) :
    (T.post (tr.view α) j ++ R).drop m = T.post (tr.view α) (j + m) ++ R := by
  induction m generalizing j with
  | zero => rfl
  | succ m ih =>
      rw [T.post_at (by omega), T.kid_leaf, List.nil_append, List.cons_append, List.drop_succ_cons,
        ih (by omega), show j + 1 + m = j + (m + 1) by omega]

/-! ## One step by scion -/

/-- What is left to do when the OFFSET is used up. -/
def adjust (b : Bt α) (it : BtIterator) : Option BtIterator := do
  let nd ← b.heap it.bln.self
  if it.bln.ik + it.data.overBy = nd.n then
    toParent b true (it.at (it.bln.ik + it.data.overBy - 1) it.bln.iN)
  else some (it.at (it.bln.ik + it.data.overBy) it.bln.iN)

/-- The counters before a step: `cnt` entries are counted off. -/
structure Tally (fl : Fol) (cnt ofst : Nat) : Prop where
  num : fl.cnt = cnt
  aim : fl.ofst = ofst
  diff : fl.diff ≤ (ofst : Int) - cnt
  overBy : fl.overBy = -1
  le : cnt ≤ ofst

/-- A step by scion counts off `k` entries, or ends the count. -/
def Jumped (tr : Trans) (b : Bt α) (T₀ : Sub α (D + 1)) (cnt ofst : Nat) (L : List (α × Nat))
    (it : BtIterator) : Prop :=
  (∃ k, 0 < k ∧ Tally it.data (cnt + k) ofst ∧ Ahead (tr.view α) T₀ it (L.drop k)) ∨
    (0 ≤ it.data.overBy ∧
      ∃ it', adjust b it = some it' ∧ Ahead (tr.view α) T₀ it' (L.drop (ofst - cnt)))

omit [LinearOrder κ] [RowStream α] in
theorem BtIterator.at_self (it : BtIterator) : it.at it.bln.ik it.bln.iN = it := rfl

omit [RowStream α] in
/-- Where an iterator stands a slot can be read. -/
theorem Ahead.reads {it : BtIterator} (S : Scanned (tr.view α) K.key (fun c => K.key c.1) b T₀)
    (A : Ahead (tr.view α) T₀ it L) :
    ∃ nd, ∃ i : Nat, b.heap it.bln.self = some nd ∧ it.bln.ik = i ∧ i < nd.n ∧
      b.slot nd i = some (nd.keys i) ∧ (nd.keys i, nd.dr i) ∈ T₀.flat (tr.view α) := by
  rcases A.spot with ⟨_, d, T, R, j, H⟩ | ⟨_, _, i, hi, hs, hik, _⟩
  · refine ⟨T.top, j, by rw [H.self]; exact S.heap H.trail, H.ik, T.size_top ▸ H.lt,
      S.slot H.trail H.lt, ?_⟩
    obtain ⟨l, hl⟩ := H.trail.reads
    rw [hl]
    exact List.mem_append_right _ (List.mem_append_left _ (T.entry_mem_flat H.lt))
  · exact ⟨T₀.top, i, by rw [hs]; exact S.heap .root, hik, T₀.size_top ▸ hi, S.slot .root hi,
      T₀.entry_mem_flat hi⟩

omit [RowStream α] in
/-- When the OFFSET is used up at a key, nothing is left to do. -/
theorem Ahead.adjusted {it : BtIterator} (S : Scanned (tr.view α) K.key (fun c => K.key c.1) b T₀)
    (A : Ahead (tr.view α) T₀ it L) (h : it.data.overBy = 0) : adjust b it = some it := by
  obtain ⟨nd, i, hheap, hik, hi, -⟩ := A.reads S
  have hc : ¬ (i : Int) = nd.n := by omega
  simp only [adjust, hheap, Option.bind_eq_bind, Option.bind_some, h, add_zero, hik, if_neg hc]
  rw [← hik]
  rfl

/-- After a jump to a key: the count goes on, or it has just ended. -/
theorem Ahead.settle {it : BtIterator} {cnt ofst k : Nat}
    (S : Scanned (tr.view α) K.key (fun c => K.key c.1) b T₀)
    (A : Ahead (tr.view α) T₀ it (L.drop k)) (hk : 0 < k) (hle : cnt + k ≤ ofst)
    (hd : it.data = ⟨(cnt + k : Nat), ofst, ofst - (cnt + k : Nat), -1⟩) :
    Jumped tr b T₀ cnt ofst L it.settle := by
  by_cases h0 : it.data.diff = 0
  · have hs : it.settle = it.stop := by rw [BtIterator.settle, if_pos h0]
    have hko : k = ofst - cnt := by
      rw [hd] at h0
      simp only at h0
      omega
    have A' : Ahead (tr.view α) T₀ it.stop (L.drop k) := ⟨A.room, A.cap, A.spot⟩
    rw [hs]
    exact .inr ⟨le_rfl, it.stop, A'.adjusted S rfl, hko ▸ A'⟩
  · have hs : it.settle = it := by rw [BtIterator.settle, if_neg h0]
    rw [hs]
    exact .inl ⟨k, hk, by rw [hd]; exact ⟨rfl, rfl, le_rfl, rfl, hle⟩, A⟩

omit [RowStream α] in
/-- `iter_leaf_scion`. -/
theorem Standing.leaf_scion {T : Sub α 1} {it : BtIterator} {cnt ofst j : Nat}
    (S : Scanned (tr.view α) K.key (fun c => K.key c.1) b T₀)
    (H : Standing (tr.view α) T₀ it.bln it.up L T R j) (hroom : it.up.length < it.numNodes)
    (hcap : it.numNodes ≤ maxBtreeDepth) (hfin : it.finished = false)
    (C : Tally it.data cnt ofst) :
    ∃ it', iterLeafScion b T.top it = some it' ∧ Jumped tr b T₀ cnt ofst L it' := by
  have hsz := T.size_top
  have hlt := H.lt
  have hheap : b.heap it.bln.self = some T.top := by rw [H.self]; exact S.heap H.trail
  have hpost : (T.post (tr.view α) j ++ R).drop (T.size - j) = R := by
    rw [leaf_drop (by omega), show j + (T.size - j) = T.size by omega, T.post_size, List.nil_append]
  have hle := C.le
  by_cases hc : it.data.cnt + ((T.top.n : Int) - it.bln.ik) ≥ it.data.ofst
  · -- the OFFSET ends in the leaf, or with its last key
    have hrest : ofst - cnt ≤ T.size - j := by
      rw [C.num, C.aim, H.ik] at hc
      omega
    refine ⟨{ it with data := { it.data with overBy := it.data.ofst - it.data.cnt } },
      by rw [iterLeafScion]; exact if_pos hc, .inr ⟨?_, ?_⟩⟩
    · show (0 : Int) ≤ it.data.ofst - it.data.cnt
      rw [C.num, C.aim]
      omega
    · have hover : it.bln.ik + (it.data.ofst - it.data.cnt) = ((j + (ofst - cnt) : Nat) : Int) := by
        rw [C.num, C.aim, H.ik]
        omega
      by_cases hend : j + (ofst - cnt) = T.size
      · have hn : ((j + (ofst - cnt) : Nat) : Int) = T.top.n := by omega
        obtain ⟨it', hrun, A, -⟩ := S.toParent (i := T.size - 1)
          (I := { it with
            bln := { it.bln with ik := ((j + (ofst - cnt) : Nat) : Int) - 1 }
            data := { it.data with overBy := it.data.ofst - it.data.cnt } })
          H.trail H.self (by simp only; omega) (by omega) hroom hcap hfin
        refine ⟨it', ?_, ?_⟩
        · simp only [adjust, hheap, Option.bind_eq_bind, Option.bind_some, hover, if_pos hn]
          exact hrun
        · rw [H.read, show ofst - cnt = T.size - j by omega, hpost]
          exact A
      · have hn : ¬ ((j + (ofst - cnt) : Nat) : Int) = T.top.n := by omega
        refine ⟨{ it with
            bln := { it.bln with ik := ((j + (ofst - cnt) : Nat) : Int) }
            data := { it.data with overBy := it.data.ofst - it.data.cnt } }, ?_, hroom, hcap,
          .inl ⟨hfin, 0, T, R, j + (ofst - cnt), H.trail, H.self, rfl, by omega,
            fun h => absurd rfl h, ?_⟩⟩
        · simp only [adjust, hheap, Option.bind_eq_bind, Option.bind_some, hover, if_neg hn]
          rfl
        · rw [H.read, leaf_drop (by omega)]
  · have hrest : T.size - j < ofst - cnt := by
      rw [C.num, C.aim, H.ik] at hc
      omega
    obtain ⟨it', hrun, A, hd⟩ := S.toParent (i := T.size - 1)
      (I := { it.at ((T.top.n : Int) - 1) T.top.n with
        data := it.data.count ((T.top.n : Int) - it.bln.ik) })
      H.trail H.self (by simp only [BtIterator.at]; omega) (by omega) hroom hcap hfin
    refine ⟨it', ?_, .inl ⟨T.size - j, by omega, ?_, ?_⟩⟩
    · rw [iterLeafScion]
      exact (if_neg hc).trans hrun
    · rw [hd]
      have h1 := C.num
      have h2 := C.aim
      have h3 := H.ik
      exact ⟨by simp only [Fol.count]; omega, h2, by simp only [Fol.count]; omega, C.overBy, by omega⟩
    · rw [H.read, hpost]
      exact A

/-- `iter_node_scion`. -/
theorem Standing.node_scion {T : Sub α (d + 1 + 1)} {it : BtIterator} {cnt ofst j : Nat}
    (S : Scanned (tr.view α) K.key (fun c => K.key c.1) b T₀) (hdirty : b.dirty = false)
    (H : Standing (tr.view α) T₀ it.bln it.up L T R j) (hroom : it.up.length < it.numNodes)
    (hcap : it.numNodes ≤ maxBtreeDepth) (hfin : it.finished = false)
    (C : Tally it.data cnt ofst) :
    ∃ it', iterNodeScion b T.top it = some it' ∧ Jumped tr b T₀ cnt ofst L it' := by
  have hsz := T.size_top
  have hlt := H.lt
  have hN := H.iN (by omega)
  have hik := H.ik
  have hle := C.le
  obtain ⟨hn1, hn2, hn3, hn4, -⟩ := C
  have hkidN : ¬ it.bln.iN = (T.top.n : Int) := by omega
  have hkid : b.child T.top (it.bln.iN + 1) = some (T.kid (j + 1)).addr := by
    rw [show it.bln.iN + 1 = ((j + 1 : Nat) : Int) by omega]
    exact S.child H.trail hlt
  let ik : Int := if it.bln.ik + 1 < T.top.n then it.bln.ik + 1 else it.bln.ik
  have B : Beside { it.bln with ik := ik, iN := it.bln.iN + 1 } T (j + 1) := by
    by_cases hn : j + 1 < T.size
    · have hk : ik = j + 1 := by
        simp only [ik]
        rw [if_pos (by omega)]
        omega
      exact .left H.self (by simp [hk]) (by simp [hN]) hn
    · have hk : ik = j := by
        simp only [ik]
        rw [if_neg (by omega)]
        omega
      exact .right H.self (by simp [hk]) (Nat.succ_pos j) (.inr ⟨by simp [hN], by omega⟩)
  have t' := Trail.kid H.trail hlt B
  have hscion := S.scion t'
  have hread : L = (tr.view α).entry T.top j :: ((T.kid (j + 1)).flat (tr.view α) ++
      (T.post (tr.view α) (j + 1) ++ R)) := by
    rw [H.read, T.post_at hlt]
    simp
  have hdr : dirtyDR b T.top it.bln.ik = 0 := by simp [dirtyDR, hdirty]
  simp only [iterNodeScion, if_neg hkidN, hkid, Option.bind_eq_bind, Option.bind_some, S.heap t', hdr,
    hscion, add_zero]
  set s := ((T.kid (j + 1)).flat (tr.view α)).length with hs
  by_cases hjump : it.data.diff > (s : Int)
  · -- over the subtree, and the key before it
    rw [if_pos hjump]
    have hd0 : ¬ (it.data.count ((s : Int) + 1)).diff < 0 := by
      simp only [Fol.count]
      omega
    rw [if_neg hd0]
    have hdata : it.data.count ((s : Int) + 1) =
        ⟨(cnt + (s + 1) : Nat), ofst, ofst - (cnt + (s + 1) : Nat), -1⟩ := by
      simp only [Fol.count, Fol.mk.injEq]
      omega
    have hdrop : L.drop (s + 1) = T.post (tr.view α) (j + 1) ++ R := by
      rw [hread, List.drop_succ_cons, hs, List.drop_left]
    by_cases hn : it.bln.iN + 1 < (T.top.n : Int)
    · rw [if_pos hn]
      have hk : ik = j + 1 := by
        simp only [ik]
        rw [if_pos (by omega)]
        omega
      refine ⟨_, rfl, Ahead.settle S ⟨hroom, hcap, .inl ⟨hfin, d + 1, T, R, j + 1, H.trail, H.self,
        by simpa [BtIterator.at] using hk, by omega, fun _ => by simp [BtIterator.at, hN], hdrop⟩⟩
        (Nat.succ_pos s) (by omega) hdata⟩
    · rw [if_neg hn]
      have hk : ik = j := by
        simp only [ik]
        rw [if_neg (by omega)]
        omega
      obtain ⟨it', hrun, A, hd⟩ := S.toParent (i := j)
        (I := { it.at ik it.bln.iN with data := it.data.count ((s : Int) + 1) })
        H.trail H.self (by simpa [BtIterator.at] using hk) hlt hroom hcap hfin
      have A' : Ahead (tr.view α) T₀ it' (L.drop (s + 1)) := by
        rw [hdrop, show j + 1 = T.size by omega, T.post_size, List.nil_append]
        exact A
      refine ⟨it'.settle, ?_, A'.settle S (Nat.succ_pos s) (by omega) (hd.trans hdata)⟩
      exact congrArg (Option.map BtIterator.settle) hrun
  · rw [if_neg hjump]
    by_cases hd0 : (it.data.count 1).diff < 0
    · -- nothing is left to count
      have hko : ofst - cnt = 0 := by
        simp only [Fol.count] at hd0
        omega
      have A : Ahead (tr.view α) T₀ ({ it with data := it.data.count 1 } : BtIterator).stop L :=
        ⟨hroom, hcap, .inl ⟨hfin, d + 1, T, R, j, H⟩⟩
      refine ⟨({ it with data := it.data.count 1 } : BtIterator).stop, if_pos hd0, .inr ⟨le_rfl, _, A.adjusted S rfl, ?_⟩⟩
      rw [hko]
      exact A
    · -- the key, and down to the first one behind it
      have hdata : it.data.count 1 = ⟨(cnt + 1 : Nat), ofst, ofst - (cnt + 1 : Nat), -1⟩ := by
        simp only [Fol.count, Fol.mk.injEq]
        omega
      obtain ⟨it', hrun, A, -, hd⟩ := S.descend
        (i := { it.at ik (it.bln.iN + 1) with data := it.data.count 1 }) H.trail hlt B
        (by simp [BtIterator.at, hN]) hroom hcap hfin
      have hdrop : L.drop 1 = (T.kid (j + 1)).flat (tr.view α) ++
          (T.post (tr.view α) (j + 1) ++ R) := by
        rw [hread]
        rfl
      have A' : Ahead (tr.view α) T₀ it' (L.drop 1) := by
        rw [hdrop]
        exact A
      refine ⟨it'.settle, ?_, A'.settle S Nat.one_pos (by simp only [Fol.count] at hd0; omega) (hd.trans hdata)⟩
      rw [if_neg hd0]
      exact congrArg (Option.map BtIterator.settle) hrun

/-! ## `XthIterFind` -/

theorem Going.scion {si : BtSIter α κ} {c : α × Nat} {cnt ofst : Nat} (S : Searched K tr b T₀)
    (hdirty : b.dirty = false) (G : Going tr T₀ si (c :: L)) (C : Tally si.x.data cnt ofst) :
    ∃ st it', btNext K b .scion true si =
        some (some st, { si with missed := false, nim := false, x := it' }) ∧
      Jumped tr b T₀ cnt ofst (c :: L) it' := by
  have hT := S.scanned
  obtain ⟨hfin, d, T, R, j, H⟩ := G.ahead.stand
  have hread := H.read
  rw [T.post_at H.lt, List.cons_append] at hread
  obtain ⟨hc, -⟩ := List.cons.inj hread
  obtain ⟨h0, hsound⟩ := G.entry S
  have hnull : K.null (T.top.keys j) = false := by
    have := hsound.null
    rwa [hc] at this
  have hdr : T.top.dr j = 0 := by
    have := h0
    rwa [hc] at this
  have hheap : b.heap si.x.bln.self = some T.top := by rw [H.self]; exact hT.heap H.trail
  have hstep : ∃ it', (if T.top.leaf then iLeaf b .scion true T.top si.x
      else iNode b .scion true T.top si.x) = some it' ∧ Jumped tr b T₀ cnt ofst (c :: L) it' := by
    cases d with
    | zero =>
        rw [if_pos ((H.trail.good S.clean.whole.good).top_leaf.2 rfl)]
        simp only [iLeaf, hdirty, Bool.false_eq_true, if_false]
        exact H.leaf_scion hT G.ahead.room G.ahead.cap hfin C
    | succ d =>
        rw [if_neg fun h => absurd ((H.trail.good S.clean.whole.good).top_leaf.1 h) (by omega)]
        exact H.node_scion hT hdirty G.ahead.room G.ahead.cap hfin C
  obtain ⟨it', hrun, hJ⟩ := hstep
  refine ⟨(T.top.keys j, si.x.bln.self, si.x.bln.ik), it', ?_, hJ⟩
  have hnim := G.nim
  cases hl : T.top.leaf <;> rw [hl] at hrun <;>
    simp only [Bool.false_eq_true, if_false, if_true] at hrun <;>
    simp only [btNext, hfin, Bool.false_eq_true, if_false, hheap, H.ik, Option.bind_eq_bind,
      Option.bind_some, hT.slot H.trail H.lt, if_true, Int.toNat_natCast, hdr, ne_eq,
      not_true_eq_false, decide_false, hl, hrun, RangeKeys.stream, hnull, hnim]

/-- The loop of `XthIterFind` drops as many entries as the OFFSET says. -/
theorem Searched.xthLoop (S : Searched K tr b T₀) (hdirty : b.dirty = false) {o : Nat} :
    ∀ {f n : Nat} {s : BtSIter α κ} {L : List (α × Nat)}, o - n < f →
      Going tr T₀ s L → s.scan = false → Tally s.x.data n o →
      ∃ si', AlchemyDB.xthLoop K b true f s = some si' ∧
        Going tr T₀ si' (L.drop (o - n)) ∧ si'.high = s.high
  | 0, _, _, _, hf, _, _, _ => absurd hf (Nat.not_lt_zero _)
  | f + 1, n, s, [], _, G, hs, _ => by
      refine ⟨s, ?_, by simpa using G, rfl⟩
      simp [AlchemyDB.xthLoop, btNext_finished G.ahead.finished, hs]
  | f + 1, n, s, c :: L, hf, G, hs, C => by
      obtain ⟨st, it', hnext, hJ⟩ := G.scion S hdirty C
      rcases hJ with ⟨k, hk, C', A⟩ | ⟨hover, it'', hadj, A⟩
      · have G' : Going tr T₀ { s with missed := false, nim := false, x := it' } ((c :: L).drop k) :=
          ⟨A, G.empty, rfl, rfl⟩
        have hle := C'.le
        obtain ⟨si', hrun, G'', hh⟩ := S.xthLoop hdirty (f := f) (n := n + k)
          (by omega) G' hs C'
        refine ⟨si', ?_, ?_, hh⟩
        · simp only [AlchemyDB.xthLoop, hnext, Option.bind_eq_bind, Option.bind_some, Option.isNone_some,
            Bool.false_eq_true, if_false, C'.overBy, if_true]
          exact hrun
        · rw [List.drop_drop, show k + (o - (n + k)) = o - n by omega] at G''
          exact G''
      · have hne : ¬ it'.data.overBy = -1 := by omega
        refine ⟨{ s with missed := false, nim := false, x := it'' }, ?_, ⟨A, G.empty, rfl, rfl⟩, rfl⟩
        simp only [AlchemyDB.xthLoop, hnext, Option.bind_eq_bind, Option.bind_some, Option.isNone_some,
          Bool.false_eq_true, if_false, hne, hdirty, if_true]
        simp only [adjust, Option.bind_eq_bind] at hadj
        cases hh : b.heap it'.bln.self with
        | none => simp [hh] at hadj
        | some nd =>
            simp only [hh, Option.bind_some] at hadj ⊢
            by_cases hn : it'.bln.ik + it'.data.overBy = (nd.n : Int)
            · rw [if_pos hn] at hadj ⊢
              rw [hadj]
              rfl
            · rw [if_neg hn] at hadj ⊢
              obtain rfl := Option.some.inj hadj
              rfl

variable [DecidableEq κ] {low high : κ} {bkey : α}

/-- A range with an OFFSET gives the entries of the range without the first `ofst`. -/
theorem Searched.xth (S : Searched K tr b T₀) (hdirty : b.dirty = false)
    (hb : K.bkey low = some bkey) (hk : K.key bkey = low) (ofst : Nat) :
    ∃ g, btGetXthIter K b low high ofst true = some g ∧
      Delivers K b true (taken K high ((onwards K low (T₀.flat (tr.view α))).drop ofst)) g := by
  by_cases hn : b.numkeys = 0
  · refine ⟨.null, by simp [btGetXthIter, hn], ?_⟩
    rw [S.cells_nil hn]
    simp [onwards, taken, Delivers]
  obtain ⟨r, hrun, hr⟩ := S.setIter (w := high) (s := false) hn hk low
  cases hr with
  | off si hnil he hm =>
      refine ⟨.iter si, ?_, ?_⟩
      · simp [btGetXthIter, hn, xthIterFind, hb, hrun]
      · rw [hnil, List.drop_nil]
        exact ⟨si, by simp [btRangeNext, he], hm⟩
  | «at» e x i nd si hheap hdr hg G hh hs =>
      have hstream := streamToBTEntry_run (i := i) si hheap hg
      let si₁ : BtSIter α κ :=
        { si with be := some (e, nd.dr i.toNat), x := { si.x with data := ⟨0, ofst, 0, -1⟩ } }
      have G₁ : Going tr T₀ si₁ (onwards K low (T₀.flat (tr.view α))) :=
        ⟨⟨G.ahead.room, G.ahead.cap, G.ahead.spot⟩, G.empty, G.missed, G.nim⟩
      obtain ⟨si₂, hloop, G₂, hh₂⟩ := S.xthLoop hdirty (f := ofst + 2 * b.next) (n := 0)
        (o := ofst) (s := si₁) (by have := S.clean.whole.depth; omega) G₁ hs
        ⟨rfl, rfl, by simp [si₁], rfl, Nat.zero_le _⟩
      obtain ⟨nd₂, j, hheap₂, hik₂, -, hslot₂, hmem₂⟩ := G₂.ahead.reads S.scanned
      have hsound₂ := (S.entry hmem₂).2
      have hstream₂ := streamToBTEntry_run (i := si₂.x.bln.ik) si₂ hheap₂ hsound₂.ghost
      refine ⟨.iter { si₂ with
        be := some (nd₂.keys j, nd₂.dr si₂.x.bln.ik.toNat), nim := false, missed := false,
        empty := false }, ?_, ?_⟩
      · rw [hik₂] at hstream₂
        simp only [btGetXthIter, hn, if_false, xthIterFind, hb, hrun, Option.bind_eq_bind,
          Option.bind_some, hstream, if_true, hik₂,
          hdirty, Bool.false_and]
        rw [hloop]
        simp only [Option.bind_some, hheap₂, hik₂, hslot₂, hsound₂.null, Bool.false_eq_true, if_false,
          hstream₂, if_true]
      · have G₃ : Going tr T₀ { si₂ with
            be := some (nd₂.keys j, nd₂.dr si₂.x.bln.ik.toNat), nim := false, missed := false,
            empty := false } ((onwards K low (T₀.flat (tr.view α))).drop ofst) :=
          ⟨G₂.ahead, rfl, rfl, rfl⟩
        have hhigh : high = si₂.high := by rw [hh₂, ← hh]
        rw [hhigh]
        exact G₃.yields S

omit [LinearOrder κ] in
/-- A range with an OFFSET from the null pointer is empty. -/
theorem xth_null (h : K.bkey low = none) (ofst : Nat) :
    ∃ g, btGetXthIter K b low high ofst true = some g ∧ Delivers K b true [] g := by
  by_cases hn : b.numkeys = 0
  · exact ⟨.null, by simp [btGetXthIter, hn], rfl⟩
  · refine ⟨.iter (createIterator b high false), by simp [btGetXthIter, hn, xthIterFind, h], ?_⟩
    exact ⟨createIterator b high false, by simp [btRangeNext, createIterator], rfl⟩

/-! ## `btScionFind` -/

omit [LinearOrder κ] [RowStream α] [DecidableEq κ] in
theorem slotLoop_clean {nd : BtN α} {isMin : Bool} {ofst : Nat} (hd : ∀ i, nd.dr i = 0)
    (hl : b.dirtyLeft = 0) : ∀ {fuel i : Nat}, i ≤ ofst → ofst ≤ i + fuel →
      slotLoop b true nd isMin ofst ofst fuel i 0 i = (0, ofst, (ofst : Int))
  | 0, i, h1, h2 => by
      obtain rfl : i = ofst := by omega
      rfl
  | fuel + 1, i, h1, h2 => by
      rw [slotLoop]
      by_cases hi : i = ofst
      · rw [if_pos (by omega), hi]
      · have h2' : ¬ (i : Int) = ofst := by omega
        have h3 : ¬ i ≥ ofst := by omega
        rw [if_neg h2']
        simp only [Int.toNat_natCast, hd, hl, ite_self, Nat.add_zero, if_neg h3, if_true]
        exact slotLoop_clean hd hl (i := i + 1) (by omega) (by omega)

omit [DecidableEq κ] in
/-- The rest of the OFFSET in a leaf. -/
theorem Searched.slotFind (S : Searched K tr b T₀) {T : Sub α 1} {si : BtSIter α κ} {ofst : Nat}
    (t : Trail (tr.view α) T₀ T si.x.up R) (hlt : ofst < T.size) :
    ∃ e, AlchemyDB.slotFind K b true T.addr ofst si =
      some (true, { si with x := si.x.at ofst si.x.bln.iN, be := e }) := by
  have hT := S.scanned
  have hsz := T.size_top
  have hclean : ∀ i, T.top.dr i = 0 := fun i => BtN.dr_clean (t.good S.clean.whole.good).top_disc i
  obtain ⟨x, nd, l, hmin, -, -⟩ := hT.minnode hT.whole.depth .root
    (by
      refine S.root_pos fun h => ?_
      have := S.cells_nil h
      obtain ⟨L, hL⟩ := t.reads
      rw [this] at hL
      have hm := T.entry_mem_flat (V := tr.view α) hlt
      simp only [List.nil_eq, List.append_eq_nil_iff] at hL
      rw [hL.2.1] at hm
      exact absurd hm List.not_mem_nil)
  have hmem : (T.top.keys ofst, T.top.dr ofst) ∈ T₀.flat (tr.view α) := by
    obtain ⟨L, hL⟩ := t.reads
    rw [hL]
    exact List.mem_append_right _ (List.mem_append_left _ (T.entry_mem_flat hlt))
  have hsound := (S.entry hmem).2
  have hscion : T.top.scion = T.size := by
    rw [hT.scion t]
    have h := leaf_post (r := tr) (T := T) (m := T.size) (j := 0) (Nat.zero_add _)
    rw [T.flat_first, T.kid_leaf, List.nil_append, h]
    simp
  have hloop : slotLoop b true T.top (decide (T.addr = x)) ofst ofst T.top.n 0 0 0 =
      (0, ofst, (ofst : Int)) :=
    slotLoop_clean (i := 0) hclean S.left (Nat.zero_le _) (by omega)
  have hfin : min (ofst : Int) (T.top.n : Int) = ofst := by omega
  refine ⟨some (T.top.keys ofst, T.top.dr ofst), ?_⟩
  have htest : ¬ (if (ofst : Int) = (T.top.n : Int) - 1 then
      decide ((ofst : Int) ≥ T.top.scion) else decide (ofst < ofst)) = true := by
    rw [hscion]
    split
    · simp only [decide_eq_true_eq]
      omega
    · simp
  have hroot : b.root = T₀.addr := hT.whole.root
  have hstream := streamToBTEntry_run (i := (ofst : Int)) { si with x := si.x.at ofst si.x.bln.iN }
    (hT.heap t) hsound.ghost
  simp only [AlchemyDB.slotFind, hT.heap t, hroot, hmin, Option.bind_eq_bind, Option.bind_some, if_true,
    hfin, hloop, true_and, htest, Bool.false_eq_true, if_false, hT.slot t hlt, hsound.null, hstream,
    Int.toNat_natCast, add_zero, ne_eq, not_true_eq_false, decide_false]

omit [DecidableEq κ] in
/-- The children from `j` on: the OFFSET ends at a key, or in a child. -/
theorem Searched.scionLoop (S : Searched K tr b T₀) {T : Sub α (d + 1 + 1)} {it : BtIterator}
    (t : Trail (tr.view α) T₀ T it.up R) (hs : it.bln.self = T.addr) (h0 : 0 < T.size)
    (hroom : it.up.length + 1 = it.numNodes) (hfin : it.finished = false) :
    ∀ {m j ofst : Nat}, j ≤ T.size → j + m = T.size + 1 →
      ofst < ((T.kid j).flat (tr.view α) ++ T.post (tr.view α) j).length →
      (∃ it', AlchemyDB.scionLoop b true T.top it m j ofst = some (.here it') ∧
        Ahead (tr.view α) T₀ it'
          (((T.kid j).flat (tr.view α) ++ (T.post (tr.view α) j ++ R)).drop ofst)) ∨
      ∃ it' j' ofst', AlchemyDB.scionLoop b true T.top it m j ofst =
          some (.kid it' (T.kid j').addr ofst') ∧ ∃ R', j' ≤ T.size ∧
        Trail (tr.view α) T₀ (T.kid j') it'.up R' ∧ it'.bln.self = (T.kid j').addr ∧
        it'.up.length + 1 = it'.numNodes ∧ it'.finished = false ∧
        ofst' < ((T.kid j').flat (tr.view α)).length ∧
        ((T.kid j').flat (tr.view α) ++ R').drop ofst' =
          ((T.kid j).flat (tr.view α) ++ (T.post (tr.view α) j ++ R)).drop ofst
  | 0, j, ofst, hj, hm, _ => by omega
  | m + 1, j, ofst, hj, hm, hlt => by
      have hT := S.scanned
      have hsz := T.size_top
      have hchild := hT.child t hj
      let ik : Int := if (j : Int) = T.top.n then (j : Int) - 1 else j
      have B : Beside { it.bln with ik := ik, iN := j } T j := by
        by_cases hn : j < T.size
        · have hk : ik = j := if_neg (by omega)
          exact .left hs hk rfl hn
        · have hk : ik = (j : Int) - 1 := if_pos (by omega)
          exact .right hs (by simp only [hk]; omega) (by omega) (.inr ⟨rfl, by omega⟩)
      have t' := Trail.kid t hj B
      have hheap := hT.heap t'
      have hscion := hT.scion t'
      rw [AlchemyDB.scionLoop]
      simp only [hchild, Option.bind_eq_bind, Option.bind_some, hheap, hscion]
      rw [List.length_append] at hlt
      set s := ((T.kid j).flat (tr.view α)).length with hslen
      have hnext : s ≤ ofst → j < T.size := fun h => by
        by_contra hn
        obtain rfl : j = T.size := by omega
        rw [T.post_size, List.length_nil] at hlt
        omega
      have hdep := t.depth
      have hmax := hT.depth
      by_cases hge : (s : Int) ≥ ofst
      · rw [if_pos hge]
        by_cases heq : (s : Int) = ofst
        · -- the key behind the child
          have hn := hnext (by omega)
          refine .inl ⟨it.at ik j, by simp [heq, ik], ?_, ?_, .inl ⟨hfin, _, T, R, j, t, hs,
            if_neg (by omega), hn, fun _ => rfl, ?_⟩⟩
          · simp only [BtIterator.at]; omega
          · simp only [BtIterator.at]; omega
          · rw [show ofst = s by omega, hslen, List.drop_left]
        · rw [if_neg heq]
          refine .inr ⟨{ it.at ik j with
              bln := ⟨(T.kid j).addr, 0, 0⟩
              up := (it.at ik j).bln :: it.up
              numNodes := it.numNodes + 1 }, j, ofst, ?_, _, hj, t', rfl, ?_, hfin, by omega, rfl⟩
          · have hcap : (it.at ik j).numNodes < maxBtreeDepth := by
              simp only [BtIterator.at]; omega
            simp only [ik] at hcap ⊢
            simp only [getNewIterChild, if_pos hcap, Option.bind_some, toChild, hheap, if_true,
              Option.bind_eq_bind]
            rfl
          · simp only [List.length_cons]; omega
      · rw [if_neg hge]
        have hn := hnext (by omega)
        have hrest : ((T.kid j).flat (tr.view α) ++ (T.post (tr.view α) j ++ R)).drop ofst =
            ((T.kid (j + 1)).flat (tr.view α) ++ (T.post (tr.view α) (j + 1) ++ R)).drop
              (ofst - (s + 1)) := by
          rw [T.post_at hn]
          conv_lhs => rw [show ofst = s + (ofst - (s + 1) + 1) by omega, ← List.drop_drop]
          rw [hslen, List.drop_left, List.cons_append, List.drop_succ_cons, List.append_assoc]
        rw [hrest]
        have hlt' : ofst - (s + 1) <
            ((T.kid (j + 1)).flat (tr.view α) ++ T.post (tr.view α) (j + 1)).length := by
          rw [T.post_at hn, List.length_cons] at hlt
          omega
        have ih := S.scionLoop t hs h0 hroom hfin (m := m) (j := j + 1) hn (by omega) hlt'
        rwa [show ((j + 1 : Nat) : Int) = (j : Int) + 1 from Int.natCast_succ j,
          show ofst - (s + 1) = ofst - ((s : Int).toNat + 1) by omega] at ih

omit [DecidableEq κ] in
/-- In a leaf the iterator is left at the key that the OFFSET ends at. -/
theorem Searched.leafFind (S : Searched K tr b T₀) {T : Sub α 1} {s : BtSIter α κ} {ofst : Nat}
    (t : Trail (tr.view α) T₀ T s.x.up R) (hs : s.x.bln.self = T.addr)
    (hroom : s.x.up.length + 1 = s.x.numNodes) (hfin : s.x.finished = false)
    (hlt : ofst < (T.flat (tr.view α)).length) :
    ∃ x e, AlchemyDB.slotFind K b true T.addr ofst s = some (true, { s with x := x, be := e }) ∧
      Ahead (tr.view α) T₀ x ((T.flat (tr.view α) ++ R).drop ofst) := by
  have hpost : T.flat (tr.view α) = T.post (tr.view α) 0 := by
    rw [T.flat_first, T.kid_leaf, List.nil_append]
  have hsize : ofst < T.size := by
    rw [hpost, leaf_post (Nat.zero_add _)] at hlt
    simpa using hlt
  have hdep := t.depth
  have hmax := S.scanned.depth
  obtain ⟨e, he⟩ := S.slotFind t hsize
  refine ⟨_, e, he, by simp only [BtIterator.at]; omega, by simp only [BtIterator.at]; omega,
    .inl ⟨hfin, 0, T, R, ofst, t, hs, rfl, hsize, fun h => absurd rfl h, ?_⟩⟩
  rw [hpost, leaf_drop (by omega), Nat.zero_add]

/-- `btScionFind` with an OFFSET that ends in the subtree. -/
theorem Searched.scionFind (S : Searched K tr b T₀) : ∀ {d : Nat} {T : Sub α (d + 1)}
    {R : List (α × Nat)} {s : BtSIter α κ} {f o : Nat}, d < f →
    Trail (tr.view α) T₀ T s.x.up R → s.x.bln.self = T.addr → 0 < T.size →
    s.x.up.length + 1 = s.x.numNodes → s.x.finished = false →
    o < (T.flat (tr.view α)).length →
    ∃ x e, btScionFind K b true f T.addr o s = some (true, { s with x := x, be := e }) ∧
      Ahead (tr.view α) T₀ x ((T.flat (tr.view α) ++ R).drop o)
  | _, _, _, _, 0, _, hf, _, _, _, _, _, _ => absurd hf (Nat.not_lt_zero _)
  | 0, T, R, s, f + 1, o, _, t, hs, _, hroom, hfin, hlt => by
      have hleaf : T.top.leaf = true := (t.good S.scanned.good).top_leaf.2 rfl
      obtain ⟨x, e, he, A⟩ := S.leafFind t hs hroom hfin hlt
      refine ⟨x, e, ?_, A⟩
      simp only [btScionFind, S.scanned.heap t, Option.bind_eq_bind, Option.bind_some, hleaf, if_true]
      exact he
  | d + 1, T, R, s, f + 1, o, hf, t, hs, h0, hroom, hfin, hlt => by
      have hT := S.scanned
      have g := t.good hT.good
      have hleaf : T.top.leaf = false := by
        cases h : T.top.leaf with
        | false => rfl
        | true => exact absurd (g.top_leaf.1 h) (by omega)
      have hlt' := hlt
      rw [T.flat_first] at hlt'
      have hread : (T.flat (tr.view α) ++ R).drop o =
          ((T.kid 0).flat (tr.view α) ++ (T.post (tr.view α) 0 ++ R)).drop o := by
        rw [T.flat_first, List.append_assoc]
      rcases S.scionLoop t hs h0 hroom hfin (m := T.top.n + 1) (Nat.zero_le _)
        (by rw [T.size_top]; omega) hlt' with ⟨x, hrun, A⟩ | ⟨x, j, ofst', hrun, R', hj, t', hs', hroom', hfin', hlt'', hread'⟩
      · refine ⟨x, s.be, ?_, by rw [hread]; exact A⟩
        simp only [btScionFind, hT.heap t, Option.bind_eq_bind, Option.bind_some, hleaf,
          Bool.false_eq_true, if_false, if_true]
        rw [show (0 : Int) = ((0 : Nat) : Int) from rfl, hrun]
        rfl
      · have hkid := g.kid_pos hj
        rw [hread, ← hread']
        have hstart : btScionFind K b true (f + 1) T.addr o s =
            if (T.kid j).top.leaf then AlchemyDB.slotFind K b true (T.kid j).addr ofst' { s with x := x }
            else (btScionFind K b true f (T.kid j).addr ofst' { s with x := x }).map
              fun r => (true, r.2) := by
          simp only [btScionFind, hT.heap t, Option.bind_eq_bind, Option.bind_some, hleaf,
            Bool.false_eq_true, if_false, if_true]
          rw [show (0 : Int) = ((0 : Nat) : Int) from rfl, hrun]
          simp only [Option.bind_some, hT.heap t']
        cases d with
        | zero =>
            obtain ⟨x', e, he, A⟩ := S.leafFind (s := { s with x := x }) t' hs' hroom' hfin' hlt''
            refine ⟨x', e, ?_, A⟩
            rw [hstart, if_pos ((t'.good hT.good).top_leaf.2 rfl)]
            exact he
        | succ d =>
            obtain ⟨x', e, he, A⟩ := S.scionFind (s := { s with x := x }) (f := f) (by omega)
              t' hs' hkid hroom' hfin' hlt''
            refine ⟨x', e, ?_, A⟩
            rw [hstart, if_neg fun h => absurd ((t'.good hT.good).top_leaf.1 h) (by omega), he]
            rfl

/-- A scan of the whole tree with an OFFSET that leaves entries gives them. -/
theorem Searched.fullXth (S : Searched K tr b T₀) {ofst : Nat}
    (hlt : ofst < (T₀.flat (tr.view α)).length) :
    ∃ g c, (T₀.flat (tr.view α)).getLast? = some c ∧ btGetFullXthIter K b ofst true = some g ∧
      Delivers K b true (taken K (K.key c.1) ((T₀.flat (tr.view α)).drop ofst)) g := by
  have hT := S.scanned
  have hn : b.numkeys ≠ 0 := fun h => by
    rw [S.cells_nil h] at hlt
    exact absurd hlt (Nat.not_lt_zero _)
  obtain ⟨c, l, c', hl, hlast, hedge⟩ := S.edges hn
  have hroot : b.root = T₀.addr := hT.whole.root
  obtain ⟨x, e, he, A⟩ := S.scionFind (s := createIterator b (K.key c'.1) false) (f := b.next)
    (o := ofst) hT.whole.depth .root hroot (S.root_pos hn) rfl rfl hlt
  refine ⟨.iter { createIterator b (K.key c'.1) false with x := x, be := e, empty := false }, c', hlast, ?_, ?_⟩
  · simp only [btGetFullXthIter, if_neg hn, hedge, Option.bind_eq_bind, Option.bind_some, if_true, hroot, he]
  · rw [List.append_nil] at A
    have G : Going tr T₀ { createIterator b (K.key c'.1) false with x := x, be := e, empty := false }
        ((T₀.flat (tr.view α)).drop ofst) := ⟨A, rfl, rfl, rfl⟩
    exact G.yields S

end AlchemyDB
