/-
# `AlchemyDB.BTree.BackFull` — the whole tree backwards, with an OFFSET

A descending scan of the whole tree reads it from its last key.  `btScionFind` goes through
the children of a node from the last one on, and leaves the iterator at the key in front of
a child, or goes down to the child that the OFFSET ends in.
-/
import AlchemyDB.BTree.BackJump

namespace AlchemyDB

open Store Weave

variable {α κ : Type} [LinearOrder κ] [RowStream α] {d D : Nat} {K : RangeKeys α κ} {tr : Trans}
  {b : Bt α} {T₀ : Sub α (D + 1)} {T : Sub α (d + 1)} {up : List BtLlN} {R P L : List (α × Nat)}

/-! ## The whole tree -/

section Full

variable [DecidableEq κ]

/-- A descending scan of the whole tree gives what is read backwards, until the first key ends it. -/
theorem Searched.fullRangeBack (S : Searched K tr b T₀) {c : α × Nat} {l : List (α × Nat)}
    (hc : T₀.flat (tr.view α) = c :: l) : ∃ g, btGetFullRangeIter K b false = some g ∧
      Delivers K b false (takes K false (K.key c.1) (T₀.flat (tr.view α)).reverse) g := by
  have hn : b.numkeys ≠ 0 := fun h => by
    rw [S.cells_nil h] at hc
    cases hc
  obtain ⟨c₀, l₀, c', hl, hlast, hedge⟩ := S.edges hn
  obtain ⟨rfl, rfl⟩ := List.cons.inj (hc.symm.trans hl)
  obtain ⟨l', hl'⟩ := List.getLast?_eq_some_iff.1 hlast
  obtain ⟨k, hk, hkey⟩ := (S.entry (c := c') (by rw [hl']; simp)).2.bkey
  have horder := S.scanned.order
  rw [hl'] at horder
  have hon : onwards K (K.key c'.1) (l' ++ [c']) = [c'] := onwards_at horder rfl
  have hback : backFrom K (endsInFront b k b.next b.root) (K.key c'.1) (T₀.flat (tr.view α)) =
      (T₀.flat (tr.view α)).reverse := by
    rw [hl']
    simp only [backFrom, hon, true_or, if_true, List.reverse_append, List.reverse_singleton,
      List.singleton_append]
    rw [below_of_onwards (B := l'.reverse) (by simp) hon]
  obtain ⟨r, hrun, hr⟩ := S.setIterBack (f := K.key c.1) (s := true) hn hkey (K.key c'.1)
  rw [hback] at hr
  cases hr with
  | off si hnil he _ =>
      rw [List.reverse_eq_nil_iff, hc] at hnil
      cases hnil
  | «at» e x i nd si hheap hdr hg G hh _ =>
      refine ⟨.iter { si with be := some (e, nd.dr i.toNat) }, ?_, ?_⟩
      · simp [btGetFullRangeIter, hn, hedge, hk, hrun, streamToBTEntry_run _ hheap hg, S.left]
      · have G' : GoingBack tr T₀ { si with be := some (e, nd.dr i.toNat) } _ :=
          ⟨G.back, G.empty, G.missed, G.nim⟩
        rw [← hh]
        exact G'.yields S

end Full

/-! ## The slots of a node -/

omit [LinearOrder κ] [RowStream α] in
/-- The second loop of `btScionFind` counts off as many keys as it can. -/
theorem slotLoop_ends {nd : BtN α} {m : Bool} {o : Nat} (hd : ∀ i, nd.dr i = 0)
    (hl : b.dirtyLeft = 0) : ∀ {f i : Nat}, i + f = nd.n → i ≤ o →
      slotLoop b true nd m o (min o nd.n : Nat) f i 0 i =
          (0, min o nd.n, ((min o nd.n : Nat) : Int)) ∧
        slotLoop b false nd m o (-1) f ((nd.n : Int) - 1 - i) 0 i =
          (0, min o nd.n, (nd.n : Int) - 1 - (min o nd.n : Nat))
  | 0, i, h1, h2 => by
      obtain rfl : i = nd.n := by omega
      have hm : min o nd.n = nd.n := min_eq_right h2
      rw [hm]
      exact ⟨rfl, rfl⟩
  | f + 1, i, h1, h2 => by
      simp only [slotLoop, hd, hl, ite_self, Nat.add_zero, Bool.false_eq_true, if_false, if_true]
      have h3 : ¬ (nd.n : Int) - 1 - i = -1 := by omega
      rw [if_neg h3]
      by_cases hi : i = o
      · have hm : min o nd.n = i := by omega
        rw [hm, if_pos rfl, if_pos (show i ≥ o by omega)]
        exact ⟨rfl, rfl⟩
      · have h4 : ¬ (i : Int) = ((min o nd.n : Nat) : Int) := by omega
        have h5 : ¬ i ≥ o := by omega
        obtain ⟨ih1, ih2⟩ := slotLoop_ends (o := o) (f := f)
          (i := i + 1) hd hl (by omega) (by omega)
        rw [if_neg h4, if_neg h5, if_neg h5]
        refine ⟨ih1, ?_⟩
        rw [show (nd.n : Int) - 1 - i - 1 = (nd.n : Int) - 1 - ((i + 1 : Nat) : Int) by omega]
        exact ih2

/-- The slot of a node of `n` keys that an OFFSET leads to. -/
def slotAfter (asc : Bool) (n ofst : Nat) : Int := if asc then ofst else (n : Int) - 1 - ofst

/-- The iterator goes to a slot, and its key becomes the entry. -/
def goSlot (K : RangeKeys α κ) (b : Bt α) (nd : BtN α) (x : Nat) (i : Int) (si : BtSIter α κ) :
    Option (Bool × BtSIter α κ) :=
  let si := { si with x := si.x.at i si.x.bln.iN }
  (b.slot nd i).bind fun e =>
    if K.null e then some (true, si) else (streamToBTEntry b e x i si).map fun si => (true, si)

/-- The rest of the OFFSET in a node: it leads to a slot, or nowhere. -/
theorem Searched.slotFind_run (S : Searched K tr b T₀) {asc : Bool} {si : BtSIter α κ} {ofst : Nat}
    (t : Trail (tr.view α) T₀ T up R) (hpos : 0 < T.size) :
    AlchemyDB.slotFind K b asc T.addr ofst si =
      if T.size < ofst then some (false, si)
      else goSlot K b T.top T.addr (slotAfter asc T.size ofst) si := by
  have hT := S.scanned
  have hsz := T.size_top
  have g := t.good S.clean.whole.good
  have hclean : ∀ i, T.top.dr i = 0 := fun i => BtN.dr_clean g.top_disc i
  have hheap := hT.heap t
  obtain ⟨x, nd, l, hmin, -, -⟩ := hT.minnode hT.whole.depth .root
    (by
      refine S.root_pos fun h => ?_
      have := S.cells_nil h
      obtain ⟨L, hL⟩ := t.reads
      rw [this] at hL
      have hm := T.entry_mem_flat (V := tr.view α) hpos
      simp only [List.nil_eq, List.append_eq_nil_iff] at hL
      rw [hL.2.1] at hm
      exact absurd hm List.not_mem_nil)
  have hroot : b.root = T₀.addr := hT.whole.root
  obtain ⟨hl1, hl2⟩ := slotLoop_ends (m := decide (T.addr = x)) (o := ofst) (f := T.top.n)
    (i := 0) hclean S.left (Nat.zero_add _) (Nat.zero_le _)
  have hscion : (T.top.n : Int) ≤ T.top.scion := by
    rw [hT.scion t]
    have hlen : T.size ≤ T.keys.length := by
      obtain ⟨a, nd, kid, rfl⟩ := exists_node T
      rw [Sub.keys_node]
      exact le_length_weave nd.n
    rw [keys_of_flat (r := tr), List.length_map] at hlen
    omega
  -- what is done with the slot, where no row is missed
  have hgo (i : Int) : ((b.slot T.top i).bind fun e =>
      if K.null e = true then some (true, { si with x := si.x.at i si.x.bln.iN })
      else (streamToBTEntry b e T.addr i { si with x := si.x.at i si.x.bln.iN }).bind fun si =>
        some (true, si)) = goSlot K b T.top T.addr i si := by
    refine congrArg (Option.bind _) (funext fun e => ?_)
    rw [Option.map_eq_bind]
    rfl
  simp only [AlchemyDB.slotFind, hheap, hroot, hmin, Option.bind_eq_bind, Option.bind_some]
  by_cases hlt : T.size < ofst
  · have hmn : min ofst T.top.n = T.top.n := min_eq_right (by omega)
    have hfin : min (ofst : Int) (T.top.n : Int) = ((min ofst T.top.n : Nat) : Int) := by omega
    rw [if_pos hlt]
    cases asc with
    | true =>
        have h1 : ¬ (T.top.n : Int) = (T.top.n : Int) - 1 := by omega
        simp only [if_true, hfin]
        rw [show (0 : Int) = ((0 : Nat) : Int) from rfl, hl1]
        simp only [hmn, true_and, h1, if_false, decide_eq_true_eq, show T.top.n < ofst by omega, if_true]
    | false =>
        simp only [Bool.false_eq_true, if_false]
        rw [show (T.top.n : Int) - 1 = (T.top.n : Int) - 1 - ((0 : Nat) : Int) by simp, hl2]
        simp only [hmn, show (T.top.n : Int) - 1 - (T.top.n : Int) = -1 by omega, true_and]
        simp [show T.top.n < ofst by omega]
  · have hmn : min ofst T.top.n = ofst := min_eq_left (by omega)
    have hfin : min (ofst : Int) (T.top.n : Int) = ((min ofst T.top.n : Nat) : Int) := by omega
    rw [if_neg hlt, ← hgo]
    cases asc with
    | true =>
        have htest : (if (ofst : Int) = (T.top.n : Int) - 1 then decide ((ofst : Int) ≥ T.top.scion)
            else decide (ofst < ofst)) = false := by
          split
          · exact decide_eq_false (by omega)
          · exact decide_eq_false (by omega)
        simp only [if_true, hfin]
        rw [show (0 : Int) = ((0 : Nat) : Int) from rfl, hl1]
        simp only [hmn, true_and, htest, Bool.false_eq_true, if_false, Nat.add_zero, ne_eq,
          not_true_eq_false, decide_false, slotAfter, if_true]
    | false =>
        simp only [Bool.false_eq_true, if_false]
        rw [show (T.top.n : Int) - 1 = (T.top.n : Int) - 1 - ((0 : Nat) : Int) by simp, hl2]
        simp [hmn, slotAfter, hsz, S.left]
        omega

/-! ## `btScionFind` -/

/-- In a leaf the iterator is left at the key that the OFFSET ends at. -/
theorem Searched.leafFindBack (S : Searched K tr b T₀) {T : Sub α 1} {s : BtSIter α κ} {ofst : Nat}
    (t : Trail (tr.view α) T₀ T s.x.up R)
    (hP : T₀.flat (tr.view α) = P ++ (T.flat (tr.view α) ++ R)) (hs : s.x.bln.self = T.addr)
    (hroom : s.x.up.length + 1 = s.x.numNodes) (hfin : s.x.finished = false)
    (hlt : ofst < (T.flat (tr.view α)).length) :
    ∃ x e, AlchemyDB.slotFind K b false T.addr ofst s = some (true, { s with x := x, be := e }) ∧
      Back (tr.view α) T₀ x ((P ++ T.flat (tr.view α)).reverse.drop ofst) := by
  have hT := S.scanned
  have hpost : T.flat (tr.view α) = T.post (tr.view α) 0 := by
    rw [T.flat_first, T.kid_leaf, List.nil_append]
  have hpre : T.flat (tr.view α) = T.pre (tr.view α) T.size := by
    rw [T.flat_focus _ le_rfl, T.kid_leaf, T.post_size, List.append_nil, List.append_nil]
  have hsize : ofst < T.size := by
    rw [hpost, leaf_post (Nat.zero_add _)] at hlt
    simpa using hlt
  have hdep := t.depth
  have hmax := hT.depth
  obtain ⟨j, hj⟩ : ∃ j, T.size = j + 1 + ofst := ⟨T.size - 1 - ofst, by omega⟩
  have hslot : slotAfter false T.size ofst = j := by
    simp only [slotAfter, Bool.false_eq_true, if_false]
    omega
  have hjlt : j < T.size := by omega
  have hmem : (T.top.keys j, T.top.dr j) ∈ T₀.flat (tr.view α) := by
    rw [hP]
    exact List.mem_append_right _ (List.mem_append_left _ (T.entry_mem_flat hjlt))
  have hsound := (S.entry hmem).2
  refine ⟨s.x.at j s.x.bln.iN, some (T.top.keys j, T.top.dr j), ?_, ?_⟩
  · rw [S.slotFind_run t (by omega), if_neg (by omega), goSlot, hslot]
    simp only [hT.slot t hjlt, Option.bind_some, hsound.null, Bool.false_eq_true, if_false]
    rw [streamToBTEntry_run _ (hT.heap t) hsound.ghost]
    rfl
  · refine ⟨by simp only [BtIterator.at]; omega, by simp only [BtIterator.at]; omega,
      .inl ⟨hfin, ?_⟩⟩
    rw [hpre, hj, leaf_dropBack]
    exact t.faces hjlt hP hs rfl fun h => absurd rfl h

/-- The frame above child `j`. -/
def aboveKid (T : Sub α (d + 1)) (j : Nat) : BtLlN :=
  ⟨T.addr, if (j : Int) = T.top.n then (j : Int) - 1 else j, j⟩

omit [LinearOrder κ] [RowStream α] in
theorem aboveKid_beside {T : Sub α (d + 1)} {j : Nat} (hj : j ≤ T.size) (h0 : 0 < T.size) :
    Beside (aboveKid T j) T j := by
  have hsz := T.size_top
  by_cases hn : j < T.size
  · exact .left rfl (if_neg (by omega)) rfl hn
  · have hk : (aboveKid T j).ik = (j : Int) - 1 := if_pos (by omega)
    exact .right rfl (by rw [hk]; omega) (by omega) (.inr ⟨rfl, by omega⟩)

/-- The iterator goes into child `j`. -/
def BtIterator.into (it : BtIterator) (T : Sub α (d + 1 + 1)) (j : Nat) : BtIterator :=
  { it with bln := ⟨(T.kid j).addr, 0, 0⟩, up := aboveKid T j :: it.up, numNodes := it.numNodes + 1 }

omit [RowStream α] in
/-- One child in the first loop of `btScionFind`. -/
theorem Scanned.scionLoop_step (S : Scanned (tr.view α) K.key (fun c => K.key c.1) b T₀) {a : Bool}
    {T : Sub α (d + 1 + 1)} {it : BtIterator} {m j o : Nat}
    (t : Trail (tr.view α) T₀ T it.up R) (hs : it.bln.self = T.addr) (h0 : 0 < T.size)
    (hroom : it.up.length + 1 = it.numNodes) (hj : j ≤ T.size) :
    scionLoop b a T.top it (m + 1) j o =
      if o < ((T.kid j).flat (tr.view α)).length then
        some (.kid (it.into T j) (T.kid j).addr o)
      else if o = ((T.kid j).flat (tr.view α)).length then
        some (.here (if a then { it with bln := aboveKid T j } else it.at ((j : Int) - 1) ((j : Int) - 1)))
      else scionLoop b a T.top it m (if a then (j : Int) + 1 else (j : Int) - 1)
        (o - (((T.kid j).flat (tr.view α)).length + 1)) := by
  have hsz := T.size_top
  have t' := Trail.kid t hj (aboveKid_beside hj h0)
  have hchild := S.child t hj
  have hheap := S.heap t'
  have hscion := S.scion t'
  have hdep := t.depth
  have hmax := S.depth
  have hcap : it.numNodes < maxBtreeDepth := by omega
  have habove : (it.at (if (j : Int) = T.top.n then (j : Int) - 1 else j) j).bln = aboveKid T j := by
    simp only [BtIterator.at, hs, aboveKid]
  rw [scionLoop]
  simp only [hchild, Option.bind_eq_bind, Option.bind_some, hheap, hscion]
  set s := ((T.kid j).flat (tr.view α)).length with hslen
  by_cases hlt : o < s
  · rw [if_pos (show (s : Int) ≥ o by omega), if_neg (show ¬ (s : Int) = o by omega), if_pos hlt]
    simp only [getNewIterChild, BtIterator.at, if_pos hcap, Option.bind_some, toChild, hheap,
      Option.bind_eq_bind, if_true, hs, aboveKid, BtIterator.into]
  · rw [if_neg hlt]
    by_cases heq : o = s
    · rw [if_pos (show (s : Int) ≥ o by omega), if_pos (show (s : Int) = o by omega), if_pos heq]
      cases a <;> simp [BtIterator.at, hs, aboveKid]
    · rw [if_neg (show ¬ (s : Int) ≥ o by omega), if_neg heq, Int.toNat_natCast]

/-- The children from `j` back: the OFFSET ends at a key, or in a child. -/
theorem Searched.scionLoopBack (S : Searched K tr b T₀) {T : Sub α (d + 1 + 1)} {it : BtIterator}
    (t : Trail (tr.view α) T₀ T it.up R)
    (hP : T₀.flat (tr.view α) = P ++ (T.flat (tr.view α) ++ R)) (hs : it.bln.self = T.addr)
    (h0 : 0 < T.size) (hroom : it.up.length + 1 = it.numNodes) (hfin : it.finished = false) :
    ∀ {j ofst : Nat}, j ≤ T.size →
      ofst < (T.pre (tr.view α) j ++ (T.kid j).flat (tr.view α)).length →
      (∃ it', AlchemyDB.scionLoop b false T.top it (j + 1) j ofst = some (.here it') ∧
        Back (tr.view α) T₀ it'
          ((P ++ T.pre (tr.view α) j ++ (T.kid j).flat (tr.view α)).reverse.drop ofst)) ∨
      ∃ it' j' ofst', AlchemyDB.scionLoop b false T.top it (j + 1) j ofst =
          some (.kid it' (T.kid j').addr ofst') ∧ ∃ R' P', j' ≤ T.size ∧
        Trail (tr.view α) T₀ (T.kid j') it'.up R' ∧
        T₀.flat (tr.view α) = P' ++ ((T.kid j').flat (tr.view α) ++ R') ∧
        it'.bln.self = (T.kid j').addr ∧ it'.up.length + 1 = it'.numNodes ∧ it'.finished = false ∧
        ofst' < ((T.kid j').flat (tr.view α)).length ∧
        (P' ++ (T.kid j').flat (tr.view α)).reverse.drop ofst' =
          (P ++ T.pre (tr.view α) j ++ (T.kid j).flat (tr.view α)).reverse.drop ofst := by
  intro j
  have hT := S.scanned
  induction j with
  | zero =>
      intro ofst hj hlt
      rw [T.pre_zero, List.nil_append] at hlt
      have t' := Trail.kid t hj (aboveKid_beside hj h0)
      refine .inr ⟨it.into T 0, 0, ofst, by rw [hT.scionLoop_step t hs h0 hroom hj, if_pos hlt],
        _, P, hj, t', ?_, rfl, by simp only [BtIterator.into, List.length_cons]; omega, hfin, hlt, ?_⟩
      · rw [hP, T.flat_first, List.append_assoc]
      · rw [T.pre_zero, List.append_nil]
  | succ j ih =>
      intro ofst hj hlt
      have t' := Trail.kid t hj (aboveKid_beside hj h0)
      have hdep := t.depth
      have hmax := hT.depth
      have hstep := hT.scionLoop_step (a := false) (m := j + 1) (o := ofst) t hs h0 hroom hj
      have hP' : T₀.flat (tr.view α) = P ++ T.pre (tr.view α) (j + 1) ++
          ((T.kid (j + 1)).flat (tr.view α) ++ (T.post (tr.view α) (j + 1) ++ R)) := by
        rw [hP, T.flat_focus _ hj]
        simp only [List.append_assoc]
      rw [hstep]
      set s := ((T.kid (j + 1)).flat (tr.view α)).length with hslen
      by_cases h1 : ofst < s
      · refine .inr ⟨it.into T (j + 1), j + 1, ofst, by rw [if_pos h1], _, P ++ T.pre (tr.view α) (j + 1), hj, t', hP',
          rfl, by simp only [BtIterator.into, List.length_cons]; omega, hfin, h1, rfl⟩
      rw [if_neg h1]
      -- the child is dropped
      have hdrop : (P ++ T.pre (tr.view α) (j + 1) ++ (T.kid (j + 1)).flat (tr.view α)).reverse.drop
          s = (P ++ T.pre (tr.view α) (j + 1)).reverse := by
        rw [List.reverse_append, hslen, ← List.length_reverse, List.drop_left]
      by_cases h2 : ofst = s
      · refine .inl ⟨it.at (((j + 1 : Nat) : Int) - 1) (((j + 1 : Nat) : Int) - 1),
          by rw [if_pos h2]; rfl, by simp only [BtIterator.at]; omega,
          by simp only [BtIterator.at]; omega, .inl ⟨hfin, ?_⟩⟩
        rw [h2, hdrop]
        exact t.faces (by omega) hP hs (by simp [BtIterator.at]) fun _ => by simp [BtIterator.at]
      · rw [if_neg h2]
        have hrest : (P ++ T.pre (tr.view α) (j + 1) ++ (T.kid (j + 1)).flat (tr.view α)).reverse.drop
            ofst = (P ++ T.pre (tr.view α) j ++ (T.kid j).flat (tr.view α)).reverse.drop
              (ofst - (s + 1)) := by
          conv_lhs => rw [show ofst = s + (ofst - (s + 1) + 1) by omega, ← List.drop_drop, hdrop]
          rw [T.pre_succ, ← List.append_assoc, ← List.append_assoc, List.reverse_append,
            List.reverse_singleton, List.singleton_append, List.drop_succ_cons]
        have hlt' : ofst - (s + 1) < (T.pre (tr.view α) j ++ (T.kid j).flat (tr.view α)).length := by
          rw [T.pre_succ] at hlt
          simp only [List.length_append, List.length_cons, List.length_nil] at hlt ⊢
          omega
        have := ih (by omega) hlt'
        rw [hrest]
        simp only [Bool.false_eq_true, if_false]
        rwa [show ((j + 1 : Nat) : Int) - 1 = (j : Int) by omega]

/-- `btScionFind` with an OFFSET that ends in the subtree. -/
theorem Searched.scionFindBack (S : Searched K tr b T₀) : ∀ {d : Nat} {T : Sub α (d + 1)}
    {R P : List (α × Nat)} {s : BtSIter α κ} {f o : Nat}, d < f →
    Trail (tr.view α) T₀ T s.x.up R → T₀.flat (tr.view α) = P ++ (T.flat (tr.view α) ++ R) →
    s.x.bln.self = T.addr → 0 < T.size → s.x.up.length + 1 = s.x.numNodes →
    s.x.finished = false → o < (T.flat (tr.view α)).length →
    ∃ x e, btScionFind K b false f T.addr o s = some (true, { s with x := x, be := e }) ∧
      Back (tr.view α) T₀ x ((P ++ T.flat (tr.view α)).reverse.drop o)
  | _, _, _, _, _, 0, _, hf, _, _, _, _, _, _, _ => absurd hf (Nat.not_lt_zero _)
  | 0, T, R, P, s, f + 1, o, _, t, hP, hs, _, hroom, hfin, hlt => by
      have hleaf : T.top.leaf = true := (t.good S.scanned.good).top_leaf.2 rfl
      obtain ⟨x, e, he, A⟩ := S.leafFindBack t hP hs hroom hfin hlt
      refine ⟨x, e, ?_, A⟩
      simp only [btScionFind, S.scanned.heap t, Option.bind_eq_bind, Option.bind_some, hleaf, if_true]
      exact he
  | d + 1, T, R, P, s, f + 1, o, hf, t, hP, hs, h0, hroom, hfin, hlt => by
      have hT := S.scanned
      have hsz := T.size_top
      have g := t.good hT.good
      have hleaf : T.top.leaf = false := by
        cases h : T.top.leaf with
        | false => rfl
        | true => exact absurd (g.top_leaf.1 h) (by omega)
      have hflat : T.flat (tr.view α) =
          T.pre (tr.view α) T.size ++ (T.kid T.size).flat (tr.view α) := by
        rw [T.flat_focus _ le_rfl, T.post_size, List.append_nil]
      rw [hflat, ← List.append_assoc]
      rcases S.scionLoopBack t hP hs h0 hroom hfin (le_refl T.size) (hflat ▸ hlt) with
        ⟨x, hrun, A⟩ | ⟨x, j, ofst', hrun, R', P', hj, t', hP', hs', hroom', hfin', hlt'', hread'⟩
      · refine ⟨x, s.be, ?_, A⟩
        simp only [btScionFind, hT.heap t, Option.bind_eq_bind, Option.bind_some, hleaf,
          Bool.false_eq_true, if_false, ← hsz]
        rw [hrun]
        rfl
      · have hkid := g.kid_pos hj
        rw [← hread']
        have hstart : btScionFind K b false (f + 1) T.addr o s =
            if (T.kid j).top.leaf then AlchemyDB.slotFind K b false (T.kid j).addr ofst' { s with x := x }
            else (btScionFind K b false f (T.kid j).addr ofst' { s with x := x }).map
              fun r => (true, r.2) := by
          simp only [btScionFind, hT.heap t, Option.bind_eq_bind, Option.bind_some, hleaf,
            Bool.false_eq_true, if_false, ← hsz]
          rw [hrun]
          simp only [Option.bind_some, hT.heap t']
        cases d with
        | zero =>
            obtain ⟨x', e, he, A⟩ :=
              S.leafFindBack (s := { s with x := x }) t' hP' hs' hroom' hfin' hlt''
            refine ⟨x', e, ?_, A⟩
            rw [hstart, if_pos ((t'.good hT.good).top_leaf.2 rfl)]
            exact he
        | succ d =>
            obtain ⟨x', e, he, A⟩ := S.scionFindBack (s := { s with x := x }) (f := f) (by omega)
              t' hP' hs' hkid hroom' hfin' hlt''
            refine ⟨x', e, ?_, A⟩
            rw [hstart, if_neg fun h => absurd ((t'.good hT.good).top_leaf.1 h) (by omega), he]
            rfl

/-- A descending scan of the whole tree with an OFFSET that leaves entries gives them. -/
theorem Searched.fullXthBack (S : Searched K tr b T₀) {ofst : Nat} {c : α × Nat}
    {l : List (α × Nat)} (hc : T₀.flat (tr.view α) = c :: l)
    (hlt : ofst < (T₀.flat (tr.view α)).length) :
    ∃ g, btGetFullXthIter K b ofst false = some g ∧
      Delivers K b false (takes K false (K.key c.1) ((T₀.flat (tr.view α)).reverse.drop ofst)) g := by
  have hT := S.scanned
  have hn : b.numkeys ≠ 0 := fun h => by
    rw [S.cells_nil h] at hc
    cases hc
  obtain ⟨c₀, l₀, c', hl, hlast, hedge⟩ := S.edges hn
  obtain ⟨rfl, rfl⟩ := List.cons.inj (hc.symm.trans hl)
  have hroot : b.root = T₀.addr := hT.whole.root
  obtain ⟨x, e, he, A⟩ := S.scionFindBack (s := createIterator b (K.key c.1) false) (f := b.next)
    (o := ofst) (P := []) hT.whole.depth .root (by simp) hroot (S.root_pos hn) rfl rfl hlt
  refine ⟨.iter { createIterator b (K.key c.1) false with x := x, be := e, empty := false }, ?_, ?_⟩
  · simp only [btGetFullXthIter, if_neg hn, hedge, Option.bind_eq_bind, Option.bind_some,
      Bool.false_eq_true, if_false, hroot, he, if_true]
  · have G : GoingBack tr T₀ { createIterator b (K.key c.1) false with x := x, be := e, empty := false }
        ((T₀.flat (tr.view α)).reverse.drop ofst) := ⟨A, rfl, rfl, rfl⟩
    exact G.yields S

end AlchemyDB
