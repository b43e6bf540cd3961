/-
# `AlchemyDB.BTree.Cursor` — what an iterator has before it

The nodes of an iterator are a path of the tree.  `Trail` follows the path from the
root and says what is read behind each subtree on it; an iterator that stands at a key
(`Stand`) has that key before it, the subtree behind it, and what comes behind the
node.  Moving up (`toparentrecurse`) goes to the first key behind the node: the
comparison of two keys tells on which side of its parent the node hangs.
-/
import AlchemyDB.BTree.Iterator
import AlchemyDB.BTree.Access

namespace AlchemyDB

open Store Weave

variable {α β κ : Type} {V : View α β} {d D : Nat}

/-! ## The path -/

/-- The node of a frame that iterates below child `j`: the key of the frame is the one behind the
child, or the one before it. -/
inductive Beside (f : BtLlN) (T : Sub α (d + 1)) (j : Nat) : Prop
  | left (self : f.self = T.addr) (ik : f.ik = j) (iN : f.iN = j) (lt : j < T.size)
  | right (self : f.self = T.addr) (ik : f.ik + 1 = j) (pos : 0 < j)
      (iN : f.iN = f.ik ∨ (f.iN = j ∧ j = T.size))

/-- The frames `up` lead from the root of `T₀` to `T`; behind `T` the list is read. -/
inductive Trail (V : View α β) (T₀ : Sub α (D + 1)) :
    {d : Nat} → Sub α (d + 1) → List BtLlN → List β → Prop
  | root : Trail V T₀ T₀ [] []
  | kid {d : Nat} {T : Sub α (d + 1 + 1)} {up : List BtLlN} {R : List β} {f : BtLlN} {j : Nat}
      (trail : Trail V T₀ T up R) (hj : j ≤ T.size) (beside : Beside f T j) :
      Trail V T₀ (T.kid j) (f :: up) (T.post V j ++ R)

/-- The frame stands at key `j` of `T`; the list is read from that key on. -/
structure Standing (V : View α β) (T₀ : Sub α (D + 1)) (f : BtLlN) (up : List BtLlN) (L : List β)
    (T : Sub α (d + 1)) (R : List β) (j : Nat) : Prop where
  trail : Trail V T₀ T up R
  self : f.self = T.addr
  ik : f.ik = j
  lt : j < T.size
  iN : d ≠ 0 → f.iN = j
  read : L = T.post V j ++ R

/-- The frame stands at a key of the tree. -/
def Stand (V : View α β) (T₀ : Sub α (D + 1)) (f : BtLlN) (up : List BtLlN) (L : List β) : Prop :=
  ∃ d, ∃ T : Sub α (d + 1), ∃ R j, Standing V T₀ f up L T R j

/-! ## Trees to iterate over -/

/-- `T₀` is the tree of `b`, its keys increase, and it is not too deep for the iterators. -/
structure Scanned [LinearOrder κ] (V : View α β) (key : α → κ) (K : β → κ) (b : Bt α)
    (T₀ : Sub α (D + 1)) : Prop where
  whole : Whole V b T₀
  setting : Setting V key K b
  order : (T₀.flat V).Pairwise fun x y => K x < K y
  depth : D < maxBtreeDepth

section Trail

variable {h : Nat → Option (BtN α)} {T₀ : Sub α (D + 1)} {T : Sub α (d + 1)} {up : List BtLlN}
  {R : List β} {f : BtLlN} {j : Nat}

theorem Owing.live_top {owe : Int} : ∀ {T : Sub α (d + 1)}, Owing V h owe T → h T.addr = some T.top
  | .node _ _ _, g => g.node.live

theorem Owing.top_leaf {owe : Int} : ∀ {T : Sub α (d + 1)}, Owing V h owe T → (T.top.leaf = true ↔ d = 0)
  | .node _ _ _, g => g.node.leaf

theorem Owing.top_fill {owe : Int} : ∀ {T : Sub α (d + 1)}, Owing V h owe T → T.size ≤ 2 * V.t - 1
  | .node _ _ _, g => g.node.fill

theorem Owing.top_link {owe : Int} {T : Sub α (d + 1 + 1)} (g : Owing V h owe T) (hj : j ≤ T.size) :
    T.top.nodes j = (T.kid j).addr := by
  obtain ⟨a, nd, kid, rfl⟩ := exists_node T
  exact g.node.link (by omega) j hj

/-- A kid has a key. -/
theorem Owing.kid_pos {owe : Int} {T : Sub α (d + 1 + 1)} (g : Owing V h owe T) (hj : j ≤ T.size) :
    0 < (T.kid j).size := by
  obtain ⟨a, nd, kid, rfl⟩ := exists_node T
  have h1 := g.node.low (by omega) j hj
  have h2 := V.two_le
  simp only [Sub.kid_node]
  omega

theorem Trail.good (t : Trail V T₀ T up R) (g : Good V h T₀) : Good V h T := by
  induction t with
  | root => exact g
  | kid _ hj _ ih => exact ih.kid hj

theorem Trail.depth (t : Trail V T₀ T up R) : d + up.length = D := by
  induction t with
  | root => rfl
  | kid _ _ _ ih => simp only [List.length_cons]; omega

/-- The subtree and what is read behind it end the reading of the tree. -/
theorem Trail.reads (t : Trail V T₀ T up R) : ∃ L, T₀.flat V = L ++ (T.flat V ++ R) := by
  induction t with
  | root => exact ⟨[], by simp⟩
  | @kid d T up R f j _ hj _ ih =>
      obtain ⟨L, hL⟩ := ih
      exact ⟨L ++ T.pre V j, by rw [hL, T.flat_focus V hj]; simp⟩

theorem Trail.pos (t : Trail V T₀ T up R) (g : Good V h T₀) (h0 : 0 < T₀.size) : 0 < T.size := by
  cases t with
  | root => exact h0
  | kid t hj _ => exact (t.good g).kid_pos hj

/-- The reading from key `j` on. -/
theorem Sub.post_at (T : Sub α (d + 1)) (hj : j < T.size) :
    T.post V j = V.entry T.top j :: ((T.kid (j + 1)).flat V ++ T.post V (j + 1)) :=
  T.post_succ V hj

theorem Sub.entry_mem_flat (T : Sub α (d + 1)) (hj : j < T.size) :
    V.entry T.top j ∈ T.flat V := by
  rw [T.flat_focus V hj.le]
  exact List.mem_append_right _ (List.mem_append_right _ (T.entry_mem_post hj))

/-- A node that is no leaf begins with its first kid. -/
theorem Sub.flat_first (T : Sub α (d + 1)) : T.flat V = (T.kid 0).flat V ++ T.post V 0 := by
  rw [T.flat_focus V (Nat.zero_le _)]
  obtain ⟨a, nd, kid, rfl⟩ := exists_node T
  rfl

theorem Sub.kid_leaf (T : Sub α 1) : (T.kid j).flat V = [] := Sub.flat_nil _

end Trail

/-! ## Reading slots -/

section Scanned

variable [LinearOrder κ] {key : α → κ} {K : β → κ} {b : Bt α} {T₀ : Sub α (D + 1)}
  {T : Sub α (d + 1)} {up : List BtLlN} {R L : List β} {f : BtLlN} {i j : Nat}

theorem Scanned.good (S : Scanned V key K b T₀) : Good V b.heap T₀ := S.whole.good

theorem Scanned.heap (S : Scanned V key K b T₀) (t : Trail V T₀ T up R) :
    b.heap T.addr = some T.top := (t.good S.good).live_top

theorem Scanned.slot (S : Scanned V key K b T₀) (t : Trail V T₀ T up R) (hj : j < T.size) :
    b.slot T.top j = some (T.top.keys j) := by
  have h1 := (t.good S.good).top_fill
  have h2 := S.setting.t
  have hc : (0 : Int) ≤ j ∧ (j : Int) < 2 * b.t - 1 := by omega
  rw [Bt.slot, if_pos hc, Int.toNat_natCast]

theorem Scanned.child (S : Scanned V key K b T₀) {T : Sub α (d + 1 + 1)} (t : Trail V T₀ T up R)
    (hj : j ≤ T.size) : b.child T.top j = some (T.kid j).addr := by
  have g := t.good S.good
  have h1 := g.top_fill
  have h2 := S.setting.t
  have h3 := V.two_le
  have hl : T.top.leaf = false := by
    cases h : T.top.leaf with
    | false => rfl
    | true => exact absurd (g.top_leaf.1 h) (by omega)
  have hc : T.top.leaf = false ∧ (0 : Int) ≤ j ∧ (j : Int) < 2 * b.t := ⟨hl, by omega, by omega⟩
  rw [Bt.child, if_pos hc, Int.toNat_natCast, g.top_link hj]

/-- The keys of the tree increase. -/
theorem Scanned.ordered (S : Scanned V key K b T₀) (t : Trail V T₀ T up R) :
    (T.flat V ++ R).Pairwise fun x y => K x < K y := by
  obtain ⟨L, hL⟩ := t.reads
  have h := S.order
  rw [hL] at h
  exact (List.pairwise_append.1 h).2.1

/-- A key of kid `j` lies before key `j` of the node. -/
theorem Scanned.kid_before (S : Scanned V key K b T₀) {T : Sub α (d + 1 + 1)}
    (t : Trail V T₀ T up R) (hj : j < T.size) (hi : i < (T.kid j).size) :
    key ((T.kid j).top.keys i) < key (T.top.keys j) := by
  have h := (List.pairwise_append.1 (S.ordered t)).1
  rw [T.flat_focus V hj.le] at h
  have := (List.pairwise_append.1 (List.pairwise_append.1 h).2.1).2.2 _
    ((T.kid j).entry_mem_flat hi) _ (T.entry_mem_post hj)
  rwa [S.setting.keyed.entry, S.setting.keyed.entry] at this

/-- A key of kid `j + 1` lies behind key `j` of the node. -/
theorem Scanned.kid_behind (S : Scanned V key K b T₀) {T : Sub α (d + 1 + 1)}
    (t : Trail V T₀ T up R) (hj : j + 1 ≤ T.size) (hi : i < (T.kid (j + 1)).size) :
    key (T.top.keys j) < key ((T.kid (j + 1)).top.keys i) := by
  have h := (List.pairwise_append.1 (S.ordered t)).1
  rw [T.flat_focus V hj] at h
  have := (List.pairwise_append.1 h).2.2 _ (T.entry_mem_pre (Nat.lt_succ_self j)) _
    (List.mem_append_left _ ((T.kid (j + 1)).entry_mem_flat hi))
  rwa [S.setting.keyed.entry, S.setting.keyed.entry] at this

/-! ## Moving up -/

/-- Where `toparentrecurse` ends: at the first key behind the node, or finished at the root. -/
def Climbed (V : View α β) (T₀ : Sub α (D + 1)) (R : List β)
    (r : BtLlN × List BtLlN × Bool) : Prop :=
  (r.2.2 = false ∧ Stand V T₀ r.1 r.2.1 R) ∨
    (r.2.2 = true ∧ R = [] ∧ ∃ i < T₀.size, r.1.self = T₀.addr ∧ r.1.ik = (i : Int) ∧ r.2.1 = [])

theorem Scanned.climb (S : Scanned V key K b T₀) (t : Trail V T₀ T up R) :
    ∀ {f : BtLlN} {i : Nat}, f.self = T.addr → f.ik = i → i < T.size →
      ∃ r, toparentrecurse b f up = some r ∧ Climbed V T₀ R r ∧ r.2.1.length ≤ up.length := by
  induction t with
  | root =>
      intro f i hs hi hlt
      exact ⟨(f, [], true), rfl, .inr ⟨rfl, rfl, i, hlt, hs, hi, rfl⟩, le_rfl⟩
  | @kid d T up R p j t hj B ih =>
      intro f i hs hi hlt
      have hx : b.heap f.self = some (T.kid j).top := by
        rw [hs]
        exact S.heap (Trail.kid t hj B)
      have hc : b.slot (T.kid j).top f.ik = some ((T.kid j).top.keys i) := by
        rw [hi]
        exact S.slot (Trail.kid t hj B) hlt
      cases B with
      | left hps hpi hpn hlt' =>
          -- the node hangs before the key of the frame above
          have hcmp : ¬ b.cmp ((T.kid j).top.keys i) (T.top.keys j) > 0 := by
            rw [S.setting.cmp.gt]
            exact not_lt.2 (S.kid_before t hlt' hlt).le
          refine ⟨(p, up, false), ?_, .inl ⟨rfl, _, T, R, j, t, hps, hpi, hlt', fun _ => hpn, rfl⟩,
            by simp⟩
          simp only [toparentrecurse, hx, hc, hps, hpi, S.heap t, S.slot t hlt', Option.bind_eq_bind,
            Option.bind_some, if_neg hcmp]
      | right hps hpi hpos hpn =>
          obtain ⟨m, rfl⟩ : ∃ m, j = m + 1 := ⟨j - 1, by omega⟩
          have hpm : p.ik = m := by omega
          have hcmp : b.cmp ((T.kid (m + 1)).top.keys i) (T.top.keys m) > 0 := by
            rw [S.setting.cmp.gt]
            exact S.kid_behind t hj hlt
          have hsz := T.size_top
          by_cases hlast : m + 1 < T.size
          · -- the next key of the node above
            have hn : p.iN = m := by omega
            have h1 : (m : Int) + 1 < T.top.n := by omega
            refine ⟨({ p with ik := m + 1, iN := m + 1 }, up, false), ?_,
              .inl ⟨rfl, _, T, R, m + 1, t, hps, by simp, hlast, fun _ => by simp, rfl⟩, by simp⟩
            simp only [toparentrecurse, hx, hc, hps, hpm, S.heap t, S.slot t (show m < T.size by omega),
              Option.bind_eq_bind, Option.bind_some, if_pos hcmp, if_pos h1, hn]
          · -- it has none: up again
            have hme : m + 1 = T.size := by omega
            have h1 : ¬ (m : Int) + 1 < T.top.n := by omega
            have h2 : ¬ p.iN + 1 < (T.top.n : Int) := by omega
            obtain ⟨r, hr, hC, hlen⟩ := ih (f := p) hps hpm (by omega)
            refine ⟨r, ?_, ?_, by simp only [List.length_cons]; omega⟩
            · simp only [toparentrecurse, hx, hc, hps, hpm, S.heap t,
                S.slot t (show m < T.size by omega), Option.bind_eq_bind, Option.bind_some,
                if_pos hcmp, if_neg h1, if_neg h2]
              exact hr
            · rwa [hme, T.post_size, List.nil_append]

/-! ## Iterators -/

/-- The iterator has the list before it: it stands at the first entry, or it is finished. -/
structure Ahead (V : View α β) (T₀ : Sub α (D + 1)) (it : BtIterator) (L : List β) : Prop where
  room : it.up.length < it.numNodes
  cap : it.numNodes ≤ maxBtreeDepth
  spot : (it.finished = false ∧ Stand V T₀ it.bln it.up L) ∨
    (it.finished = true ∧ L = [] ∧
      ∃ i < T₀.size, it.bln.self = T₀.addr ∧ it.bln.ik = (i : Int) ∧ it.up = [])

omit [LinearOrder κ] in
theorem Standing.ne_nil (h : Standing V T₀ f up L T R j) : L ≠ [] := by
  rw [h.read, T.post_at h.lt]
  exact List.cons_ne_nil _ _

variable {it : BtIterator}

theorem Ahead.stand {x : β} (A : Ahead V T₀ it (x :: L)) :
    it.finished = false ∧ Stand V T₀ it.bln it.up (x :: L) := by
  rcases A.spot with h | ⟨_, h, _⟩
  · exact h
  · cases h

theorem Ahead.finished (A : Ahead V T₀ it []) : it.finished = true := by
  rcases A.spot with ⟨_, d, T, R, j, h⟩ | ⟨h, _⟩
  · exact absurd rfl h.ne_nil
  · exact h

/-- The next slot of `nodes`. -/
theorem getNewChild_run {i : BtIterator} (h : i.up.length < i.numNodes) (hc : i.numNodes ≤ maxBtreeDepth)
    (hd : i.up.length + 1 < maxBtreeDepth) :
    ∃ m, getNewChild i = some { i with numNodes := m } ∧ i.up.length + 1 < m ∧
      m ≤ maxBtreeDepth := by
  by_cases h1 : i.up.length + 1 < i.numNodes
  · exact ⟨i.numNodes, by rw [getNewChild, if_pos h1], h1, hc⟩
  · refine ⟨i.numNodes + 1, ?_, by omega, by omega⟩
    rw [getNewChild, if_neg h1, getNewIterChild, if_pos (by omega)]

/-- Down to the first key of a subtree. -/
theorem Scanned.down (S : Scanned V key K b T₀) : ∀ {d : Nat} {T : Sub α (d + 1)} {R : List β}
    {i : BtIterator} {f : Nat}, d < f → Trail V T₀ T (i.bln :: i.up) R → 0 < T.size →
    i.up.length + 1 < i.numNodes → i.numNodes ≤ maxBtreeDepth → i.finished = false →
    ∃ it', tochildrecurse b true f i T.addr = some it' ∧ Ahead V T₀ it' (T.flat V ++ R) ∧
      it'.finished = false ∧ it'.data = i.data
  | d, T, R, i, 0, hf, _, _, _, _, _ => absurd hf (Nat.not_lt_zero d)
  | 0, T, R, i, f + 1, _, t, hpos, hroom, hcap, hfin => by
      have hleaf : T.top.leaf = true := (t.good S.good).top_leaf.2 rfl
      refine ⟨{ i with bln := ⟨T.addr, 0, 0⟩, up := i.bln :: i.up }, ?_, ?_, hfin, rfl⟩
      · simp only [tochildrecurse, toChild, S.heap t, Option.bind_eq_bind, Option.bind_some, hleaf,
          if_true]
      · refine ⟨by simpa using hroom, hcap, .inl ⟨hfin, 0, T, R, 0, t, rfl, rfl, hpos, fun _ => rfl, ?_⟩⟩
        rw [T.flat_first, T.kid_leaf, List.nil_append]
  | d + 1, T, R, i, f + 1, hf, t, hpos, hroom, hcap, hfin => by
      have hleaf : T.top.leaf = false := by
        cases h : T.top.leaf with
        | false => rfl
        | true => exact absurd ((t.good S.good).top_leaf.1 h) (by omega)
      have hdep := t.depth
      have hmax := S.depth
      let it₁ : BtIterator := { i with bln := ⟨T.addr, 0, 0⟩, up := i.bln :: i.up }
      obtain ⟨m, hm, hm1, hm2⟩ := getNewChild_run (i := it₁) (by simpa [it₁] using hroom) hcap
        (by simp only [it₁]; omega)
      have hc : b.child T.top 0 = some (T.kid 0).addr := S.child t (Nat.zero_le _)
      have t' : Trail V T₀ (T.kid 0) (it₁.bln :: it₁.up) (T.post V 0 ++ R) :=
        .kid t (Nat.zero_le _) (.left rfl rfl rfl hpos)
      obtain ⟨it', hrun, A, hf', hd'⟩ := S.down (i := { it₁ with numNodes := m }) (f := f)
        (by omega) t' ((t.good S.good).kid_pos (Nat.zero_le _)) hm1 hm2 hfin
      refine ⟨it', ?_, ?_, hf', hd'⟩
      · simp only [tochildrecurse, toChild, S.heap t, Option.bind_eq_bind, Option.bind_some, hleaf,
          Bool.false_eq_true, if_false, if_true]
        rw [show getNewChild { i with bln := ⟨T.addr, 0, 0⟩, up := i.bln :: i.up } = _ from hm]
        simp only [Option.bind_some, it₁, hc]
        exact hrun
      · rw [T.flat_first, List.append_assoc]
        exact A

/-- `descend` goes to the first key of the kid that `iN` counts. -/
theorem Scanned.descend {i : BtIterator} (S : Scanned V key K b T₀) {T : Sub α (d + 1 + 1)}
    (t : Trail V T₀ T i.up R) (hj : j ≤ T.size) (B : Beside i.bln T j) (hN : i.bln.iN = j)
    (hroom : i.up.length < i.numNodes) (hcap : i.numNodes ≤ maxBtreeDepth)
    (hfin : i.finished = false) :
    ∃ it', AlchemyDB.descend b true T.top i = some it' ∧
      Ahead V T₀ it' ((T.kid j).flat V ++ (T.post V j ++ R)) ∧ it'.finished = false ∧
      it'.data = i.data := by
  have hdep := t.depth
  have hmax := S.depth
  have hnext := S.whole.depth
  obtain ⟨m, hm, hm1, hm2⟩ := getNewChild_run hroom hcap (by omega)
  obtain ⟨it', hrun, A, hf', hd'⟩ := S.down (i := { i with numNodes := m }) (f := b.next)
    (by omega) (.kid t hj B) ((t.good S.good).kid_pos hj) hm1 hm2 hfin
  refine ⟨it', ?_, A, hf', hd'⟩
  simp only [AlchemyDB.descend, hm, Option.bind_eq_bind, Option.bind_some, hN, S.child t hj]
  exact hrun

/-- `toParent` goes to the first key behind the node. -/
theorem Scanned.toParent {I : BtIterator} (S : Scanned V key K b T₀) (t : Trail V T₀ T I.up R)
    (hs : I.bln.self = T.addr) (hi : I.bln.ik = i) (hlt : i < T.size)
    (hroom : I.up.length < I.numNodes) (hcap : I.numNodes ≤ maxBtreeDepth)
    (hfin : I.finished = false) :
    ∃ it', AlchemyDB.toParent b true I = some it' ∧ Ahead V T₀ it' R ∧ it'.data = I.data := by
  obtain ⟨⟨f, up', fin⟩, hr, hC, hlen⟩ := S.climb t hs hi hlt
  refine ⟨{ I with bln := f, up := up', finished := I.finished || fin }, ?_, ?_, rfl⟩
  · simp only [AlchemyDB.toParent, if_true, hr, Option.map_some]
  · refine ⟨lt_of_le_of_lt hlen hroom, hcap, ?_⟩
    rcases hC with ⟨h1, h2⟩ | ⟨h1, h2, h3⟩
    · exact .inl ⟨by simp only [hfin, Bool.false_or]; exact h1, h2⟩
    · exact .inr ⟨by simp only [hfin, Bool.false_or]; exact h1, h2, h3⟩

/-- One step: the iterator moves from the first entry to the next. -/
theorem Scanned.step (S : Scanned V key K b T₀) {x : β} (A : Ahead V T₀ it (x :: L)) :
    ∃ nd, ∃ i : Nat, i < nd.n ∧ ∃ it', b.heap it.bln.self = some nd ∧ it.bln.ik = (i : Int) ∧
      V.entry nd i = x ∧ b.slot nd i = some (nd.keys i) ∧
      (if nd.leaf then iterLeaf b nd it else iterNode b nd it) = some it' ∧ Ahead V T₀ it' L ∧
      it'.data = it.data := by
  obtain ⟨hfin, d, T, R, j, H⟩ := A.stand
  have hread := H.read
  rw [T.post_at H.lt, List.cons_append] at hread
  obtain ⟨rfl, rfl⟩ := List.cons.inj hread
  have hsz := T.size_top
  have hlt := H.lt
  refine ⟨T.top, j, by omega, ?_⟩
  rw [H.self]
  cases d with
  | zero =>
      have hleaf : T.top.leaf = true := (H.trail.good S.good).top_leaf.2 rfl
      rw [T.kid_leaf, List.nil_append]
      by_cases hn : j + 1 < T.size
      · have hc : (j : Int) + 1 < T.top.n := by omega
        refine ⟨it.at (j + 1) it.bln.iN, S.heap H.trail, H.ik, rfl, S.slot H.trail H.lt, ?_,
          ⟨A.room, A.cap, .inl ⟨hfin, 0, T, R, j + 1, H.trail, H.self, by simp [BtIterator.at], hn,
            fun h => absurd rfl h, rfl⟩⟩, rfl⟩
        rw [if_pos hleaf, iterLeaf, H.ik, if_pos hc]
      · have hc : ¬ (j : Int) + 1 < T.top.n := by omega
        have he : j + 1 = T.size := by omega
        obtain ⟨it', hrun, A', hd'⟩ := S.toParent H.trail H.self H.ik H.lt A.room A.cap hfin
        refine ⟨it', S.heap H.trail, H.ik, rfl, S.slot H.trail H.lt, ?_, ?_, hd'⟩
        · rw [if_pos hleaf, iterLeaf, H.ik, if_neg hc]
          exact hrun
        · rw [he, T.post_size, List.nil_append]
          exact A'
  | succ d =>
      have hleaf : T.top.leaf = false := by
        cases h : T.top.leaf with
        | false => rfl
        | true => exact absurd ((H.trail.good S.good).top_leaf.1 h) (by omega)
      have hN := H.iN (by omega)
      let ik : Int := if it.bln.ik + 1 < T.top.n then it.bln.ik + 1 else it.bln.ik
      have hcN : it.bln.iN + 1 ≤ (T.top.n : Int) := by omega
      have B : Beside { it.bln with ik := ik, iN := (j : Int) + 1 } T (j + 1) := by
        by_cases hn : j + 1 < T.size
        · have hk : ik = j + 1 := by
            simp only [ik]
            rw [if_pos (by rw [H.ik]; omega), H.ik]
          exact .left H.self (by simp [hk]) (by simp) hn
        · have hk : ik = j := by
            simp only [ik]
            rw [if_neg (by rw [H.ik]; omega), H.ik]
          exact .right H.self (by simp [hk]) (Nat.succ_pos j) (.inr ⟨by simp, by omega⟩)
      obtain ⟨it', hrun, A', _, hd'⟩ := S.descend (i := it.at ik (j + 1)) H.trail hlt B (by simp [BtIterator.at])
        A.room A.cap hfin
      refine ⟨it', S.heap H.trail, H.ik, rfl, S.slot H.trail H.lt, ?_, ?_, hd'⟩
      · rw [if_neg (by simp [hleaf]), iterNode]
        simp only [if_pos hcN]
        rw [hN]
        exact hrun
      · rw [List.append_assoc]
        exact A'

end Scanned

end AlchemyDB
