/-
# `AlchemyDB.BTree.Seek` — ascending scans

`setIter` walks down with `findkindex`: what lies before the path is below the key, what
lies behind it above, so that the iterator has before it the entries from the key on,
or one entry more when the walk ended behind the key of a leaf.  A scan then returns
entries until the key that ends it, or one beyond.
-/
import AlchemyDB.BTree.Cursor
import AlchemyDB.BTree.Clean

namespace AlchemyDB

open Store Weave

variable {α κ : Type} [LinearOrder κ] [RowStream α] {d D : Nat}

/-! ## The trees -/

/-- The entries of a clean tree, with their DRs. -/
abbrev Trans.view (α : Type) (tr : Trans) : View α (α × Nat) := cleanView α tr.t tr.two_le

/-- The entry is no null pointer and no ghost, and its key is found again. -/
structure Sound (K : RangeKeys α κ) (e : α) : Prop where
  null : K.null e = false
  ghost : RowStream.isGhost e = false
  bkey : ∃ k, K.bkey (K.key e) = some k ∧ K.key k = K.key e

/-- A clean tree as the iterators want it: the keys increase and are counted, the entries are sound,
no row has been evicted in front of the first, and the path of an iterator is long enough. -/
structure Searched (K : RangeKeys α κ) (tr : Trans) (b : Bt α) (T : Sub α (D + 1)) : Prop where
  clean : CleanAt K.key tr b T
  strict : T.keys.Pairwise fun x y => K.key x < K.key y
  count : b.numkeys = T.keys.length
  sound : ∀ e ∈ T.keys, Sound K e
  left : b.dirtyLeft = 0
  depth : D < maxBtreeDepth

variable {K : RangeKeys α κ} {tr : Trans} {b : Bt α} {T₀ : Sub α (D + 1)}

omit [RowStream α] in
theorem keys_of_flat {r : Trans} {T : Sub α d} :
    T.keys = (T.flat (r.view α)).map Prod.fst := by
  rw [flat_clean]
  rfl

theorem Searched.scanned (S : Searched K tr b T₀) :
    Scanned (tr.view α) K.key (fun c => K.key c.1) b T₀ where
  whole := S.clean.whole
  setting := S.clean.setting
  order := by
    rw [flat_clean]
    exact (pairwise_cells (· < ·) T₀).2 S.strict
  depth := S.depth

/-- A tree with keys has one in its root. -/
theorem Searched.root_pos (S : Searched K tr b T₀) (h : b.numkeys ≠ 0) : 0 < T₀.size := by
  rcases Nat.eq_zero_or_pos D with rfl | hD
  · by_contra hz
    have h0 : T₀.size = 0 := by omega
    have hk : T₀.keys = [] := by
      obtain ⟨a, nd, kid, rfl⟩ := exists_node T₀
      rw [Sub.keys, cells_leaf, show nd.n = 0 from h0]
      rfl
    rw [S.count, hk] at h
    exact h rfl
  · exact S.clean.whole.inner (by omega)

/-! ## The walk of `bt_init_iterator` -/

/-- The list from the key on. -/
def onwards (K : RangeKeys α κ) (low : κ) (l : List (α × Nat)) : List (α × Nat) :=
  l.dropWhile fun c => decide (K.key c.1 < low)

omit [RowStream α] in
/-- What is read from the key on, when the list is cut there. -/
theorem onwards_append {low : κ} {l r : List (α × Nat)} (hl : ∀ c ∈ l, K.key c.1 < low)
    (hr : ∀ c ∈ r, low ≤ K.key c.1) : onwards K low (l ++ r) = r := by
  rw [onwards, List.dropWhile_append_of_pos (by simpa using hl)]
  cases r with
  | nil => rfl
  | cons c r =>
      rw [List.dropWhile_cons_of_neg]
      simpa using hr c List.mem_cons_self

omit [RowStream α] in
/-- The list from a key that is there. -/
theorem onwards_at {low : κ} {l r : List (α × Nat)} {c : α × Nat}
    (h : (l ++ c :: r).Pairwise fun x y => K.key x.1 < K.key y.1) (hc : K.key c.1 = low) :
    onwards K low (l ++ c :: r) = c :: r := by
  obtain ⟨-, hr, hl⟩ := List.pairwise_append.1 h
  refine onwards_append (fun x hx => hc ▸ hl x hx c List.mem_cons_self) fun x hx => ?_
  rcases List.mem_cons.1 hx with rfl | hx
  · exact hc.ge
  · exact hc ▸ (List.rel_of_pairwise_cons hr hx).le

/-- Where the walk for `low` ends: at the key, or in a leaf at the key before it or behind it. -/
def Sought (K : RangeKeys α κ) (tr : Trans) (T₀ : Sub α (D + 1)) (low : κ) (ret : Ii)
    (it : BtIterator) : Prop :=
  let L := onwards K low (T₀.flat (tr.view α))
  it.up.length < it.numNodes ∧ it.numNodes ≤ maxBtreeDepth ∧ it.finished = false ∧
    ((ret = .ok ∧ Stand (tr.view α) T₀ it.bln it.up L) ∨
      ((ret = .leafExit ∨ ret = .onlyRight) ∧
        ∃ x L', Stand (tr.view α) T₀ it.bln it.up (x :: L') ∧
          ((low < K.key x.1 ∧ ret = .leafExit ∧ L = x :: L') ∨
            (K.key x.1 < low ∧ L = L' ∧ (ret = .onlyRight → L = [])))))

theorem keyCoversMiss_clean {nd : BtN α} (h : nd.dirty ≤ 0) (i : Int) (q : Nat) :
    keyCoversMiss b nd i q = false := by
  simp [keyCoversMiss, BtN.dr_clean h]

theorem Scanned.initLoop {k : α} {q : Nat}
    (S : Scanned (tr.view α) K.key (fun c => K.key c.1) b T₀) :
    ∀ {fuel d : Nat} {T : Sub α (d + 1)} {R L : List (α × Nat)} {i : BtIterator} {o : Bool},
      d < fuel → Trail (tr.view α) T₀ T i.up R → i.bln.self = T.addr → 0 < T.size →
      i.numNodes = i.up.length + 1 → i.finished = false →
      T₀.flat (tr.view α) = L ++ (T.flat (tr.view α) ++ R) →
      (∀ c ∈ L, K.key c.1 < K.key k) → (∀ c ∈ R, K.key k < K.key c.1) → (o = true → R = []) →
      ∃ ret it', AlchemyDB.initLoop b k q false fuel i o = some (ret, it') ∧
        Sought K tr T₀ (K.key k) ret it' := by
  intro fuel
  induction fuel with
  | zero => exact fun hf => absurd hf (Nat.not_lt_zero _)
  | succ fuel ih =>
      intro d T R L i o hf t hs hpos hn hfin hcut hLp hR hon
      have g := t.good S.good
      have hkey := S.setting.keyed
      have hord : Ordered (fun c : α × Nat => K.key c.1) (T.flat (tr.view α)) :=
        (List.pairwise_append.1 (S.ordered t)).1.imp fun h => h.le
      obtain ⟨m, hm, F⟩ := g.found S.setting.cmp S.setting.log S.setting.t hkey hord k
      have hsz := T.size_top
      have hn0 : T.top.n ≠ 0 := by omega
      have hmax := S.depth
      have hdep := t.depth
      have hmiss : keyCoversMiss b T.top (findkindex b T.top k).1 q = false :=
        keyCoversMiss_clean (Owing.top_disc g) _ _
      have hi := F.slot
      simp only [AlchemyDB.initLoop, hs, S.heap t, Option.bind_eq_bind, Option.bind_some, if_neg hn0,
        hmiss, Bool.false_eq_true, if_false]
      by_cases hr : (findkindex b T.top k).2 = 0
      · -- the key is in the node
        obtain ⟨hm0, he⟩ := F.hit.1 hr
        obtain ⟨j, rfl⟩ : ∃ j, m = j + 1 := ⟨m - 1, by omega⟩
        have hij : (findkindex b T.top k).1 = j := by omega
        rw [hij, if_pos ⟨by omega, hr⟩]
        refine ⟨_, _, rfl, by simp only [BtIterator.at]; omega, by simp only [BtIterator.at]; omega, hfin,
          .inl ⟨rfl, _, T, R, j, t, hs, by simp [BtIterator.at], by omega, fun _ => by simp [BtIterator.at], ?_⟩⟩
        have hj : j < T.size := by omega
        have hflat : T₀.flat (tr.view α) = L ++ T.pre (tr.view α) j ++
            (T.kid j).flat (tr.view α) ++ (tr.view α).entry T.top j ::
              ((T.kid (j + 1)).flat (tr.view α) ++ T.post (tr.view α) (j + 1) ++ R) := by
          rw [hcut, T.flat_focus _ hj.le, T.post_at hj]
          simp
        have ho := S.order
        rw [hflat] at ho ⊢
        rw [onwards_at ho (by rw [hkey.entry]; simpa using he), T.post_at hj]
        simp
      · rw [if_neg fun h => hr h.2]
        have hbef := F.before hkey hord hr
        have haft := (F.around hkey hord).2
        have hflat : T₀.flat (tr.view α) = (L ++ T.pre (tr.view α) m) ++
            ((T.kid m).flat (tr.view α) ++ (T.post (tr.view α) m ++ R)) := by
          rw [hcut, T.flat_focus _ hm]
          simp
        have hLp' : ∀ c ∈ L ++ T.pre (tr.view α) m, K.key c.1 < K.key k := fun c hc =>
          (List.mem_append.1 hc).elim (hLp c) (hbef c)
        have hR' : ∀ c ∈ T.post (tr.view α) m ++ R, K.key k < K.key c.1 := fun c hc =>
          (List.mem_append.1 hc).elim (haft c) (hR c)
        have hon' : (o && decide (¬ (findkindex b T.top k).2 < 0 ∧
            (findkindex b T.top k).1 = (T.top.n : Int) - 1)) = true →
            m = T.size ∧ T.post (tr.view α) m ++ R = [] := by
          intro h
          simp only [Bool.and_eq_true, decide_eq_true_eq] at h
          obtain ⟨h1, -, h2⟩ := h
          have hmn : m = T.size := by omega
          exact ⟨hmn, by rw [hon h1, hmn, T.post_size, List.append_nil]⟩
        generalize (o && decide (¬ (findkindex b T.top k).2 < 0 ∧
          (findkindex b T.top k).1 = (T.top.n : Int) - 1)) = only' at hon'
        cases d with
        | zero =>
            have hleaf : T.top.leaf = true := g.top_leaf.2 rfl
            rw [if_pos hleaf]
            refine ⟨_, _, rfl, by simp only [BtIterator.at]; omega,
              by simp only [BtIterator.at]; omega, hfin, .inr ⟨by split <;> simp, ?_⟩⟩
            have hL : onwards K (K.key k) (T₀.flat (tr.view α)) = T.post (tr.view α) m ++ R := by
              rw [T.kid_leaf, List.nil_append] at hflat
              rw [hflat, onwards_append hLp' fun c hc => (hR' c hc).le]
            rcases Nat.eq_zero_or_pos m with rfl | hm0
            · -- the first key of the leaf lies behind
              have hno : only' = false := by
                cases only' with
                | false => rfl
                | true => exact absurd (hon' rfl).1 (by omega)
              refine ⟨_, _, ⟨0, T, R, 0, t, hs, by simp only [BtIterator.at]; omega, hpos,
                fun h => absurd rfl h, by rw [T.post_at hpos, List.cons_append]⟩, .inl ⟨?_, ?_, ?_⟩⟩
              · exact haft _ (T.entry_mem_post hpos)
              · simp [hno]
              · rw [hL, T.post_at hpos, List.cons_append]
            · -- the key before i
              obtain ⟨j, rfl⟩ : ∃ j, m = j + 1 := ⟨m - 1, by omega⟩
              have hj : j < T.size := by omega
              refine ⟨_, _, ⟨0, T, R, j, t, hs, by simp only [BtIterator.at]; omega, hj,
                fun h => absurd rfl h, by rw [T.post_at hj, List.cons_append]⟩, .inr ⟨?_, ?_, ?_⟩⟩
              · exact hbef _ (T.entry_mem_pre (Nat.lt_succ_self j))
              · rw [hL, T.kid_leaf, List.nil_append]
              · intro h
                have : only' = true := by
                  by_contra hc
                  simp [hc] at h
                rw [hL, (hon' this).2]
        | succ d =>
            have hleaf : T.top.leaf = false := by
              cases h : T.top.leaf with
              | false => rfl
              | true => exact absurd (g.top_leaf.1 h) (by omega)
            have B : Beside (i.at (max (findkindex b T.top k).1 0)
                (max (findkindex b T.top k).1 0)).bln T m := by
              rcases Nat.eq_zero_or_pos m with rfl | hm0
              · exact .left hs (by simp only [BtIterator.at]; omega)
                  (by simp only [BtIterator.at]; omega) hpos
              · exact .right hs (by simp only [BtIterator.at]; omega) hm0 (.inl rfl)
            have hnew : (i.at (max (findkindex b T.top k).1 0)
                (max (findkindex b T.top k).1 0)).numNodes < maxBtreeDepth := by
              simp only [BtIterator.at]
              omega
            have hc : b.child T.top ((findkindex b T.top k).1 + 1) = some (T.kid m).addr := by
              rw [show (findkindex b T.top k).1 + 1 = (m : Int) by omega]
              exact S.child t hm
            have t' := Trail.kid t hm B
            rw [if_neg (by simp [hleaf]), getNewIterChild, if_pos hnew]
            simp only [Option.bind_some, hc, toChild, S.heap t', if_true]
            exact ih (by omega) t' rfl (g.kid_pos hm)
              (by simp only [BtIterator.at, List.length_cons]; omega) hfin hflat hLp' hR' fun h => (hon' h).2

/-! ## Iterators on a clean tree -/

/-- The iterator has the list before it, and has met no miss. -/
structure Going (tr : Trans) (T₀ : Sub α (D + 1)) (si : BtSIter α κ) (L : List (α × Nat)) :
    Prop where
  ahead : Ahead (tr.view α) T₀ si.x L
  empty : si.empty = false
  missed : si.missed = false
  nim : si.nim = false

omit [LinearOrder κ] [RowStream α] in
/-- The list before an iterator ends the reading. -/
theorem Stand.suffix {V : View α (α × Nat)} {f : BtLlN} {up : List BtLlN} {L : List (α × Nat)}
    (h : Stand V T₀ f up L) : ∃ l, T₀.flat V = l ++ L := by
  obtain ⟨d, T, R, j, H⟩ := h
  obtain ⟨l, hl⟩ := H.trail.reads
  refine ⟨l ++ (T.pre V j ++ (T.kid j).flat V), ?_⟩
  rw [hl, H.read, T.flat_focus V H.lt.le]
  simp

theorem Searched.entry (S : Searched K tr b T₀) {c : α × Nat} (hc : c ∈ T₀.flat (tr.view α)) :
    c.2 = 0 ∧ Sound K c.1 := by
  have hm : c.1 ∈ T₀.keys := by
    rw [keys_of_flat ]
    exact List.mem_map_of_mem hc
  rw [flat_clean] at hc
  exact ⟨cells_clean _ S.clean.whole.good c hc, S.sound _ hm⟩

theorem Going.entry {si : BtSIter α κ} {c : α × Nat} {L : List (α × Nat)}
    (S : Searched K tr b T₀) (G : Going tr T₀ si (c :: L)) :
    c.2 = 0 ∧ Sound K c.1 := by
  obtain ⟨l, hl⟩ := G.ahead.stand.2.suffix
  refine S.entry ?_
  rw [hl]
  exact List.mem_append_right _ List.mem_cons_self

/-- `btNext` returns the first entry before the iterator. -/
theorem Going.next {si : BtSIter α κ} {c : α × Nat} {L : List (α × Nat)} (S : Searched K tr b T₀)
    (G : Going tr T₀ si (c :: L)) :
    ∃ nd si', b.heap si.x.bln.self = some nd ∧ nd.dr si.x.bln.ik.toNat = 0 ∧
      btNext K b .step true si = some (some (c.1, si.x.bln.self, si.x.bln.ik), si') ∧
      Going tr T₀ si' L ∧ si'.high = si.high ∧ si'.scan = si.scan := by
  obtain ⟨nd, i, hi, it', hheap, hik, hentry, hslot, hrun, A, -⟩ := S.scanned.step G.ahead
  obtain ⟨hdr, hsound⟩ := G.entry S
  have hc : c = (nd.keys i, nd.dr i) := hentry.symm
  subst hc
  have h0 : nd.dr i = 0 := hdr
  refine ⟨nd, { si with missed := si.nim, nim := false, x := it' }, hheap, by rw [hik]; exact h0, ?_,
    ⟨A, G.empty, G.nim, rfl⟩, rfl, rfl⟩
  have hgo : (if nd.leaf then iLeaf b .step true nd si.x else iNode b .step true nd si.x) = some it' :=
    hrun
  have hkn : K.null (nd.keys i) = false := hsound.null
  cases hl : nd.leaf <;> rw [hl] at hgo <;>
    simp only [Bool.false_eq_true, if_false, if_true] at hgo <;>
    simp only [btNext, G.ahead.stand.1, Bool.false_eq_true, if_false, hheap, hik, Option.bind_eq_bind,
      Option.bind_some, hslot, if_true, Int.toNat_natCast, h0, ne_eq, not_true_eq_false, decide_false,
      hl, hgo, RangeKeys.stream, hkn]

omit [LinearOrder κ] in
theorem btNext_finished {si : BtSIter α κ} (h : si.x.finished = true) (p : Pace) (asc : Bool) :
    btNext K b p asc si = some (none, if si.scan then { si with missed := si.nim } else si) := by
  simp [btNext, h]

omit [LinearOrder κ] in
theorem streamToBTEntry_run {e : α} {x : Nat} {i : Int} {nd : BtN α} (si : BtSIter α κ)
    (hx : b.heap x = some nd) (hg : RowStream.isGhost e = false) :
    streamToBTEntry b e x i si = some { si with be := some (e, nd.dr i.toNat) } := by
  simp [streamToBTEntry, hx, hg]

/-- The entry becomes the last one; at the end of the range the iterator is finished. -/
def BtSIter.took (K : RangeKeys α κ) (si : BtSIter α κ) (e : α) : BtSIter α κ :=
  if K.exact (K.key e) si.high then { si with be := some (e, 0), x := { si.x with finished := true } }
  else { si with be := some (e, 0) }

omit [LinearOrder κ] in
theorem rangeTest_run {e : α} {x : Nat} {i : Int} {nd : BtN α} (si : BtSIter α κ) (asc : Bool)
    (hx : b.heap x = some nd) (hg : RowStream.isGhost e = false) (h0 : nd.dr i.toNat = 0)
    (hn : si.nim = false) :
    rangeTest K b asc e x i si =
      some (if K.isOver asc (K.key e) 0 si.high then none else some e, si.took K e) := by
  simp only [rangeTest, streamToBTEntry_run _ hx hg, hx, Option.bind_eq_bind, Option.bind_some, h0,
    BtSIter.took]
  by_cases hex : K.exact (K.key e) si.high = true
  · simp only [if_pos hex, hn, Bool.false_eq_true, false_and, and_false, if_false]
  · simp only [if_neg hex, hn, Bool.false_eq_true, false_and, and_false, if_false]

/-! ## Scans -/

/-- What `btRangeNext` returns until it returns the null pointer; no call meets a miss. -/
def Yields (K : RangeKeys α κ) (b : Bt α) (asc : Bool) : BtSIter α κ → List α → Prop
  | si, [] => ∃ si', btRangeNext K b asc si = some (none, si') ∧ si'.missed = false
  | si, e :: l => ∃ si', btRangeNext K b asc si = some (some e, si') ∧ si'.missed = false ∧
      si'.be = some (e, 0) ∧ Yields K b asc si' l

/-- The entries a scan gets out of the list before it. -/
def taken (K : RangeKeys α κ) (high : κ) : List (α × Nat) → List α
  | [] => []
  | c :: l =>
      if K.isOver true (K.key c.1) c.2 high then []
      else c.1 :: if K.exact (K.key c.1) high then [] else taken K high l

omit [LinearOrder κ] in
theorem Yields.finished {si : BtSIter α κ} {asc : Bool} (he : si.empty = false)
    (hf : si.x.finished = true) (hm : si.missed = false) (hn : si.nim = false) :
    Yields K b asc si [] := by
  refine ⟨if si.scan then { si with missed := si.nim } else si, ?_, ?_⟩
  · simp [btRangeNext, he, btNext_finished hf]
  · split
    · exact hn
    · exact hm

theorem Going.yields (S : Searched K tr b T₀) : ∀ {L : List (α × Nat)} {si : BtSIter α κ},
    Going tr T₀ si L → Yields K b true si (taken K si.high L)
  | [], _, G => Yields.finished G.empty G.ahead.finished G.missed G.nim
  | c :: L, si, G => by
      obtain ⟨nd, si₁, hheap, hdr, hnext, G₁, hhigh, -⟩ := G.next S
      obtain ⟨h0, hsound⟩ := G.entry S
      have hg := hsound.ghost
      have hrun : btRangeNext K b true si =
          some (if K.isOver true (K.key c.1) c.2 si.high then none else some c.1, si₁.took K c.1) := by
        simp only [btRangeNext, G.empty, Bool.false_eq_true, if_false, hnext, Option.bind_eq_bind,
          Option.bind_some, rangeTest_run si₁ true hheap hg hdr G₁.nim, h0, hhigh]
      rw [taken]
      by_cases hover : K.isOver true (K.key c.1) c.2 si.high = true
      · rw [if_pos hover]
        refine ⟨_, by rw [hrun, if_pos hover], ?_⟩
        rw [BtSIter.took]
        split <;> exact G₁.missed
      · rw [if_neg hover]
        by_cases hex : K.exact (K.key c.1) si.high = true
        · have ht : si₁.took K c.1 =
              { si₁ with be := some (c.1, 0), x := { si₁.x with finished := true } } := by
            rw [BtSIter.took, hhigh, if_pos hex]
          rw [if_pos hex]
          refine ⟨si₁.took K c.1, by rw [hrun, if_neg hover], ?_⟩
          rw [ht]
          exact ⟨G₁.missed, rfl, Yields.finished G₁.empty rfl G₁.missed G₁.nim⟩
        · have ht : si₁.took K c.1 = { si₁ with be := some (c.1, 0) } := by
            rw [BtSIter.took, hhigh, if_neg hex]
          rw [if_neg hex]
          refine ⟨si₁.took K c.1, by rw [hrun, if_neg hover], ?_⟩
          rw [ht]
          have G₂ : Going tr T₀ { si₁ with be := some (c.1, 0) } L :=
            ⟨G₁.ahead, G₁.empty, G₁.missed, G₁.nim⟩
          refine ⟨G₁.missed, rfl, ?_⟩
          rw [← hhigh]
          exact G₂.yields S

/-! ## Setting an iterator -/

variable {low high : κ} {bkey : α} {scan : Bool}

/-- What `setIter` makes of a new iterator: it is behind the last key, or goes on from the key. -/
inductive Seeks (K : RangeKeys α κ) (tr : Trans) (b : Bt α) (T₀ : Sub α (D + 1)) (high : κ)
    (scan : Bool) (L : List (α × Nat)) : Stream α × BtSIter α κ → Prop
  | off (si : BtSIter α κ) (nil : L = []) (empty : si.empty = true) (missed : si.missed = false) :
      Seeks K tr b T₀ high scan L (none, si)
  | at (e : α) (x : Nat) (i : Int) (nd : BtN α) (si : BtSIter α κ) (heap : b.heap x = some nd)
      (dr : nd.dr i.toNat = 0) (ghost : RowStream.isGhost e = false) (going : Going tr T₀ si L)
      (hh : si.high = high) (hs : si.scan = scan) :
      Seeks K tr b T₀ high scan L (some (e, x, i), si)

variable [DecidableEq κ]

theorem Searched.setIter {s : Bool} {w : κ} (S : Searched K tr b T₀) (hn : b.numkeys ≠ 0) (hb : K.key bkey = low)
    (q : κ) : ∃ r, AlchemyDB.setIter K b bkey (createIterator b w s) q true = some r ∧
      Seeks K tr b T₀ w s (onwards K low (T₀.flat (tr.view α))) r := by
  subst hb
  have hT := S.scanned
  obtain ⟨ret, it, hrun, hroom, hcap, hfin, H⟩ := hT.initLoop (k := bkey) (q := K.num q)
    (T := T₀) (R := []) (L := []) (i := initIter b) (o := true) hT.whole.depth
    .root hT.whole.root (S.root_pos hn) rfl rfl (by simp) (by simp) (by simp) fun _ => rfl
  have hinit : btInitIterator K b bkey (createIterator b w s).x q = some (ret, it) := by
    simp only [btInitIterator, checkMinMiss, S.left, if_true, Option.bind_eq_bind, Option.bind_some]
    exact hrun
  -- the iterator stands at an entry of the list `l`
  have hstand {l : List (α × Nat)} (h : Stand (tr.view α) T₀ it.bln it.up l) :
      ∃ c l' nd, l = c :: l' ∧ Ahead (tr.view α) T₀ it l ∧ b.heap it.bln.self = some nd ∧
        b.slot nd it.bln.ik = some c.1 ∧ nd.dr it.bln.ik.toNat = 0 ∧ K.null c.1 = false ∧
        RowStream.isGhost c.1 = false := by
    have A : Ahead (tr.view α) T₀ it l := ⟨hroom, hcap, .inl ⟨hfin, h⟩⟩
    obtain ⟨c, l', rfl⟩ : ∃ c l', l = c :: l' := by
      obtain ⟨d, T, R, j, h⟩ := h
      exact List.exists_cons_of_ne_nil h.ne_nil
    obtain ⟨nd, i, hi, it', hheap, hik, hentry, hslot, -⟩ := hT.step A
    obtain ⟨hl₀, hl⟩ := h.suffix
    obtain ⟨h0, hsound⟩ := S.entry (c := c) (by rw [hl]; simp)
    subst hentry
    refine ⟨_, l', nd, rfl, A, hheap, by rw [hik]; exact hslot, ?_, hsound.null, hsound.ghost⟩
    rw [hik]
    exact h0
  rcases H with ⟨rfl, h⟩ | ⟨hret, x, L', h, hcase⟩
  · -- the key is there
    obtain ⟨c, l', nd, hl, A, hheap, hslot, hdr, hnull, hg⟩ := hstand h
    refine ⟨_, ?_, .at c.1 it.bln.self it.bln.ik nd
      { createIterator b w s with x := it, empty := false } hheap hdr hg ⟨A, rfl, rfl, rfl⟩ rfl rfl⟩
    simp only [AlchemyDB.setIter, hinit, Option.bind_eq_bind, Option.bind_some, hheap, hslot,
      RangeKeys.stream, hnull, Bool.false_eq_true, if_false]
  · obtain ⟨c, l', nd, hl, A, hheap, hslot, hdr, hnull, hg⟩ := hstand h
    obtain ⟨rfl, rfl⟩ := List.cons.inj hl
    rcases hcase with ⟨hlt, rfl, hL⟩ | ⟨hlt, hL, hright⟩
    · -- it would stand before this key
      have hcmp : ¬ b.cmp bkey x.1 > 0 := by
        rw [hT.setting.cmp.gt]
        exact not_lt.2 hlt.le
      refine ⟨_, ?_, .at x.1 it.bln.self it.bln.ik nd
        { createIterator b w s with x := it, empty := false } hheap hdr hg
        ⟨hL ▸ A, rfl, rfl, rfl⟩ rfl rfl⟩
      simp only [AlchemyDB.setIter, hinit, Option.bind_eq_bind, Option.bind_some, hheap, hslot,
        if_neg hcmp, RangeKeys.stream, hnull, Bool.false_eq_true, if_false]
    · have hcmp : b.cmp bkey x.1 > 0 := (hT.setting.cmp.gt _ _).2 hlt
      rcases hret with rfl | rfl
      · -- it stands behind this key
        have G : Going tr T₀ { createIterator b w s with x := it, empty := false } (x :: L') :=
          ⟨A, rfl, rfl, rfl⟩
        obtain ⟨nd', si', hheap', hdr', hnext, G', hh, hs⟩ := G.next S
        refine ⟨_, ?_, .at x.1 it.bln.self it.bln.ik nd si' hheap hdr hg (hL ▸ G') hh hs⟩
        simp only [AlchemyDB.setIter, hinit, Option.bind_eq_bind, Option.bind_some, hheap, hslot,
          if_pos hcmp, reduceCtorEq, if_false]
        exact hnext
      · -- there is no key behind it
        refine ⟨_, ?_, .off { createIterator b w s with x := it, empty := true } (hright rfl) rfl rfl⟩
        simp only [AlchemyDB.setIter, hinit, Option.bind_eq_bind, Option.bind_some, hheap, hslot,
          if_pos hcmp, if_true]

/-! ## `btGetRangeIter` -/

/-- What a caller gets that loops over an iterator: nothing from the null pointer. -/
def Delivers (K : RangeKeys α κ) (b : Bt α) (asc : Bool) (l : List α) : Got (BtSIter α κ) → Prop
  | .null | .leaked => l = []
  | .iter si => Yields K b asc si l

/-- The entries of an ascending range. -/
def rangeOf (K : RangeKeys α κ) (low high : κ) (l : List (α × Nat)) : List α :=
  taken K high (onwards K low l)

omit [DecidableEq κ] in
theorem Searched.cells_nil (S : Searched K tr b T₀) (h : b.numkeys = 0) :
    T₀.flat (tr.view α) = [] := by
  have hl := S.count
  rw [h, keys_of_flat , List.length_map] at hl
  exact List.length_eq_zero_iff.1 (by exact_mod_cast hl.symm)

/-- An ascending range gives what is read from the low key on, until the high key ends it. -/
theorem Searched.range (S : Searched K tr b T₀) (hb : K.bkey low = some bkey)
    (hk : K.key bkey = low) : ∃ g, btGetRangeIter K b low high true = some g ∧
      Delivers K b true (rangeOf K low high (T₀.flat (tr.view α))) g := by
  by_cases hn : b.numkeys = 0
  · refine ⟨.null, by simp [btGetRangeIter, hn], ?_⟩
    rw [S.cells_nil hn]
    rfl
  obtain ⟨r, hrun, hr⟩ := S.setIter (w := high) (s := false) hn hk low
  cases hr with
  | off si hnil he _ =>
      refine ⟨.leaked, by simp [btGetRangeIter, hn, hb, hrun], ?_⟩
      rw [rangeOf, hnil]
      rfl
  | «at» e x i nd si hheap hdr hg G hh _ =>
      refine ⟨.iter { si with be := some (e, nd.dr i.toNat) }, ?_, ?_⟩
      · simp [btGetRangeIter, hn, hb, hrun, streamToBTEntry_run _ hheap hg]
      · have G' : Going tr T₀ { si with be := some (e, nd.dr i.toNat) } _ :=
          ⟨G.ahead, G.empty, G.missed, G.nim⟩
        rw [rangeOf, ← hh]
        exact G'.yields S

omit [LinearOrder κ] in
/-- A range from the null pointer is empty. -/
theorem range_null (h : K.bkey low = none) : ∃ g, btGetRangeIter K b low high true = some g ∧
    Delivers K b true [] g := by
  by_cases hn : b.numkeys = 0
  · exact ⟨.null, by simp [btGetRangeIter, hn], rfl⟩
  · exact ⟨.leaked, by simp [btGetRangeIter, hn, h], rfl⟩

/-! ## `btGetFullRangeIter` -/

section Edges

omit [RowStream α] [DecidableEq κ]

variable {d : Nat} {T : Sub α (d + 1)} {up : List BtLlN} {R : List (α × Nat)}

/-- The leftmost leaf. -/
theorem Scanned.minnode (S : Scanned (tr.view α) K.key (fun c => K.key c.1) b T₀) :
    ∀ {d : Nat} {T : Sub α (d + 1)} {up : List BtLlN} {R : List (α × Nat)} {F : Nat}, d < F →
      Trail (tr.view α) T₀ T up R → 0 < T.size →
      ∃ x nd l, findminnode F T.addr b = some (x, b) ∧ b.heap x = some nd ∧
        T.flat (tr.view α) = (nd.keys 0, nd.dr 0) :: l
  | d, T, up, R, 0, hf, _, _ => absurd hf (Nat.not_lt_zero d)
  | 0, T, up, R, F + 1, _, t, hpos => by
      have hleaf : T.top.leaf = true := (t.good S.good).top_leaf.2 rfl
      refine ⟨T.addr, T.top, T.post (tr.view α) 1, ?_, S.heap t, ?_⟩
      · rw [findminnode, run_bind (getN_run (S.heap t)), if_pos hleaf]
        rfl
      · rw [T.flat_first, T.kid_leaf, List.nil_append, T.post_at hpos, T.kid_leaf, List.nil_append]
        rfl
  | d + 1, T, up, R, F + 1, hf, t, hpos => by
      have hleaf : T.top.leaf = false := by
        cases h : T.top.leaf with
        | false => rfl
        | true => exact absurd ((t.good S.good).top_leaf.1 h) (by omega)
      obtain ⟨x, nd, l, hrun, hx, hl⟩ := S.minnode (F := F) (by omega)
        (Trail.kid (f := ⟨T.addr, 0, 0⟩) t (Nat.zero_le _) (.left rfl rfl rfl hpos))
        ((t.good S.good).kid_pos (Nat.zero_le _))
      refine ⟨x, nd, l ++ T.post (tr.view α) 0, ?_, hx, ?_⟩
      · rw [findminnode, run_bind (getN_run (S.heap t)), if_neg (by simp [hleaf]),
          run_bind (getNode_run (S.heap t) hleaf 0), (t.good S.good).top_link (Nat.zero_le _)]
        exact hrun
      · rw [T.flat_first, hl]
        rfl

/-- The rightmost leaf. -/
theorem Scanned.maxnode (S : Scanned (tr.view α) K.key (fun c => K.key c.1) b T₀) :
    ∀ {d : Nat} {T : Sub α (d + 1)} {up : List BtLlN} {R : List (α × Nat)} {F : Nat}, d < F →
      Trail (tr.view α) T₀ T up R → 0 < T.size →
      ∃ x nd l, findmaxnode F T.addr b = some (x, b) ∧ b.heap x = some nd ∧
        T.flat (tr.view α) = l ++ [(nd.keys (nd.n - 1), nd.dr (nd.n - 1))]
  | d, T, up, R, 0, hf, _, _ => absurd hf (Nat.not_lt_zero d)
  | 0, T, up, R, F + 1, _, t, hpos => by
      have hleaf : T.top.leaf = true := (t.good S.good).top_leaf.2 rfl
      have hsz := T.size_top
      refine ⟨T.addr, T.top, T.pre (tr.view α) (T.size - 1), ?_, S.heap t, ?_⟩
      · rw [findmaxnode, run_bind (getN_run (S.heap t)), if_pos hleaf]
        rfl
      · rw [T.flat_focus _ le_rfl, T.post_size, T.kid_leaf, List.append_nil, List.append_nil]
        obtain ⟨n, hn⟩ : ∃ n, T.size = n + 1 := ⟨T.size - 1, by omega⟩
        rw [hn, T.pre_succ, T.kid_leaf, show T.top.n - 1 = n by omega]
        rfl
  | d + 1, T, up, R, F + 1, hf, t, hpos => by
      have hleaf : T.top.leaf = false := by
        cases h : T.top.leaf with
        | false => rfl
        | true => exact absurd ((t.good S.good).top_leaf.1 h) (by omega)
      have hsz := T.size_top
      obtain ⟨x, nd, l, hrun, hx, hl⟩ := S.maxnode (F := F) (by omega)
        (Trail.kid (f := ⟨T.addr, (T.size : Int) - 1, T.size⟩) (j := T.size) t le_rfl
          (.right rfl (by simp) hpos (.inr ⟨rfl, rfl⟩))) ((t.good S.good).kid_pos le_rfl)
      refine ⟨x, nd, T.pre (tr.view α) T.size ++ l, ?_, hx, ?_⟩
      · rw [findmaxnode, run_bind (getN_run (S.heap t)), if_neg (by simp [hleaf]),
          run_bind (getNode_run (S.heap t) hleaf _), ← hsz, (t.good S.good).top_link le_rfl]
        exact hrun
      · rw [T.flat_focus _ le_rfl, T.post_size, List.append_nil, hl, List.append_assoc]

end Edges

/-- The entries of a scan of the whole tree. -/
def fullOf (K : RangeKeys α κ) (l : List (α × Nat)) : List α :=
  match l.getLast? with
  | none => []
  | some c => taken K (K.key c.1) l

omit [DecidableEq κ] in
/-- `btMin` and `btMax` give the first and the last entry. -/
theorem Searched.edgeEntries (S : Searched K tr b T₀) (hn : b.numkeys ≠ 0) :
    ∃ c l c', T₀.flat (tr.view α) = c :: l ∧ (T₀.flat (tr.view α)).getLast? = some c' ∧
      edgeKey btMin b = some (some c.1) ∧ edgeKey btMax b = some (some c'.1) := by
  have hT := S.scanned
  obtain ⟨x, nd, l, hmin, hx, hl⟩ := hT.minnode hT.whole.depth .root (S.root_pos hn)
  obtain ⟨x', nd', l', hmax, hx', hl'⟩ :=
    hT.maxnode hT.whole.depth .root (S.root_pos hn)
  have hroot : b.root = T₀.addr := hT.whole.root
  refine ⟨_, l, _, hl, by rw [hl', List.getLast?_concat], ?_, ?_⟩
  · have : btMin b = some (some (if b.s.narrow then .val (nd.keys 0) else .slot x 0), b) := by
      rw [btMin, run_bind (run_get b), if_neg hn, hroot, run_bind hmin, run_bind (KEYS_run hx 0)]
      rfl
    simp [edgeKey, this, deref_KEYS hx 0]
  · have : btMax b = some (some (if b.s.narrow then .val (nd'.keys (nd'.n - 1))
        else .slot x' (nd'.n - 1)), b) := by
      rw [btMax, run_bind (run_get b), if_neg hn, hroot, run_bind hmax, run_bind (getN_run hx'),
        run_bind (KEYS_run hx' _)]
      rfl
    simp [edgeKey, this, deref_KEYS hx' (nd'.n - 1)]

omit [DecidableEq κ] in
/-- `assignMinKey` and `assignMaxKey` give the first and the last key. -/
theorem Searched.edges (S : Searched K tr b T₀) (hn : b.numkeys ≠ 0) :
    ∃ c l c', T₀.flat (tr.view α) = c :: l ∧ (T₀.flat (tr.view α)).getLast? = some c' ∧
      edgeKeys K b = some (some (K.key c.1, K.key c'.1)) := by
  obtain ⟨c, l, c', hl, hlast, e1, e2⟩ := S.edgeEntries hn
  have h1 := (S.entry (c := c) (by rw [hl]; exact List.mem_cons_self)).2.null
  have h2 := (S.entry (List.mem_of_getLast? hlast)).2.null
  refine ⟨c, l, c', hl, hlast, ?_⟩
  simp only [edgeKeys, e1, e2, Option.bind_eq_bind, Option.bind_some, h1, h2, Bool.false_eq_true,
    or_self, if_false]

/-- A scan of the whole tree gives what is read, until the last key ends it. -/
theorem Searched.fullRange (S : Searched K tr b T₀) : ∃ g, btGetFullRangeIter K b true = some g ∧
    Delivers K b true (fullOf K (T₀.flat (tr.view α))) g := by
  by_cases hn : b.numkeys = 0
  · refine ⟨.null, by simp [btGetFullRangeIter, hn], ?_⟩
    rw [S.cells_nil hn]
    rfl
  obtain ⟨c, l, c', hl, hlast, hedge⟩ := S.edges hn
  obtain ⟨k, hk, hkey⟩ := (S.entry (c := c) (by rw [hl]; simp)).2.bkey
  have hfull : fullOf K (T₀.flat (tr.view α)) = taken K (K.key c'.1) (T₀.flat (tr.view α)) := by
    rw [fullOf, hlast]
  have hon : onwards K (K.key c.1) (T₀.flat (tr.view α)) = T₀.flat (tr.view α) := by
    have := S.scanned.order
    rw [hl] at this ⊢
    exact onwards_at (l := []) this rfl
  obtain ⟨r, hrun, hr⟩ := S.setIter (w := K.key c'.1) (s := true) hn hkey (K.key c.1)
  rw [hon] at hr
  cases hr with
  | off si hnil he _ => exact absurd (hl.symm.trans hnil) (List.cons_ne_nil _ _)
  | «at» e x i nd si hheap hdr hg G hh _ =>
      refine ⟨.iter { si with be := some (e, nd.dr i.toNat) }, ?_, ?_⟩
      · simp [btGetFullRangeIter, hn, hedge, hk, hrun, streamToBTEntry_run _ hheap hg, S.left]
      · have G' : Going tr T₀ { si with be := some (e, nd.dr i.toNat) } (T₀.flat (tr.view α)) :=
          ⟨G.ahead, G.empty, G.missed, G.nim⟩
        rw [hfull, ← hh]
        exact G'.yields S

end AlchemyDB
