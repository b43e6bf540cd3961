/-
# `AlchemyDB.BTree.Position` — the position of a key

While the position of an index is on, every binary search in one of its nodes adds to `cipos`: the
scions of the children up to the slot that is found, and the keys up to it.  The descent of
`findnodekey` so counts the keys that are at most the one looked for.  A UNIQUE index on one column
is a packed tree of numbers, in which no delete reads an entry through a slot that has changed.
-/
import AlchemyDB.BTree.Ranged

namespace AlchemyDB

open Store Weave

variable {α κ : Type}

/-! ## Counting on the way down -/

/-- The scions of the first `m` children. -/
def kidScions (x : Nat) : Nat → BtM α Int
  | 0 => pure 0
  | j + 1 => do
      let sum ← kidScions x j
      let c ← getNode x j
      let xp ← getN c
      pure (sum + xp.scion)

/-- `add_to_cipos`: what it adds. -/
def addToCipos (x : Nat) (i : Int) : BtM α Int := do
  if i = -1 then pure 0
  else do
    let nd ← getN x
    let below ← if nd.leaf then pure 0 else kidScions x (i + 1).toNat
    pure (below + (i + 1))

/-- The loop of `findnodekey` with the position on: `findkindex` adds to `cipos`. -/
def findnodekeyPosLoop [RowStream α] (k : α) (q : Nat) :
    Nat → Nat → Nat → Int → Dwm α → Int → BtM α (Dwm α × Int)
  | 0, _, _, _, _, _ => failure
  | fuel + 1, x, p, pi, dwm, cipos => do
    let s ← get
    let nd ← getN x
    let (i, r) := findkindex s nd k
    let add ← addToCipos x i
    if 0 ≤ i ∧ r = 0 then do
      let kd ← KEYS x i.toNat
      pure ({ k := some kd, miss := dwm.miss, x := x, i := i, p := p, pi := pi }, cipos + add)
    else
      let dwm : Dwm α := if keyCoversMiss s nd i q
        then { k := dwm.k, miss := true, x := x, i := i, p := p, pi := pi } else dwm
      if nd.leaf then pure ({ dwm with k := none }, cipos + add)
      else do
        let c ← getNode x (i + 1).toNat
        findnodekeyPosLoop k q fuel c x (i + 1) dwm (cipos + add)

/-- `findnodekey` from the root with the position on, and the `cipos` it leaves. -/
def findnodekeyPos [RowStream α] (k : α) (q : Nat) : BtM α (Dwm α × Int) := do
  let s ← get
  findnodekeyPosLoop k q s.next s.root s.root 0
    { k := none, miss := false, x := s.root, i := 0, p := s.root, pi := 0 } 0

/-! ## The trees of UNIQUE indexes -/

/-- `_createUIBT`: the specification of the tree of a UNIQUE index on a column, whose entries are pairs
of a number of the column and a primary key. -/
def createUIBT (btype : BType) : ColType → ColType → Option Bts
  | .int, .int => some ⟨.int, btype, 8, btflagUintUint⟩
  | .int, .long => some ⟨.int, btype, 12, btflagUintUlong⟩
  | .int, _ => some ⟨.int, btype, 20, btflagUintU128⟩
  | .long, .int => some ⟨.long, btype, 12, btflagUlongUint⟩
  | .long, .long => some ⟨.long, btype, 16, btflagUlongUlong⟩
  | .long, _ => some ⟨.long, btype, 24, btflagUlongU128⟩
  | .u128, .int => some ⟨.u128, btype, 20, btflagU128Uint⟩
  | .u128, .long => some ⟨.u128, btype, 24, btflagU128Ulong⟩
  | .u128, _ => some ⟨.u128, btype, 32, btflagU128U128⟩
  | _, _ => none

/-- `createU_S_IBT`. -/
def createUSIBT (ktype pktyp : ColType) : Option Bts := createUIBT .simpUniq ktype pktyp

/-- Their slots hold the entries, or their entries are copied before a slot changes. -/
theorem createUIBT_firm {btype : BType} {k p : ColType} {sp : Bts}
    (h : createUIBT btype k p = some sp) : sp.sane ∧ ¬ sp.loose := by
  unfold createUIBT at h
  split at h <;> cases h <;>
    simp [Bts.sane, Bts.loose, Bts.narrow, Bts.isVoid, Bts.isUint, Bts.bigBt, btflagUintUint,
      btflagUintUlong, btflagUintU128, btflagUlongUint, btflagUlongUlong, btflagUlongU128,
      btflagU128Uint, btflagU128Ulong, btflagU128U128]

section Count

variable [LinearOrder κ] {key : α → κ} {s : Bt α} {tr : Trans} {d : Nat} {k : α}

/-! ## What a search adds -/

omit [LinearOrder κ] in
/-- In a clean tree the scion of a node is the number of keys below it. -/
theorem scion_length {h : Nat → Option (BtN α)} :
    ∀ {d : Nat} {T : Sub α d}, Good (cleanView α tr.t tr.two_le) h T →
      T.scion = (T.keys.length : Int)
  | _, .nil, _ => rfl
  | _, .node _ _ _, g => (g.numbered tr.two_le).1

omit [LinearOrder κ] in
/-- What is read before kid `m` are the first `m` kids and keys. -/
theorem length_pre {d : Nat} {x : Nat} {nd : BtN α} {kid : Nat → Sub α d} (m : Nat) :
    ((Sub.node x nd kid).pre (cleanView α tr.t tr.two_le) (m + 1)).length =
      ((Sub.node x nd kid).pre (cleanView α tr.t tr.two_le) m).length + (kid m).keys.length + 1 := by
  rw [Sub.pre_succ, List.length_append, List.length_append, Sub.kid_node, flat_clean, Sub.keys,
    List.length_map, List.length_singleton, Nat.add_assoc]

omit [LinearOrder κ] in
theorem kidScions_run {d : Nat} {x : Nat} {nd : BtN α} {kid : Nat → Sub α (d + 1)}
    (g : Good (cleanView α tr.t tr.two_le) s.heap (.node x nd kid)) :
    ∀ {m : Nat}, m ≤ nd.n + 1 →
      ∃ sum : Int, kidScions x m s = some (sum, s) ∧
        sum + m = (((Sub.node x nd kid).pre (cleanView α tr.t tr.two_le) m).length : Int)
  | 0, _ => ⟨0, rfl, rfl⟩
  | m + 1, hm => by
      obtain ⟨sum, hrun, hsum⟩ := kidScions_run g (m := m) (by omega)
      have hle : m ≤ nd.n := by omega
      have hk := g.kids m hle
      obtain ⟨y, xp, kid', he⟩ := exists_node (kid m)
      have hlive : s.heap (nd.nodes m) = some xp := by
        rw [g.node.link (by omega) m hle, he]
        rw [he] at hk
        exact hk.node.live
      have hscion : xp.scion = ((kid m).keys.length : Int) := by
        rw [← scion_length hk, he]
        rfl
      refine ⟨sum + xp.scion, ?_, ?_⟩
      · rw [kidScions, run_bind hrun, run_bind (getNode_run g.node.live g.inner m),
          run_bind (getN_run hlive)]
        rfl
      · rw [length_pre, hscion]
        push_cast
        omega

omit [LinearOrder κ] in
/-- What `add_to_cipos` adds is what is read before the kid behind the slot found. -/
theorem addToCipos_run : ∀ {d : Nat} {x : Nat} {nd : BtN α} {kid : Nat → Sub α d} {m : Nat},
    Good (cleanView α tr.t tr.two_le) s.heap (.node x nd kid) → m ≤ nd.n →
    addToCipos x ((m : Int) - 1) s =
      some ((((Sub.node x nd kid).pre (cleanView α tr.t tr.two_le) m).length : Int), s)
  | d, x, nd, kid, 0, _, _ => by
      rw [addToCipos, if_pos (by omega)]
      rfl
  | 0, x, nd, kid, m + 1, g, hm => by
      have hlen : ∀ {i : Nat}, ((Sub.node x nd kid).pre (cleanView α tr.t tr.two_le) i).length = i := by
        intro i
        induction i with
        | zero => rfl
        | succ i ih => rw [length_pre, ih, Sub.keys_nil, List.length_nil]
      rw [addToCipos, if_neg (by omega), run_bind (getN_run g.node.live),
        if_pos (g.node.leaf.mpr rfl), hlen]
      show some _ = some _
      congr 2
      push_cast
      omega
  | d + 1, x, nd, kid, m + 1, g, hm => by
      obtain ⟨sum, hrun, hsum⟩ := kidScions_run g (m := m + 1) (by omega)
      have hslot : (((m + 1 : Nat) : Int) - 1 + 1).toNat = m + 1 := by omega
      rw [addToCipos, if_neg (by omega), run_bind (getN_run g.node.live), if_neg (by simp [g.inner]),
        hslot, run_bind hrun, ← hsum]
      show some _ = some _
      congr 2
      push_cast
      omega

/-- The number of keys that are at most `k`. -/
def Sub.position (key : α → κ) (k : α) {d : Nat} (T : Sub α d) : Nat :=
  (T.keys.filter fun e => key e ≤ key k).length

theorem position_nil (T : Sub α 0) : T.position key k = 0 := by
  rw [Sub.position, Sub.keys_nil]
  rfl

/-- Beside what is read before the kid behind the slot found, the keys that are at most `k` are in that
kid. -/
theorem position_node {d : Nat} {T : Sub α (d + 1)} {i r : Int} {m : Nat} (hm : m ≤ T.size)
    (ho : Ordered (fun b : α × Nat => key b.1) (T.flat (cleanView α tr.t tr.two_le)))
    (F : Found key T.top k i r m) :
    T.position key k = (T.pre (cleanView α tr.t tr.two_le) m).length + (T.kid m).position key k := by
  obtain ⟨hpre, hpost⟩ := F.around (keyed_clean tr.two_le key) ho
  have hsplit : T.keys = (T.pre (cleanView α tr.t tr.two_le) m).map Prod.fst ++
      ((T.kid m).keys ++ (T.post (cleanView α tr.t tr.two_le) m).map Prod.fst) := by
    rw [Sub.keys, ← flat_clean tr.two_le, T.flat_focus _ hm, List.map_append, List.map_append,
      flat_clean]
    rfl
  have hall : ((T.pre (cleanView α tr.t tr.two_le) m).map Prod.fst).filter
      (fun e => key e ≤ key k) = (T.pre (cleanView α tr.t tr.two_le) m).map Prod.fst := by
    rw [List.filter_eq_self]
    intro e he
    obtain ⟨b, hb, rfl⟩ := List.mem_map.mp he
    exact decide_eq_true (hpre b hb)
  have hnone : ((T.post (cleanView α tr.t tr.two_le) m).map Prod.fst).filter
      (fun e => key e ≤ key k) = [] := by
    rw [List.filter_eq_nil_iff]
    intro e he
    obtain ⟨b, hb, rfl⟩ := List.mem_map.mp he
    rw [decide_eq_true_eq]
    exact not_le.mpr (hpost b hb)
  rw [Sub.position, hsplit, List.filter_append, List.filter_append, hall, hnone, List.append_nil,
    List.length_append, List.length_map]
  rfl

/-- Behind the key that is looked for all keys are larger. -/
theorem position_hit {d : Nat} {T : Sub α (d + 1)} {i r : Int} {m : Nat} (hm : m ≤ T.size)
    (hstrict : T.keys.Pairwise fun a b => key a < key b) (F : Found key T.top k i r m)
    (hr : r = 0) : (T.kid m).position key k = 0 := by
  obtain ⟨h0, hkey⟩ := F.hit.mp hr
  rw [Sub.position, List.length_eq_zero_iff, List.filter_eq_nil_iff]
  intro e he
  have hcells : T.cells.Pairwise fun a b => key a.1 < key b.1 := (pairwise_cells (· < ·) T).mpr hstrict
  rw [← flat_clean Trans.one.two_le, T.flat_focus _ hm] at hcells
  obtain ⟨c, hc, rfl⟩ := List.mem_map.mp he
  have hlt := (List.pairwise_append.mp hcells).2.2 _
    (T.entry_mem_pre (V := cleanView α Trans.one.t Trans.one.two_le) (show m - 1 < m by omega)) c
    (List.mem_append_left _ (by rw [flat_clean]; exact hc))
  rw [decide_eq_true_eq, not_le, ← hkey]
  exact hlt

variable [RowStream α]

/-- One round, with the position on or off: either the key is found, and what has been added is its
position, or the descent goes on with the kid behind the slot found, if there is one. -/
theorem findnodekeyPosLoop_step {d : Nat} {T : Sub α (d + 1)} {f p : Nat} {i : Int} {w : Dwm α}
    {n : Int} (q : Nat)
    (S : Setting (cleanView α tr.t tr.two_le) key (fun b => key b.1) s)
    (g : Good (cleanView α tr.t tr.two_le) s.heap T)
    (hstrict : T.keys.Pairwise fun a b => key a < key b) :
    (∃ dwm', findnodekeyLoop k q (f + 1) T.addr p i w s = some (dwm', s) ∧
        findnodekeyPosLoop k q (f + 1) T.addr p i w n s =
          some ((dwm', n + T.position key k), s)) ∨
      ∃ m ≤ T.size, ∃ dwm' add, add + (T.kid m).position key k = (T.position key k : Int) ∧
        findnodekeyLoop k q (f + 1) T.addr p i w s =
          (if T.top.leaf then pure { dwm' with k := none }
          else do
            let c ← getNode T.addr m
            findnodekeyLoop k q f c T.addr m dwm' : BtM α _) s ∧
        findnodekeyPosLoop k q (f + 1) T.addr p i w n s =
          (if T.top.leaf then pure ({ dwm' with k := none }, n + add)
          else do
            let c ← getNode T.addr m
            findnodekeyPosLoop k q f c T.addr m dwm' (n + add) : BtM α _) s := by
  have ho : Ordered (fun b : α × Nat => key b.1) (T.flat (cleanView α tr.t tr.two_le)) := by
    rw [flat_clean]
    exact (pairwise_cells (· ≤ ·) T).mpr (hstrict.imp le_of_lt)
  obtain ⟨m, hm, F⟩ := g.found S.cmp S.log S.t S.keyed ho k
  have hpos := position_node hm ho F
  have hhit := position_hit hm hstrict F
  obtain ⟨x, nd, kid, rfl⟩ := exists_node T
  have hslot : (findkindex s nd k).1 = (m : Int) - 1 := F.slot
  have hadd := addToCipos_run g hm
  by_cases hr : (findkindex s nd k).2 = 0
  · refine .inl ?_
    have h0 : 0 < m := (F.hit.mp hr).1
    have hc : 0 ≤ (m : Int) - 1 ∧ (findkindex s nd k).2 = 0 := ⟨by omega, hr⟩
    rw [hpos, hhit hr]
    simp only [findnodekeyLoop, findnodekeyPosLoop, Sub.addr_node, run_bind (run_get s),
      run_bind (getN_run g.node.live), hslot, run_bind hadd, if_pos hc,
      run_bind (KEYS_run g.node.live _), add_zero]
    exact ⟨_, rfl, rfl⟩
  · refine .inr ⟨m, hm, if keyCoversMiss s nd ((m : Int) - 1) q
      then { k := w.k, miss := true, x := x, i := (m : Int) - 1, p := p, pi := i } else w, _,
      by rw [hpos]; push_cast; rfl, ?_⟩
    have hc : ¬ (0 ≤ (m : Int) - 1 ∧ (findkindex s nd k).2 = 0) := fun h => hr h.2
    simp only [findnodekeyLoop, findnodekeyPosLoop, Sub.addr_node, Sub.top_node,
      run_bind (run_get s), run_bind (getN_run g.node.live), hslot, run_bind hadd, if_neg hc,
      sub_add_cancel, Int.toNat_natCast]
    exact ⟨rfl, rfl⟩

/-- The descent adds up the keys that are at most `k`, and finds what it finds without adding. -/
theorem findnodekeyPosLoop_run (q : Nat)
    (S : Setting (cleanView α tr.t tr.two_le) key (fun b => key b.1) s) :
    ∀ {d : Nat} {T : Sub α (d + 1)} {fuel p : Nat} {i : Int} {w : Dwm α} {n : Int}, d < fuel →
      Good (cleanView α tr.t tr.two_le) s.heap T →
      T.keys.Pairwise (fun a b => key a < key b) →
      ∃ dwm', findnodekeyLoop k q fuel T.addr p i w s = some (dwm', s) ∧
        findnodekeyPosLoop k q fuel T.addr p i w n s =
          some ((dwm', n + T.position key k), s) := by
  intro d
  induction d with
  | zero =>
      intro T fuel p i w n hf g hstrict
      obtain ⟨f, rfl⟩ : ∃ f, fuel = f + 1 := ⟨fuel - 1, by omega⟩
      rcases findnodekeyPosLoop_step (f := f) (p := p) (i := i) (w := w) (n := n) q S g
        hstrict with h | ⟨m, hm, dwm', add, hadd, hplain, hrun⟩
      · exact h
      · obtain ⟨x, nd, kid, rfl⟩ := exists_node T
        rw [position_nil, Nat.cast_zero, add_zero] at hadd
        rw [Sub.top_node, if_pos (g.node.leaf.mpr rfl)] at hplain hrun
        rw [hadd] at hrun
        exact ⟨_, hplain, hrun⟩
  | succ d ih =>
      intro T fuel p i w n hf g hstrict
      obtain ⟨f, rfl⟩ : ∃ f, fuel = f + 1 := ⟨fuel - 1, by omega⟩
      rcases findnodekeyPosLoop_step (f := f) (p := p) (i := i) (w := w) (n := n) q S g
        hstrict with h | ⟨m, hm, dwm', add, hadd, hplain, hrun⟩
      · exact h
      · obtain ⟨x, nd, kid, rfl⟩ := exists_node T
        have hcells : (kid m).cells.Pairwise fun a b => key a.1 < key b.1 := by
          have h := (pairwise_cells (· < ·) (Sub.node x nd kid)).mpr hstrict
          rw [← flat_clean tr.two_le, Sub.flat_focus _ _ hm, flat_clean] at h
          exact (List.pairwise_append.mp (List.pairwise_append.mp h).2.1).1
        obtain ⟨dwm'', hplain', hrun'⟩ := ih (T := kid m) (p := x) (i := m) (w := dwm')
          (n := n + add) (show d < f by omega) (g.kids m hm)
          ((pairwise_cells (· < ·) (kid m)).mp hcells)
        rw [Sub.kid_node] at hadd
        rw [Sub.top_node, if_neg (by simp [g.inner]), Sub.addr_node,
          run_bind (getNode_run g.node.live g.inner m), g.node.link (by omega) m hm] at hplain hrun
        rw [hplain'] at hplain
        rw [hrun', add_assoc, hadd] at hrun
        exact ⟨dwm'', hplain, hrun⟩

/-- `findnodekey` from the root leaves the position of the key. -/
theorem findnodekeyPos_run {T : Sub α (d + 1)} (q : Nat) (C : CleanAt key tr s T)
    (hstrict : T.keys.Pairwise fun a b => key a < key b) :
    ∃ dwm, findnodekey k q s = some (dwm, s) ∧
      findnodekeyPos k q s = some ((dwm, (T.position key k : Int)), s) := by
  obtain ⟨dwm, hplain, hrun⟩ := findnodekeyPosLoop_run (k := k) q C.setting (p := s.root) (i := 0)
    (w := { k := none, miss := false, x := s.root, i := 0, p := s.root, pi := 0 }) (n := 0)
    C.whole.depth C.whole.good hstrict
  rw [← C.whole.root] at hplain hrun
  rw [zero_add] at hrun
  refine ⟨dwm, ?_, ?_⟩
  · rw [findnodekey, run_bind (run_get s)]
    exact hplain
  · rw [findnodekeyPos, run_bind (run_get s)]
    exact hrun

end Count

/-! ## The trees that are reached -/

section Reached

variable [LinearOrder κ] {key : α → κ} [Inhabited α] [RowStream α]

/-- In a tree that reads no entry through a slot that has changed, the keys stay in order and are
counted. -/
theorem reached_map {cmp : α → α → Int} (hc : CmpOk cmp key) {tr : Trans} {sp : Bts} {dirty : Bool}
    (hsane : sp.sane) (hloose : ¬ sp.loose) {s : Bt α} (h : Reached key (btCreate cmp tr sp dirty) s) :
    ∃ (d : Nat) (T : Sub α (d + 1)) (m : κ → Option α), MapAt key tr sp s T m ∧ Numbered s T := by
  induction h with
  | start =>
      exact ⟨0, _, fun _ => none, ⟨btCreate_clean hc tr sp dirty, rfl, List.Pairwise.nil,
        fun kk e => iff_of_false (by simp) fun h => absurd h.1 List.not_mem_nil⟩, rfl, rfl⟩
  | insert _ hl habs hrun ih =>
      rename_i s s' k l _
      obtain ⟨d, T, m, M, N⟩ := ih
      rw [M.clean.whole.inorder, Option.some_inj] at hl
      subst hl
      have hnone : m (key k) = none := by
        rw [Option.eq_none_iff_forall_not_mem]
        intro e he
        obtain ⟨hmem, hk⟩ := (M.reads _ _).mp he
        obtain ⟨c, hc', rfl⟩ := List.mem_map.mp hmem
        exact habs c hc' hk
      obtain ⟨s₁, d', T', hrun', M'⟩ := M.insert hnone
      rw [hrun, Option.some_inj] at hrun'
      cases hrun'
      have hop : (Op.insert k).run s = some (none, s') := by
        rw [Op.run, run_bind hrun]
        rfl
      have hone : (Op.insert k).Allowed key m := hnone
      exact ⟨d', T', _, M', M.numbered M' N hone (fun _ h => by cases h) hop⟩
  | delete _ hl hmem hrun ih =>
      rename_i s s' k l dwd _
      obtain ⟨d, T, m, M, N⟩ := ih
      rw [M.clean.whole.inorder, Option.some_inj] at hl
      subst hl
      obtain ⟨c, hc', hk⟩ := hmem
      have hsome : m (key k) ≠ none := by
        rw [(M.reads (key k) c.1).mpr ⟨List.mem_map_of_mem hc', hk⟩]
        exact Option.some_ne_none _
      obtain ⟨dwd', s₁, d', T', hrun', -, M'⟩ := M.erase hsome hsane fun hs => hloose (M.spec ▸ hs.1)
      rw [hrun, Option.some_inj] at hrun'
      cases hrun'
      have hop : (Op.delete k).run s = some (s'.deref dwd.k, s') := by
        rw [Op.run, run_bind hrun]
        rfl
      have hone : (Op.delete k).Allowed key m := hsome
      exact ⟨d', T', _, M', M.numbered M' N hone (fun _ _ => hsane) hop⟩

/-- Insertions of different keys that are absent reach a tree. -/
theorem Reached.inserts {cmp : α → α → Int} (hc : CmpOk cmp key) {tr : Trans} {sp : Bts}
    {dirty : Bool} (hsane : sp.sane) (hloose : ¬ sp.loose) :
    ∀ {l : List α} {s s' : Bt α}, Reached key (btCreate cmp tr sp dirty) s →
      (∀ cells, s.inorder = some cells → ∀ c ∈ cells, ∀ e ∈ l, key c.1 ≠ key e) →
      (l.map key).Nodup → play (l.map .insert) s = some s' →
      Reached key (btCreate cmp tr sp dirty) s'
  | [], s, s', h, _, _, hp => Option.some_inj.mp hp ▸ h
  | e :: l, s, s', h, habs, hd, hp => by
      obtain ⟨d, T, m, M, -⟩ := reached_map hc hsane hloose h
      have hin := M.clean.whole.inorder
      have hnone : m (key e) = none := by
        rw [Option.eq_none_iff_forall_not_mem]
        intro x hx
        obtain ⟨hmem, hk⟩ := (M.reads _ _).mp hx
        obtain ⟨c, hc', rfl⟩ := List.mem_map.mp hmem
        exact habs _ hin c hc' e List.mem_cons_self hk
      obtain ⟨s₁, d', T', hrun, M'⟩ := M.insert hnone
      rw [List.map_cons, play, Op.run, run_bind hrun] at hp
      obtain ⟨hne, hd⟩ := List.nodup_cons.mp hd
      refine (h.insert hin (fun c hc' => habs _ hin c hc' e List.mem_cons_self) hrun).inserts hc
        hsane hloose (fun cells hcells c hc' x hx hk => ?_) hd hp
      rw [M'.clean.whole.inorder, Option.some_inj] at hcells
      subst hcells
      have hread := (M'.reads (key c.1) c.1).mpr ⟨List.mem_map_of_mem hc', rfl⟩
      by_cases hce : key c.1 = key e
      · exact hne (hce ▸ hk ▸ List.mem_map_of_mem hx)
      · rw [Function.update_of_ne hce] at hread
        obtain ⟨hmem, -⟩ := (M.reads _ _).mp hread
        obtain ⟨c₀, hc₀, he⟩ := List.mem_map.mp hmem
        exact habs _ hin c₀ hc₀ x (List.mem_cons_of_mem _ hx) (he ▸ hk)

end Reached

end AlchemyDB
