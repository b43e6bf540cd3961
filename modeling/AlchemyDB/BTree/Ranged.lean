/-
# `AlchemyDB.BTree.Ranged` — the trees that are iterated over

A tree that is made by inserting, deleting and replacing keys is one that the iterators
read: its keys increase and are counted, no row has been evicted in front of the first,
and as the counter of keys has 32 bits no path is longer than the stack of an iterator.
What a scan gives is one list.
-/
import AlchemyDB.BTree.Runs
import AlchemyDB.BTree.Jump

namespace AlchemyDB

open Store Weave

variable {α β κ : Type}

/-! ## What a scan gives -/

section Delivers

variable [RowStream α] {K : RangeKeys α κ} {b : Bt α} {asc : Bool}

theorem Yields.unique : ∀ {l l' : List α} {si : BtSIter α κ}, Yields K b asc si l →
    Yields K b asc si l' → l = l'
  | [], [], _, _, _ => rfl
  | [], e :: l, si, ⟨s₁, h₁, _⟩, ⟨s₂, h₂, _⟩ => by
      rw [h₁] at h₂
      cases h₂
  | e :: l, [], si, ⟨s₁, h₁, _⟩, ⟨s₂, h₂, _⟩ => by
      rw [h₁] at h₂
      cases h₂
  | e :: l, e' :: l', si, ⟨s₁, h₁, _, _, hl⟩, ⟨s₂, h₂, _, _, hl'⟩ => by
      rw [h₁] at h₂
      cases h₂
      rw [hl.unique hl']

theorem Delivers.unique {l l' : List α} {g : Got (BtSIter α κ)} (h : Delivers K b asc l g)
    (h' : Delivers K b asc l' g) : l = l' := by
  cases g with
  | null => exact h.trans h'.symm
  | leaked => exact h.trans h'.symm
  | iter s => exact Yields.unique h h'

/-- What a scan gives that was started by `g`. -/
def Scans (K : RangeKeys α κ) (b : Bt α) (asc : Bool) (g : Option (Got (BtSIter α κ))) (l : List α) :
    Prop :=
  ∃ r, g = some r ∧ Delivers K b asc l r

theorem Scans.unique {g : Option (Got (BtSIter α κ))} {l l' : List α} (h : Scans K b asc g l)
    (h' : Scans K b asc g l') : l = l' := by
  obtain ⟨r, rfl, hr⟩ := h
  obtain ⟨r', he, hr'⟩ := h'
  cases he
  exact hr.unique hr'

end Delivers

/-! ## Long paths -/

section Long

variable {V : View α β} {h : Nat → Option (BtN α)}

/-- Every node but the root has `t - 1` keys at least. -/
theorem Good.room : ∀ {d : Nat} {T : Sub α (d + 1)}, Good V h T → V.t - 1 ≤ T.size →
    V.t ^ (d + 1) ≤ T.keys.length + 1
  | 0, .node a nd kid, g, hs => by
      have h2 := V.two_le
      have hn : V.t - 1 ≤ nd.n := hs
      have hle : nd.n ≤ (Sub.node a nd kid).keys.length := by
        rw [Sub.keys_node]
        exact le_length_weave nd.n
      calc V.t ^ (0 + 1) = V.t := Nat.pow_one _
        _ ≤ _ := by omega
  | d + 1, .node a nd kid, g, hs => by
      have h2 := V.two_le
      have hn : V.t - 1 ≤ nd.n := hs
      have hkid (j : Nat) (hj : j ≤ nd.n) : V.t ^ (d + 1) ≤ (kid j).keys.length + 1 :=
        Good.room (g.kids j hj) (g.node.low (by omega) j hj)
      rw [Sub.keys_node]
      calc V.t ^ (d + 1 + 1) = V.t * V.t ^ (d + 1) := Nat.pow_succ'
        _ ≤ (nd.n + 1) * V.t ^ (d + 1) := Nat.mul_le_mul_right _ (by omega)
        _ ≤ _ := mul_le_length_weave hkid

/-- A tree whose root has a key. -/
theorem Good.root_room : ∀ {d : Nat} {T : Sub α (d + 1)}, Good V h T → 0 < T.size →
    2 * V.t ^ d ≤ T.keys.length + 1
  | 0, .node a nd kid, g, hs => by
      have hn : 0 < nd.n := hs
      have hle : nd.n ≤ (Sub.node a nd kid).keys.length := by
        rw [Sub.keys_node]
        exact le_length_weave nd.n
      rw [Nat.pow_zero]
      omega
  | d + 1, .node a nd kid, g, hs => by
      have hn : 0 < nd.n := hs
      have hkid (j : Nat) (hj : j ≤ nd.n) : V.t ^ (d + 1) ≤ (kid j).keys.length + 1 :=
        Good.room (g.kids j hj) (g.node.low (by omega) j hj)
      rw [Sub.keys_node]
      calc 2 * V.t ^ (d + 1) ≤ (nd.n + 1) * V.t ^ (d + 1) := Nat.mul_le_mul_right _ (by omega)
        _ ≤ _ := mul_le_length_weave hkid

end Long

/-! ## Runs -/

section Runs

variable [LinearOrder κ] {key : α → κ} {tr : Trans} {sp : Bts} {s s' : Bt α} {d d' : Nat}
  {T : Sub α (d + 1)} {T' : Sub α (d' + 1)} {m m' : κ → Option α}

/-- The keys are counted, and nothing has been evicted in front of them. -/
structure Numbered (s : Bt α) {d : Nat} (T : Sub α (d + 1)) : Prop where
  num : s.numkeys = T.keys.length
  left : s.dirtyLeft = 0

section Step

variable [Inhabited α] [RowStream α] {op : Op α} {r : Option α}

omit [Inhabited α] [RowStream α] in
/-- A delete is only safe where a slot is not taken for a pointer. -/
theorem Op.Safe.sane {k : α} (h : (Op.delete k).Safe key sp s m) : sp.sane := by
  rcases h with ⟨-, hb⟩ | ⟨hn, -⟩
  · exact fun _ => hb
  · exact fun h => by rw [hn] at h; cases h

/-- A step keeps the count. -/
theorem MapAt.numbered (M : MapAt key tr sp s T m) (M' : MapAt key tr sp s' T' m') (N : Numbered s T)
    (ha : op.Allowed key m) (hsane : ∀ k, op = .delete k → sp.sane) (hrun : op.run s = some (r, s')) :
    Numbered s' T' := by
  have C := M.clean
  have hcells : s'.inorder = some T'.cells := M'.clean.whole.inorder
  have hnum : s.numkeys = T.cells.length := by rw [N.num, Sub.keys, List.length_map]
  have hkeys : T'.keys.length = T'.cells.length := by rw [Sub.keys, List.length_map]
  cases op with
  | insert k =>
      have habs : ∀ b ∈ T.flat (cleanView α tr.t tr.two_le), key b.1 ≠ key k := by
        rw [flat_clean]
        exact fun b hb => M.absent ha _ (List.mem_map_of_mem hb)
      obtain ⟨s₁, d₁, T₁, hins, W, ⟨l, r, h1, h2, -, -⟩, -, hn, hg⟩ := btInsert_run C.whole C.setting
        C.ordered habs trivial (splitSafe_of_still (cleanView_still _) C.setting C.whole.good C.ordered)
      have hs : s₁ = s' := by
        rw [Op.run, run_bind hins] at hrun
        cases hrun
        rfl
      subst hs
      rw [flat_clean] at h1 h2
      have hc : T₁.cells = T'.cells := Option.some.inj (W.inorder.symm.trans hcells)
      refine ⟨?_, (congrArg Prod.fst hg).trans N.left⟩
      rw [hn, hnum, hkeys, ← hc, h1, h2]
      simp only [List.length_append, List.length_cons]
      omega
  | delete k =>
      obtain ⟨dwd, s₁, d₁, T₁, hdel, D, -⟩ := C.deleted (M.spec ▸ hsane k rfl) (M.present ha)
      have hs : s₁ = s' := by
        rw [Op.run, run_bind hdel] at hrun
        cases hrun
        rfl
      subst hs
      have hc : T₁.cells = T'.cells := Option.some.inj (D.whole.inorder.symm.trans hcells)
      have hw := D.weight trivial
      rw [D.whole.weight_clean, C.whole.weight_clean] at hw
      have h1 : T.keys.length = T.cells.length := by rw [Sub.keys, List.length_map]
      have h2 : T₁.keys.length = T₁.cells.length := by rw [Sub.keys, List.length_map]
      refine ⟨?_, D.left.trans N.left⟩
      rw [D.num, hkeys, ← hc]
      omega
  | replace k v =>
      have hmem : ∃ b ∈ T.flat (cleanView α tr.t tr.two_le), key b.1 = key k := by
        rw [flat_clean]
        obtain ⟨e, he, hk⟩ := M.present ha.1
        obtain ⟨c, hc, rfl⟩ := List.mem_map.1 he
        exact ⟨c, hc, hk⟩
      obtain ⟨kp, s₁, T₁, hrep, W, ⟨l, r, e, w, h1, h2, -, -⟩, -, hn, hg⟩ :=
        btReplace_run C.whole C.setting C.ordered hmem (fun _ _ _ => trivial)
      have hs : s₁ = s' := by
        rw [Op.run, run_bind hrep] at hrun
        cases hrun
        rfl
      subst hs
      rw [flat_clean] at h1 h2
      have hc : T₁.cells = T'.cells := Option.some.inj (W.inorder.symm.trans hcells)
      refine ⟨?_, (congrArg Prod.fst hg).trans N.left⟩
      rw [hn, hnum, hkeys, ← hc, h1, h2]
      simp only [List.length_append, List.length_cons]

/-- The states of the runs whose steps are allowed and safe. -/
inductive RunsTo (key : α → κ) (sp : Bts) (s₀ : Bt α) : Bt α → (κ → Option α) → Prop
  | refl : RunsTo key sp s₀ s₀ fun _ => none
  | step {s s' : Bt α} {m : κ → Option α} {op : Op α} {r : Option α} (before : RunsTo key sp s₀ s m)
      (allowed : op.Allowed key m) (safe : op.Safe key sp s m) (run : op.run s = some (r, s')) :
      RunsTo key sp s₀ s' (op.apply key m)

theorem RunsTo.played {s₀ : Bt α} : ∀ {ops : List (Op α)} {s s' : Bt α} {m : κ → Option α},
    RunsTo key sp s₀ s m → AllAllowed key ops m → SafeRun key sp ops s m → play ops s = some s' →
    RunsTo key sp s₀ s' (applyAll key ops m)
  | [], s, s', m, h, _, _, hp => by
      cases hp
      exact h
  | op :: ops, s, s', m, h, ha, hs, hp => by
      obtain ⟨⟨r, s₁⟩, hrun, hp⟩ := Option.bind_eq_some_iff.1 hp
      exact (RunsTo.step h ha.1 hs.1 hrun).played ha.2 (hs.2 r s₁ hrun) hp

/-- What is held after a run from the empty map. -/
def held (key : α → κ) (ops : List (Op α)) : κ → Option α := applyAll key ops fun _ => none

omit [Inhabited α] [RowStream α] in
theorem allowed_inserts : ∀ {l : List α} {m : κ → Option α}, (l.map key).Nodup →
    (∀ e ∈ l, m (key e) = none) → AllAllowed key (l.map .insert) m ∧
      ∀ k e, applyAll key (l.map .insert) m k = some e ↔ e ∈ l ∧ key e = k ∨ m k = some e
  | [], m, _, _ => ⟨trivial, fun k e => by simp [applyAll]⟩
  | a :: l, m, hd, hm => by
      rw [List.map_cons, List.nodup_cons] at hd
      obtain ⟨hma, hml⟩ := List.forall_mem_cons.1 hm
      have hne : ∀ e ∈ l, key e ≠ key a := fun e he h => hd.1 (h ▸ List.mem_map_of_mem he)
      obtain ⟨hall, hall'⟩ := allowed_inserts (m := Function.update m (key a) (some a)) hd.2
        fun e he => (Function.update_of_ne (hne e he) _ _).trans (hml e he)
      refine ⟨⟨hma, hall⟩, fun k e => ?_⟩
      rw [List.map_cons, applyAll, Op.apply, hall']
      by_cases hk : k = key a
      · subst hk
        simp only [Function.update_self, Option.some_inj, List.mem_cons, hma, reduceCtorEq, or_false]
        constructor
        · rintro (⟨he, hk⟩ | rfl)
          · exact ⟨.inr he, hk⟩
          · exact ⟨.inl rfl, rfl⟩
        · rintro ⟨rfl | he, hk⟩
          · exact .inr rfl
          · exact absurd hk (hne e he)
      · rw [Function.update_of_ne hk, List.mem_cons]
        constructor
        · rintro (⟨he, hk⟩ | h)
          · exact .inl ⟨.inr he, hk⟩
          · exact .inr h
        · rintro (⟨rfl | he, hk'⟩ | h)
          · exact absurd hk'.symm hk
          · exact .inl ⟨he, hk'⟩
          · exact .inr h

omit [Inhabited α] [RowStream α] in
theorem held_inserts {l : List α} (hd : (l.map key).Nodup) (k : κ) (e : α) :
    held key (l.map .insert) k = some e ↔ e ∈ l ∧ key e = k := by
  rw [held, (allowed_inserts hd fun _ _ => rfl).2]
  simp

/-- A tree that insertions make, whose slots hold the entries themselves. -/
theorem runsTo_inserts {cmp : α → α → Int} {l : List α} {dirty : Bool} {n : Int}
    (hw : sp.narrow = true) (hb : sp.bigBt = false) (hd : (l.map key).Nodup)
    (hn : (play (l.map .insert) (btCreate cmp tr sp dirty)).map Bt.numkeys = some n) :
    ∃ b, play (l.map .insert) (btCreate cmp tr sp dirty) = some b ∧
      RunsTo key sp (btCreate cmp tr sp dirty) b (held key (l.map .insert)) ∧ b.numkeys = n := by
  obtain ⟨b, hp, hn⟩ := Option.map_eq_some_iff.1 hn
  exact ⟨b, hp, RunsTo.refl.played (allowed_inserts hd fun _ _ => rfl).1
    (safeRun_narrow key hw hb _ _ _) hp, hn⟩

theorem RunsTo.mapAt {cmp : α → α → Int} (hc : CmpOk cmp key) {dirty : Bool}
    (h : RunsTo key sp (btCreate cmp tr sp dirty) s m) :
    ∃ d, ∃ T : Sub α (d + 1), MapAt key tr sp s T m ∧ Numbered s T := by
  induction h with
  | refl =>
      exact ⟨0, emptyTree dirty, ⟨btCreate_clean hc tr sp dirty, rfl, List.Pairwise.nil,
        fun kk e => iff_of_false (by simp) fun h => absurd h.1 List.not_mem_nil⟩, rfl, rfl⟩
  | step _ ha hsafe hrun ih =>
      obtain ⟨d, T, M, N⟩ := ih
      obtain ⟨r', s₁, d₁, T₁, hrun', -, M₁⟩ := M.step ha hsafe
      rw [hrun] at hrun'
      cases hrun'
      exact ⟨d₁, T₁, M₁, M.numbered M₁ N ha (fun k hk => by
        subst hk
        exact hsafe.sane) hrun⟩

theorem RunsTo.key_eq {cmp : α → α → Int} (hc : CmpOk cmp key) {dirty : Bool}
    (h : RunsTo key sp (btCreate cmp tr sp dirty) s m) {k : κ} {e : α} (hk : m k = some e) :
    key e = k := by
  obtain ⟨d, T, M, -⟩ := h.mapAt hc
  exact ((M.reads k e).1 hk).2

omit [Inhabited α] in
/-- As the counter of keys has 32 bits, no path is longer than the stack of an iterator. -/
theorem MapAt.searched {K : RangeKeys α κ} (M : MapAt K.key tr sp s T m) (N : Numbered s T)
    (hs : ∀ kk e, m kk = some e → Sound K e) (h32 : s.numkeys < 4294967296) :
    Searched K tr s T := by
  have hdepth : d < maxBtreeDepth := by
    rcases Nat.eq_zero_or_pos d with rfl | hd
    · decide
    · have hroom := M.clean.whole.good.root_room (M.clean.whole.inner (by omega))
      have h4 : 4 ≤ (cleanView α tr.t tr.two_le).t := by
        show 4 ≤ tr.t
        cases tr <;> decide
      have hpow : 4 ^ d ≤ (cleanView α tr.t tr.two_le).t ^ d := Nat.pow_le_pow_left h4 d
      rw [N.num] at h32
      by_contra hge
      have h16 : 4 ^ 16 ≤ 4 ^ d := Nat.pow_le_pow_right (by decide) (by simpa [maxBtreeDepth] using hge)
      omega
  exact ⟨M.clean, M.strict, N.num, fun e he => hs _ e ((M.reads _ e).2 ⟨he, rfl⟩), N.left, hdepth⟩

/-- A tree that was made so is one that the iterators read. -/
theorem RunsTo.searched {cmp : α → α → Int} {K : RangeKeys α κ} (hc : CmpOk cmp K.key) {dirty : Bool}
    (h : RunsTo K.key sp (btCreate cmp tr sp dirty) s m) (hs : ∀ kk e, m kk = some e → Sound K e)
    (h32 : s.numkeys < 4294967296) : ∃ D, ∃ T : Sub α (D + 1), Searched K tr s T ∧
      ∀ e, e ∈ T.keys ↔ m (K.key e) = some e := by
  obtain ⟨D, T, M, N⟩ := h.mapAt hc
  refine ⟨D, T, M.searched N hs h32, fun e => ?_⟩
  rw [M.reads]
  simp

end Step

end Runs

end AlchemyDB
