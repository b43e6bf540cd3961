/-
# `AlchemyDB.BTree.Clean` — runs on a clean tree

A tree is clean as long as no row has been evicted: no node has a dirty stream, and
every DR is 0.  From `bt_create` on, insertions of absent keys, deletes of present
keys and replacements keep it so, and keep it a B-tree whose scions are the numbers
of keys.  What a delete does with the entry depends on the width of the key slots:
where `KEYS` returns a pointer into the node, the entry that is handed back, or
moved, may be another one by the time it is read.
-/
import AlchemyDB.BTree.Still
import AlchemyDB.BTree.Reading

namespace AlchemyDB

open Store Weave

variable {α κ : Type}

/-! ## The clean view -/

namespace BtN

theorem dr_clean {nd : BtN α} (h : nd.dirty ≤ 0) (i : Nat) : nd.dr i = 0 := by
  simp [dr, h]

theorem zDR_clean {nd : BtN α} (h : nd.dirty ≤ 0) (t i : Nat) : nd.zDR t i = nd := by
  simp [zDR, h]

theorem stDR_zero (nd : BtN α) (t i : Nat) : nd.stDR t i 0 = nd := by
  simp [stDR]

end BtN

/-- Entries with their DRs, in a tree without dirty streams. -/
def cleanView (α : Type) (t : Nat) (h : 2 ≤ t) : View α (α × Nat) where
  t := t
  two_le := h
  P nd := nd.dirty ≤ 0
  fits v := v = 0
  see := Prod.mk
  ok _ := True
  counts := True
  wt b := 1 + b.2
  wt_see _ _ _ := rfl
  shape hd _ _ hP := by rw [hd]; exact hP
  blank hP hd _ _ := by rw [hd]; exact hP
  zero i hP := by rw [BtN.zDR_clean hP]; exact hP
  set i v hP hv := by
    subst hv
    rw [BtN.stDR_zero]
    exact hP
  fits_dr i hP := BtN.dr_clean hP i
  zero_dr i j hP := by
    rw [BtN.zDR_clean hP, BtN.dr_clean hP]
    split <;> rfl
  set_dr i v _ hv h0 := absurd hv h0
  see_set_ne k i j v _ hv _ _ := by
    subst hv
    rw [BtN.stDR_zero]

theorem cleanView_still {t : Nat} (h : 2 ≤ t) : (cleanView α t h).Still :=
  fun hP j => BtN.dr_clean hP j

theorem keyed_clean {t : Nat} (h : 2 ≤ t) (key : α → κ) :
    Keyed (cleanView α t h) key (fun b => key b.1) := ⟨fun _ _ => rfl⟩

/-- The keys of a tree under the clean view. -/
theorem flat_clean {t : Nat} (h : 2 ≤ t) {d : Nat} (T : Sub α d) : T.flat (cleanView α t h) = T.cells := by
  rw [Sub.flat_cells]
  exact List.map_id _

/-! ## A new tree -/

/-- The number `t` of a new tree. -/
def Trans.t : Trans → Nat
  | .one => 4
  | .two => 128

theorem Trans.two_le : ∀ tr : Trans, 2 ≤ tr.t
  | .one => by decide
  | .two => by decide

section Create

variable [Inhabited α] (cmp : α → α → Int) (tr : Trans) (sp : Bts) (dirty : Bool)

theorem btCreate_t : (btCreate cmp tr sp dirty).t = tr.t := by
  cases tr <;> rfl

/-- `_log2` is right on all the numbers a search needs. -/
theorem btCreate_log : LogOk (btCreate cmp tr sp dirty).t (btCreate cmp tr sp dirty).nbits := by
  cases tr with
  | one =>
      have hall : ∀ a : Fin 7, 0 < a.val → log2 a.val 4 = Nat.log2 a.val := by decide
      exact fun a h0 h => hall ⟨a, h⟩ h0
  | two =>
      have hall : ∀ a : Fin 255, 0 < a.val → log2 a.val 16 = Nat.log2 a.val := by decide +kernel
      exact fun a h0 h => hall ⟨a, h⟩ h0

end Create

variable [LinearOrder κ] {key : α → κ}

/-- The root of a new tree: a leaf without keys. -/
def emptyTree [Inhabited α] (dirty : Bool) : Sub α 1 :=
  .node 1
    { scion := 0, n := 0, leaf := true, dirty := if dirty then 0 else -1, ndirty := 0,
      keys := fun _ => default, nodes := fun _ => 0, ds := fun _ => 0 }
    (fun _ => .nil)

theorem btCreate_whole [Inhabited α] (cmp : α → α → Int) (tr : Trans) (sp : Bts) (dirty : Bool) :
    Whole (cleanView α tr.t tr.two_le) (btCreate cmp tr sp dirty) (emptyTree dirty) where
  good := by
    refine ⟨⟨rfl, by simp, fun h => absurd rfl h, Nat.zero_le _, fun h => absurd rfl h, ?_,
      fun j hj => absurd hj (Nat.not_lt_zero j), fun _ => rfl, fun j _ h => absurd h (by simp [Sub.addrs]),
      fun i _ j _ _ b hb => absurd hb (by simp [Sub.addrs])⟩, fun j _ => trivial⟩
    show (if dirty then (0 : Int) else -1) ≤ 0
    cases dirty <;> decide
  root := rfl
  bound b hb := by
    by_contra hge
    have h1 : b ≠ 1 := by
      simp only [btCreate] at hge
      omega
    refine hb ?_
    show upd (fun _ => none) 1 _ b = none
    exact upd_ne _ _ h1
  kept b hb := by
    by_contra hne
    have h1 : b ≠ 1 := fun e => hne (Or.inl e)
    refine hb ?_
    show upd (fun _ => none) 1 _ b = none
    exact upd_ne _ _ h1
  inner h := absurd rfl h

/-! ## A state that is reached -/

/-- The tree in memory is a clean B-tree in which keys do not decrease. -/
structure CleanAt (key : α → κ) (tr : Trans) (s : Bt α) {d : Nat} (T : Sub α (d + 1)) : Prop where
  whole : Whole (cleanView α tr.t tr.two_le) s T
  cmp : CmpOk s.cmp key
  log : LogOk s.t s.nbits
  t : s.t = tr.t
  order : T.keys.Pairwise (fun a b => key a ≤ key b)

section State

variable {tr : Trans} {s s' : Bt α} {d d' : Nat} {T : Sub α (d + 1)} {T' : Sub α (d' + 1)}

theorem CleanAt.setting (C : CleanAt key tr s T) :
    Setting (cleanView α tr.t tr.two_le) key (fun b => key b.1) s :=
  ⟨C.cmp, C.log, C.t, keyed_clean _ key⟩

omit [LinearOrder κ] in
theorem pairwise_cells (R : κ → κ → Prop) {d : Nat} (T : Sub α d) :
    T.cells.Pairwise (fun a b => R (key a.1) (key b.1)) ↔
      T.keys.Pairwise (fun a b => R (key a) (key b)) := by
  rw [Sub.keys, List.pairwise_map]

theorem CleanAt.ordered (C : CleanAt key tr s T) :
    Ordered (fun b : α × Nat => key b.1) (T.flat (cleanView α tr.t tr.two_le)) := by
  rw [flat_clean]
  exact (pairwise_cells (· ≤ ·) T).2 C.order

/-- In a clean tree every DR is 0. -/
theorem cells_clean {h : Nat → Option (BtN α)} {t : Nat} (h2 : 2 ≤ t) : ∀ {d : Nat} {T : Sub α d},
    Good (cleanView α t h2) h T → ∀ c ∈ T.cells, c.2 = 0
  | _, .nil, _, c, hc => absurd hc List.not_mem_nil
  | _, .node a nd kid, g, c, hc => by
      rw [Sub.cells, mem_weave] at hc
      rcases hc with ⟨j, hj, rfl⟩ | ⟨j, hj, hc⟩
      · exact BtN.dr_clean g.node.disc j
      · exact cells_clean h2 (g.kids j hj) c hc

/-- The weight of a clean tree is the number of its keys. -/
theorem Whole.weight_clean {t : Nat} {h2 : 2 ≤ t} (W : Whole (cleanView α t h2) s T) :
    T.weight (cleanView α t h2) = T.keys.length := by
  have h : T.cells.map (cleanView α t h2).wt = T.cells.map fun _ => (1 : Int) :=
    List.map_congr_left fun c hc => by
      show (1 : Int) + c.2 = 1
      rw [cells_clean h2 W.good c hc]
      rfl
  rw [Sub.weight, flat_clean, h, Sub.keys, List.length_map]
  simp

/-- The parts of the tree that searches use stay. -/
theorem CleanAt.next (C : CleanAt key tr s T) (W : Whole (cleanView α tr.t tr.two_le) s' T')
    (hk : s'.kit = s.kit) (ho : T'.keys.Pairwise (fun a b => key a ≤ key b)) :
    CleanAt key tr s' T' := by
  have h1 : s'.cmp = s.cmp := congrArg (fun r => r.1) hk
  have h2 : s'.t = s.t := congrArg (fun r => r.2.1) hk
  have h3 : s'.nbits = s.nbits := congrArg (fun r => r.2.2.1) hk
  refine ⟨W, ?_, ?_, h2.trans C.t, ho⟩
  · rw [h1]
    exact C.cmp
  · rw [h2, h3]
    exact C.log

theorem btCreate_clean [Inhabited α] {cmp : α → α → Int} (hc : CmpOk cmp key) (tr : Trans) (sp : Bts)
    (dirty : Bool) : CleanAt key tr (btCreate cmp tr sp dirty) (emptyTree dirty) :=
  ⟨btCreate_whole cmp tr sp dirty, hc, btCreate_log cmp tr sp dirty, btCreate_t cmp tr sp dirty,
    List.Pairwise.nil⟩

/-! ## The steps -/

/-- `bt_insert` of an absent key. -/
theorem CleanAt.insert [Inhabited α] (C : CleanAt key tr s T) {k : α}
    (habs : ∀ e ∈ T.keys, key e ≠ key k) :
    ∃ s' d', ∃ T' : Sub α (d' + 1), btInsert k 0 s = some ((), s') ∧ CleanAt key tr s' T' ∧
      s'.s = s.s ∧ ∃ l r, T.keys = l ++ r ∧ T'.keys = l ++ k :: r ∧
        (∀ a ∈ l, key a < key k) ∧ ∀ b ∈ r, key k < key b := by
  have hsafe : SplitSafe s k T True := splitSafe_of_still (cleanView_still _) C.setting C.whole.good
    C.ordered
  have habs' : ∀ b ∈ T.flat (cleanView α tr.t tr.two_le), key b.1 ≠ key k := by
    rw [flat_clean]
    exact fun b hb => habs _ (List.mem_map_of_mem hb)
  obtain ⟨s', d', T', hrun, W, ⟨l, r, h1, h2, hl, hr⟩, hkit, -, -⟩ :=
    btInsert_run C.whole C.setting C.ordered habs' trivial hsafe
  rw [flat_clean] at h1 h2
  have hk1 : T.keys = l.map Prod.fst ++ r.map Prod.fst := by rw [Sub.keys, h1, List.map_append]
  have hk2 : T'.keys = l.map Prod.fst ++ k :: r.map Prod.fst := by
    rw [Sub.keys, h2, List.map_append]
    rfl
  have hl' : ∀ a ∈ l.map Prod.fst, key a < key k := fun a ha => by
    obtain ⟨c, hc, rfl⟩ := List.mem_map.1 ha
    exact hl c hc
  have hr' : ∀ b ∈ r.map Prod.fst, key k < key b := fun b hb => by
    obtain ⟨c, hc, rfl⟩ := List.mem_map.1 hb
    exact hr c hc
  have ho : T'.keys.Pairwise (fun a b => key a ≤ key b) := by
    have h := C.order
    rw [hk1] at h
    rw [hk2]
    obtain ⟨hll, hrr, hlr⟩ := List.pairwise_append.1 h
    refine List.pairwise_append.2 ⟨hll, List.pairwise_cons.2 ⟨fun b hb => (hr' b hb).le, hrr⟩,
      fun a ha b hb => ?_⟩
    rcases List.mem_cons.1 hb with rfl | hb
    · exact (hl' a ha).le
    · exact hlr a ha b hb
  exact ⟨s', d', T', hrun, C.next W hkit ho, congrArg (fun r => r.2.2.2) hkit, _, _, hk1, hk2, hl', hr'⟩

/-- `bt_replace` of a present key. -/
theorem CleanAt.replace (C : CleanAt key tr s T) {k v : α} (hv : key v = key k)
    (hmem : ∃ e ∈ T.keys, key e = key k) :
    ∃ kp s', ∃ T' : Sub α (d + 1), btReplace k v s = some (some kp, s') ∧ CleanAt key tr s' T' ∧
      s'.s = s.s ∧ ∃ l r e, T.keys = l ++ e :: r ∧ T'.keys = l ++ v :: r ∧ key e = key k ∧
        (s.s.narrow = true → kp = .val e) := by
  have hmem' : ∃ b ∈ T.flat (cleanView α tr.t tr.two_le), key b.1 = key k := by
    rw [flat_clean]
    obtain ⟨e, he, hk⟩ := hmem
    obtain ⟨c, hc, rfl⟩ := List.mem_map.1 he
    exact ⟨c, hc, hk⟩
  obtain ⟨kp, s', T', hrun, W, ⟨l, r, e, w, h1, h2, hk, hkp⟩, hkit, -, -⟩ :=
    btReplace_run C.whole C.setting C.ordered hmem' (fun _ _ _ => trivial)
  rw [flat_clean] at h1 h2
  have hk1 : T.keys = l.map Prod.fst ++ e :: r.map Prod.fst := by
    rw [Sub.keys, h1, List.map_append]
    rfl
  have hk2 : T'.keys = l.map Prod.fst ++ v :: r.map Prod.fst := by
    rw [Sub.keys, h2, List.map_append]
    rfl
  have ho : T'.keys.Pairwise (fun a b => key a ≤ key b) := by
    have h := List.pairwise_map.2 C.order
    rw [hk1] at h
    rw [hk2]
    refine List.pairwise_map.1 ?_
    simpa [hk, hv] using h
  exact ⟨kp, s', T', hrun, C.next W hkit ho, congrArg (fun r => r.2.2.2) hkit, _, _, e, hk1, hk2, hk, hkp⟩

section Delete

variable [RowStream α]

omit [LinearOrder κ] in
theorem ghostOk_clean {t : Nat} (h : 2 ≤ t) (key : α → κ) : GhostOk (cleanView α t h) key :=
  ⟨fun _ _ hv h0 => absurd hv h0, fun _ _ _ => trivial⟩

/-- What `bt_delete` of a present key does in a tree whose slots it does not take for pointers: one
key is gone, or the one behind it has slipped. -/
theorem CleanAt.deleted (C : CleanAt key tr s T) (hs : s.s.sane) {k : α}
    (hmem : ∃ e ∈ T.keys, key e = key k) :
    ∃ dwd s' d', ∃ T' : Sub α (d' + 1), btDelete k s = some (dwd, s') ∧
      Deleted (cleanView α tr.t tr.two_le) key (fun b => key b.1) s s' T T' k dwd ∧
      KeyGone (Slips (cleanView α tr.t tr.two_le) (fun b => key b.1) s k T) (key k)
        (T.keys.map key) (T'.keys.map key) := by
  have hmem' : ∃ b ∈ T.flat (cleanView α tr.t tr.two_le), key b.1 = key k := by
    rw [flat_clean]
    obtain ⟨e, he, hk⟩ := hmem
    obtain ⟨c, hc, rfl⟩ := List.mem_map.1 he
    exact ⟨c, hc, hk⟩
  have W := C.whole
  have S := C.setting
  have hclear : Clear (cleanView α tr.t tr.two_le) k false .none s.begun T s.root 0 :=
    clear_of_still (s := s.begun) (cleanView_still _) (fun _ => trivial) false
      ⟨S.cmp, S.log, S.t, S.keyed⟩ W.good
      ((show Whole (cleanView α tr.t tr.two_le) s.begun T from
        ⟨W.good, W.root, W.bound, W.kept, W.inner⟩).link s.root 0) C.ordered
  obtain ⟨dwd, s', d', T', hrun, D⟩ := btDelete_run (ghostOk_clean _ key) W S hs (fun _ _ => trivial)
    C.ordered hmem' hclear
  refine ⟨dwd, s', d', T', hrun, D, ?_⟩
  have hmap {d : Nat} (T : Sub α d) :
      (T.flat (cleanView α tr.t tr.two_le)).map (fun b => key b.1) = T.keys.map key :=
    (keyed_clean _ key).map_cells T
  rw [← hmap T, ← hmap T']
  rcases D.keys with h | ⟨hsame, -⟩
  · exact h
  · -- a ghost would leave as many keys as there were, and the weight of a clean tree is their number
    have hlen : T'.keys.length = T.keys.length := by
      have h := congrArg List.length hsame
      rwa [hmap T, hmap T', List.length_map, List.length_map] at h
    have hw := D.weight trivial
    rw [D.whole.weight_clean, W.weight_clean] at hw
    omega

/-- `bt_delete` of a present key leaves a clean tree. -/
theorem CleanAt.delete (C : CleanAt key tr s T) (hs : s.s.sane) {k : α}
    (hmem : ∃ e ∈ T.keys, key e = key k) :
    ∃ dwd s' d', ∃ T' : Sub α (d' + 1), btDelete k s = some (dwd, s') ∧ CleanAt key tr s' T' ∧
      s'.s = s.s := by
  obtain ⟨dwd, s', d', T', hrun, D, G⟩ := C.deleted hs hmem
  exact ⟨dwd, s', d', T', hrun, C.next D.whole D.kit (List.pairwise_map.1 (G.ordered
    (List.pairwise_map.2 C.order))), congrArg (fun r => r.2.2.2) D.kit⟩

end Delete

end State

end AlchemyDB
