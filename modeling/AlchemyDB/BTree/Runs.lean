/-
# `AlchemyDB.BTree.Runs` — a clean tree as a finite map

A run is any sequence of insertions of absent keys, deletes of present keys and
replacements under present keys, from `bt_create` on.  In every state the tree should be
a B-tree that holds what a finite map holds after the same steps, and every delete
should hand back the entry that was stored under its key.
-/
import AlchemyDB.BTree.Clean
import AlchemyDB.BTree.Fixed

namespace AlchemyDB

open Store Weave

variable {α κ : Type}

/-! ## Steps -/

/-- The operations of a run. -/
inductive Op (α : Type) where
  | insert (k : α)
  | delete (k : α)
  | replace (k v : α)
deriving DecidableEq, Repr

/-- A step on the tree; a delete returns the entry that the pointer denotes which it hands back. -/
def Op.run [Inhabited α] [RowStream α] : Op α → BtM α (Option α)
  | .insert k => do
      btInsert k 0
      pure none
  | .delete k => do
      let dwd ← btDelete k
      let s ← get
      pure (s.deref dwd.k)
  | .replace k v => do
      let _ ← btReplace k v
      pure none

/-- What a finite map does. -/
def Op.apply [DecidableEq κ] (key : α → κ) (m : κ → Option α) : Op α → κ → Option α
  | .insert k => Function.update m (key k) (some k)
  | .delete k => Function.update m (key k) none
  | .replace k v => Function.update m (key k) (some v)

/-- Absent keys are inserted, present ones deleted and replaced. -/
def Op.Allowed (key : α → κ) (m : κ → Option α) : Op α → Prop
  | .insert k => m (key k) = none
  | .delete k => m (key k) ≠ none
  | .replace k v => m (key k) ≠ none ∧ key v = key k

section Map

variable [LinearOrder κ] (key : α → κ)

/-- The tree in memory is a B-tree that reads in increasing order, and holds what the map holds.
Leaves have one depth, which is the index of the tree. -/
def Represents (s : Bt α) (m : κ → Option α) : Prop :=
  ∃ (d : Nat) (T : Sub α (d + 1)), s.Holds T ∧ s.inorder = some T.cells ∧
    T.keys.Pairwise (fun a b => key a < key b) ∧ T.Balanced key s.t ∧
    ∀ kk e, m kk = some e ↔ e ∈ T.keys ∧ key e = kk

/-- A run that does what it should. -/
def Behaves [Inhabited α] [RowStream α] : List (Op α) → Bt α → (κ → Option α) → Prop
  | [], s, m => Represents key s m
  | op :: ops, s, m => Represents key s m ∧ (op.Allowed key m → ∃ r s', op.run s = some (r, s') ∧
      (∀ k, op = .delete k → r = m (key k)) ∧ Behaves ops s' (op.apply key m))

/-- Whether the search for `k` ends in a leaf. -/
def inLeafFrom (s : Bt α) (k : α) : Nat → Nat → Bool
  | 0, _ => false
  | fuel + 1, x =>
      match s.heap x with
      | none => false
      | some nd =>
          if nd.leaf then true
          else if (findkindex s nd k).2 = 0 then false
          else inLeafFrom s k fuel (nd.nodes (slotOf s nd k))

/-- The step does not read an entry through a slot that has changed: the slots hold the entries
themselves, or the key is in a leaf, and is the last one of the tree unless the entries are copied to
a buffer. -/
def Op.Safe (sp : Bts) (s : Bt α) (m : κ → Option α) : Op α → Prop
  | .delete k => (sp.narrow = true ∧ sp.bigBt = false) ∨
      (sp.narrow = false ∧ inLeafFrom s k s.next s.root = true ∧
        (sp.bigBt = true ∨ ∀ kk e, m kk = some e → kk ≤ key k))
  | _ => True

/-- A run of such steps. -/
def SafeRun [Inhabited α] [RowStream α] (sp : Bts) : List (Op α) → Bt α → (κ → Option α) → Prop
  | [], _, _ => True
  | op :: ops, s, m => op.Safe key sp s m ∧
      ∀ r s', op.run s = some (r, s') → SafeRun sp ops s' (op.apply key m)

end Map

section Proofs

variable [LinearOrder κ] {key : α → κ} {tr : Trans} {s : Bt α} {d : Nat} {T : Sub α (d + 1)}
  {m : κ → Option α} {k : α}

/-- The search in a clean tree ends in a leaf just when no inner node has the key. -/
theorem inLeaf_iff {V : View α (α × Nat)} {K : α × Nat → κ} (S : Setting V key K s) :
    ∀ {d : Nat} {T : Sub α (d + 1)} {fuel : Nat}, Good V s.heap T → Ordered K (T.flat V) → d < fuel →
    (inLeafFrom s k fuel T.addr = true ↔ InLeaf s k T)
  | 0, .node a nd kid, fuel, g, ho, hf => by
      obtain ⟨f, rfl⟩ : ∃ f, fuel = f + 1 := ⟨fuel - 1, by omega⟩
      simp only [inLeafFrom, Sub.addr_node, g.node.live, g.node.leaf.2 rfl, if_true]
      exact iff_of_true trivial trivial
  | d + 1, .node a nd kid, fuel, g, ho, hf => by
      obtain ⟨f, rfl⟩ : ∃ f, fuel = f + 1 := ⟨fuel - 1, by omega⟩
      have hl : nd.leaf = false := Bool.eq_false_iff.2 fun h => absurd (g.node.leaf.1 h) (by omega)
      simp only [inLeafFrom, Sub.addr_node, g.node.live, hl, Bool.false_eq_true, if_false]
      rw [InLeaf, AtHit, Sub.top_node]
      by_cases hr : (findkindex s nd k).2 = 0
      · rw [if_pos hr, if_pos hr]
        simp
      · rw [if_neg hr, if_neg hr]
        obtain ⟨w, hw, F⟩ := g.found S.cmp S.log S.t S.keyed ho k
        have hw' : w ≤ nd.n := hw
        have hs : slotOf s nd k = w := F.slotOf
        rw [hs, g.node.link (by omega) w hw']
        exact inLeaf_iff S (g.kids w hw') (ho.kid hw) (by omega)

/-- A clean tree that holds what the map holds. -/
structure MapAt (key : α → κ) (tr : Trans) (sp : Bts) (s : Bt α) {d : Nat} (T : Sub α (d + 1))
    (m : κ → Option α) : Prop where
  clean : CleanAt key tr s T
  spec : s.s = sp
  strict : T.keys.Pairwise (fun a b => key a < key b)
  reads : ∀ kk e, m kk = some e ↔ e ∈ T.keys ∧ key e = kk

variable {sp : Bts}

theorem MapAt.represents (M : MapAt key tr sp s T m) : Represents key s m := by
  refine ⟨d, T, M.clean.whole.holds, M.clean.whole.inorder, M.strict, ?_, M.reads⟩
  rw [M.clean.t]
  exact M.clean.whole.good.balanced M.strict

theorem MapAt.absent (M : MapAt key tr sp s T m) (h : m (key k) = none) :
    ∀ e ∈ T.keys, key e ≠ key k := by
  intro e he hk
  have := (M.reads (key k) e).2 ⟨he, hk⟩
  rw [h] at this
  cases this

theorem MapAt.present (M : MapAt key tr sp s T m) (h : m (key k) ≠ none) :
    ∃ e ∈ T.keys, key e = key k := by
  obtain ⟨e, he⟩ := Option.ne_none_iff_exists'.1 h
  exact ⟨e, (M.reads _ _).1 he⟩

/-- The map after one key was given another entry, or none. -/
theorem update_reads {kk : κ} {o : Option α} {l l' : List α}
    (hm : ∀ c e, m c = some e ↔ e ∈ l ∧ key e = c)
    (hthis : ∀ e, o = some e ↔ e ∈ l' ∧ key e = kk)
    (hrest : ∀ e, key e ≠ kk → (e ∈ l' ↔ e ∈ l)) (c : κ) (e : α) :
    Function.update m kk o c = some e ↔ e ∈ l' ∧ key e = c := by
  by_cases hc : c = kk
  · subst hc
    rw [Function.update_self]
    exact hthis e
  · rw [Function.update_of_ne hc, hm]
    constructor
    · rintro ⟨he, rfl⟩
      exact ⟨(hrest e hc).2 he, rfl⟩
    · rintro ⟨he, rfl⟩
      exact ⟨(hrest e hc).1 he, rfl⟩

/-! ## One step -/

section Step

variable [Inhabited α]

theorem MapAt.insert (M : MapAt key tr sp s T m) (h : m (key k) = none) :
    ∃ s' d', ∃ T' : Sub α (d' + 1), btInsert k 0 s = some ((), s') ∧
      MapAt key tr sp s' T' (Function.update m (key k) (some k)) := by
  obtain ⟨s', d', T', hrun, C, hspec, l, r, h1, h2, hl, hr⟩ := M.clean.insert (M.absent h)
  have hstrict := M.strict
  rw [h1] at hstrict
  obtain ⟨hll, hrr, hlr⟩ := List.pairwise_append.1 hstrict
  refine ⟨s', d', T', hrun, C, hspec.trans M.spec, ?_, update_reads M.reads ?_ ?_⟩
  · rw [h2]
    refine List.pairwise_append.2 ⟨hll, List.pairwise_cons.2 ⟨hr, hrr⟩, fun a ha b hb => ?_⟩
    rcases List.mem_cons.1 hb with rfl | hb
    · exact hl a ha
    · exact hlr a ha b hb
  · intro e
    rw [h2]
    constructor
    · intro he
      cases he
      exact ⟨by simp, rfl⟩
    · rintro ⟨he, hk⟩
      rcases List.mem_append.1 he with he | he
      · exact absurd hk (hl e he).ne
      · rcases List.mem_cons.1 he with rfl | he
        · rfl
        · exact absurd hk (hr e he).ne'
  · intro e hne
    rw [h1, h2]
    simp only [List.mem_append, List.mem_cons]
    constructor
    · rintro (he | rfl | he)
      · exact .inl he
      · exact absurd rfl hne
      · exact .inr he
    · exact Or.imp_right .inr

omit [Inhabited α] in
theorem MapAt.replace (M : MapAt key tr sp s T m) {v : α} (h : m (key k) ≠ none)
    (hv : key v = key k) :
    ∃ kp s', ∃ T' : Sub α (d + 1), btReplace k v s = some (some kp, s') ∧
      MapAt key tr sp s' T' (Function.update m (key k) (some v)) ∧
      (sp.narrow = true → ∃ e, kp = .val e ∧ m (key k) = some e) := by
  obtain ⟨kp, s', T', hrun, C, hspec, l, r, e₀, h1, h2, hk, hkp⟩ := M.clean.replace hv (M.present h)
  have hstrict := List.pairwise_map.2 M.strict
  have hmap : T'.keys.map key = T.keys.map key := by simp [h1, h2, hk, hv]
  have hstrict' : T'.keys.Pairwise (fun a b => key a < key b) := by
    rw [← hmap] at hstrict
    exact List.pairwise_map.1 hstrict
  have hs2 := hstrict'
  rw [h2] at hs2
  obtain ⟨-, hr, hl⟩ := List.pairwise_append.1 hs2
  refine ⟨kp, s', T', hrun, ⟨C, hspec.trans M.spec, hstrict', update_reads M.reads ?_ ?_⟩, fun hn =>
    ⟨e₀, hkp (by rw [M.spec]; exact hn), (M.reads _ e₀).2 ⟨by simp [h1], hk⟩⟩⟩
  · intro e
    rw [h2]
    constructor
    · intro he
      cases he
      exact ⟨by simp, hv⟩
    · rintro ⟨he, hke⟩
      rcases List.mem_append.1 he with he | he
      · exact absurd (hke.trans hv.symm) (hl e he v List.mem_cons_self).ne
      · rcases List.mem_cons.1 he with rfl | he
        · rfl
        · exact absurd (hke.trans hv.symm) (List.rel_of_pairwise_cons hr he).ne'
  · intro e hne
    rw [h1, h2]
    simp only [List.mem_append, List.mem_cons]
    constructor
    · rintro (he | rfl | he)
      · exact .inl he
      · exact absurd hv hne
      · exact .inr (.inr he)
    · rintro (he | rfl | he)
      · exact .inl he
      · exact absurd hk hne
      · exact .inr (.inr he)

section Delete

variable [RowStream α]

omit [Inhabited α] in
/-- The keys that are left when one key is gone from increasing keys. -/
theorem gone_of_strict {slip : Prop} {kk : κ} {l l' : List κ} (h : KeyGone slip kk l l')
    (hs : ¬ slip) (ho : l.Pairwise (· < ·)) : l'.Pairwise (· < ·) ∧ kk ∉ l' := by
  cases h with
  | gone A B =>
      refine ⟨ho.sublist (by simp), fun hmem => ?_⟩
      obtain ⟨-, hB, hAB⟩ := List.pairwise_append.1 ho
      rcases List.mem_append.1 hmem with hA | hB'
      · exact absurd rfl (hAB kk hA kk List.mem_cons_self).ne
      · exact absurd rfl (List.rel_of_pairwise_cons hB hB').ne
  | slip A B a b h => exact absurd h hs

omit [Inhabited α] in
/-- What is left in the map by a delete that does not slip. -/
theorem MapAt.erase (M : MapAt key tr sp s T m) (h : m (key k) ≠ none) (hsane : sp.sane)
    (hslip : ¬ Slips (cleanView α tr.t tr.two_le) (fun b => key b.1) s k T) :
    ∃ dwd s' d', ∃ T' : Sub α (d' + 1), btDelete k s = some (dwd, s') ∧
      Deleted (cleanView α tr.t tr.two_le) key (fun b => key b.1) s s' T T' k dwd ∧
      MapAt key tr sp s' T' (Function.update m (key k) none) := by
  have C := M.clean
  obtain ⟨dwd, s', d', T', hrun, D, G⟩ := C.deleted (M.spec ▸ hsane) (M.present h)
  obtain ⟨hstrict', hgone⟩ := gone_of_strict G hslip (List.pairwise_map.2 M.strict)
  have hothers : besides (fun b : α × Nat => key b.1) (key k) T'.cells =
      besides (fun b : α × Nat => key b.1) (key k) T.cells := by
    have h := D.others hslip
    rwa [flat_clean, flat_clean] at h
  have hmem : ∀ e, key e ≠ key k → (e ∈ T'.keys ↔ e ∈ T.keys) := by
    intro e hne
    have hb (l : List (α × Nat)) :
        e ∈ l.map Prod.fst ↔ e ∈ (besides (fun b : α × Nat => key b.1) (key k) l).map Prod.fst := by
      simp only [besides, List.mem_map, List.mem_filter, decide_eq_true_eq]
      constructor
      · rintro ⟨c, hc, he⟩
        exact ⟨c, ⟨hc, he ▸ hne⟩, he⟩
      · rintro ⟨c, hc, he⟩
        exact ⟨c, hc.1, he⟩
    rw [Sub.keys, Sub.keys, hb T'.cells, hothers, ← hb T.cells]
  refine ⟨dwd, s', d', T', hrun, D, ?_, ?_, List.pairwise_map.1 hstrict', update_reads M.reads ?_ hmem⟩
  · exact C.next D.whole D.kit (List.pairwise_map.1 (G.ordered (List.pairwise_map.2 C.order)))
  · exact (congrArg (fun r => r.2.2.2) D.kit).trans M.spec
  · intro e'
    refine iff_of_false (by simp) ?_
    rintro ⟨he', hk'⟩
    exact hgone (hk' ▸ List.mem_map_of_mem he')

omit [Inhabited α] in
theorem MapAt.delete (M : MapAt key tr sp s T m) (h : m (key k) ≠ none)
    (hsafe : (Op.delete k).Safe key sp s m) :
    ∃ dwd s' d', ∃ T' : Sub α (d' + 1), btDelete k s = some (dwd, s') ∧
      s'.deref dwd.k = m (key k) ∧ MapAt key tr sp s' T' (Function.update m (key k) none) := by
  have C := M.clean
  have hstrict : Strict (fun b : α × Nat => key b.1) (T.flat (cleanView α tr.t tr.two_le)) := by
    rw [flat_clean]
    exact (pairwise_cells (· < ·) T).2 M.strict
  have hin : inLeafFrom s k s.next s.root = true → InLeaf s k T := by
    rw [C.whole.root]
    exact (inLeaf_iff C.setting C.whole.good C.ordered C.whole.depth).1
  have hsane : sp.sane := by
    rcases hsafe with ⟨-, hb⟩ | ⟨hn, -⟩
    · exact fun _ => hb
    · exact fun h => by rw [hn] at h; cases h
  have hslip : ¬ Slips (cleanView α tr.t tr.two_le) (fun b => key b.1) s k T := by
    rintro ⟨hlo, hno, -⟩
    rw [Bts.loose, M.spec, Bool.or_eq_false_iff] at hlo
    rcases hsafe with ⟨hn, -⟩ | ⟨-, hl, -⟩
    · rw [hlo.1] at hn
      cases hn
    · exact hno ⟨hstrict, hin hl⟩
  obtain ⟨dwd, s', d', T', hrun, D, M'⟩ := M.erase h hsane hslip
  have hback : ∃ e ∈ T.keys, key e = key k ∧ s'.deref dwd.k = some e := by
    have hkeys {e : α} {v : Nat} (he : (cleanView α tr.t tr.two_le).see e v ∈
        T.flat (cleanView α tr.t tr.two_le)) : e ∈ T.keys := by
      rw [flat_clean] at he
      exact List.mem_map_of_mem he
    rcases hsafe with ⟨hn, -⟩ | ⟨hn, hl, hbig⟩
    · obtain ⟨e, v, he, hk, hd⟩ := D.back (by rw [M.spec]; exact hn)
      exact ⟨e, hkeys he, hk, by rw [hd]; rfl⟩
    · obtain ⟨e, v, he, hk, hd⟩ := D.leaf trivial hstrict (hin hl)
      refine ⟨e, hkeys he, hk, hd ?_⟩
      rcases hbig with hb | hlast
      · refine .inl fun hlo => ?_
        rw [Bts.loose, M.spec, Bool.or_eq_false_iff, hb] at hlo
        cases hlo.2
      · refine .inr fun b hb => ?_
        rw [flat_clean] at hb
        exact hlast _ _ ((M.reads _ b.1).2 ⟨List.mem_map_of_mem hb, rfl⟩)
  obtain ⟨e, he, hk, hd⟩ := hback
  exact ⟨dwd, s', d', T', hrun, hd.trans ((M.reads _ e).2 ⟨he, hk⟩).symm, M'⟩

end Delete

/-! ## Runs -/

/-- One step of a run. -/
theorem MapAt.step [RowStream α] (M : MapAt key tr sp s T m) {op : Op α} (ha : op.Allowed key m)
    (hsafe : op.Safe key sp s m) :
    ∃ r s' d', ∃ T' : Sub α (d' + 1), op.run s = some (r, s') ∧
      (∀ k, op = .delete k → r = m (key k)) ∧ MapAt key tr sp s' T' (op.apply key m) := by
  cases op with
  | insert k =>
      obtain ⟨s', d', T', hrun, M'⟩ := M.insert ha
      refine ⟨none, s', d', T', ?_, fun _ he => (by cases he), M'⟩
      rw [Op.run, run_bind hrun]
      rfl
  | delete k =>
      obtain ⟨dwd, s', d', T', hrun, hback, M'⟩ := M.delete ha hsafe
      refine ⟨s'.deref dwd.k, s', d', T', ?_, fun k' he => ?_, M'⟩
      · rw [Op.run, run_bind hrun]
        rfl
      · cases he
        exact hback
  | replace k v =>
      obtain ⟨kp, s', T', hrun, M', -⟩ := M.replace ha.1 ha.2
      refine ⟨none, s', d, T', ?_, fun _ he => (by cases he), M'⟩
      rw [Op.run, run_bind hrun]
      rfl

theorem MapAt.behaves [RowStream α] : ∀ (ops : List (Op α)) {s : Bt α} {d : Nat} {T : Sub α (d + 1)}
    {m : κ → Option α}, MapAt key tr sp s T m → SafeRun key sp ops s m → Behaves key ops s m
  | [], _, _, _, _, M, _ => M.represents
  | op :: ops, s, d, T, m, M, hs => by
      refine ⟨M.represents, fun ha => ?_⟩
      obtain ⟨r, s', d', T', hrun, hr, M'⟩ := M.step ha hs.1
      exact ⟨r, s', hrun, hr, M'.behaves ops (hs.2 r s' hrun)⟩

end Step

end Proofs

/-- A stream of a numeric table: the primary key with its row, or a ghost. -/
structure Cell where
  num : Nat
  row : Option Nat
deriving DecidableEq, Repr, Inhabited

instance : RowStream Cell where
  numKey := Cell.num
  ghost c := ⟨c.num, none⟩
  isGhost c := c.row.isNone

def Cell.cmp (a b : Cell) : Int := (a.num : Int) - b.num

theorem Cell.cmpOk : CmpOk Cell.cmp Cell.num where
  lt a b := by unfold Cell.cmp; omega
  eq a b := by unfold Cell.cmp; omega

/-- The specification of the tree of a table with an INT primary key. -/
def tableBts : Bts := ⟨.int, .table, 8, btflagNone⟩

/-- The specification of an index node over U128 primary keys, whose slots are 16 bytes wide. -/
def inodeXBts : Bts := ⟨.u128, .inode, 16, btflagNone⟩

def row (n : Nat) : Cell := ⟨n, some n⟩

/-- Eight insertions, and one delete that takes the successor of an inner key. -/
def slipOps : List (Op Cell) := (List.range 8).map (fun n => .insert (row (n + 1))) ++ [.delete (row 4)]

/-- In a tree whose slots hold the entries themselves every run is safe. -/
theorem safeRun_narrow [LinearOrder κ] [Inhabited α] [RowStream α] (key : α → κ) {sp : Bts}
    (hn : sp.narrow = true) (hb : sp.bigBt = false) : ∀ (ops : List (Op α)) (s : Bt α)
    (m : κ → Option α), SafeRun key sp ops s m
  | [], _, _ => trivial
  | op :: ops, s, m => by
      refine ⟨?_, fun r s' _ => safeRun_narrow key hn hb ops s' _⟩
      cases op with
      | delete k => exact .inl ⟨hn, hb⟩
      | insert k => trivial
      | replace k v => trivial

/-- The state after a run, and the map. -/
def play [Inhabited α] [RowStream α] : List (Op α) → Bt α → Option (Bt α)
  | [], s => some s
  | op :: ops, s => (op.run s).bind fun r => play ops r.2

def applyAll [DecidableEq κ] (key : α → κ) : List (Op α) → (κ → Option α) → κ → Option α
  | [], m => m
  | op :: ops, m => applyAll key ops (op.apply key m)

/-- Every step of the run is allowed. -/
def AllAllowed [DecidableEq κ] (key : α → κ) : List (Op α) → (κ → Option α) → Prop
  | [], _ => True
  | op :: ops, m => op.Allowed key m ∧ AllAllowed key ops (op.apply key m)

theorem Behaves.last [LinearOrder κ] [Inhabited α] [RowStream α] {key : α → κ} :
    ∀ {ops : List (Op α)} {s : Bt α} {m : κ → Option α}, Behaves key ops s m → AllAllowed key ops m →
    ∃ s', play ops s = some s' ∧ Represents key s' (applyAll key ops m)
  | [], s, m, h, _ => ⟨s, rfl, h⟩
  | op :: ops, s, m, h, ha => by
      obtain ⟨r, s', hrun, -, hb⟩ := h.2 ha.1
      obtain ⟨s'', hp, hr⟩ := hb.last ha.2
      exact ⟨s'', by rw [play, hrun]; exact hp, hr⟩

/-- The states that insertions of absent keys and deletes of present ones reach. -/
inductive Reached [Inhabited α] [RowStream α] (key : α → κ) (s₀ : Bt α) : Bt α → Prop
  | start : Reached key s₀ s₀
  | insert {s s' : Bt α} {k : α} {l : List (α × Nat)} (h : Reached key s₀ s)
      (hl : s.inorder = some l) (habs : ∀ c ∈ l, key c.1 ≠ key k)
      (hrun : btInsert k 0 s = some ((), s')) : Reached key s₀ s'
  | delete {s s' : Bt α} {k : α} {l : List (α × Nat)} {dwd : Dwd α} (h : Reached key s₀ s)
      (hl : s.inorder = some l) (hmem : ∃ c ∈ l, key c.1 = key k)
      (hrun : btDelete k s = some (dwd, s')) : Reached key s₀ s'

/-- The scion of every node is the number of keys in its subtree. -/
def Sub.Numbered : {d : Nat} → Sub α d → Prop
  | _, .nil => True
  | _, .node a nd kid =>
      nd.scion = ((Sub.node a nd kid).keys.length : Int) ∧ ∀ j ≤ nd.n, (kid j).Numbered

section Scions

variable [LinearOrder κ] {key : α → κ}

theorem Owing.numbered {h : Nat → Option (BtN α)} {t : Nat} (h2 : 2 ≤ t) : ∀ {d : Nat} {T : Sub α d},
    Good (cleanView α t h2) h T → T.Numbered
  | _, .nil, _ => trivial
  | _, .node a nd kid, g => by
      refine ⟨?_, fun j hj => (g.kids j hj).numbered h2⟩
      have hw : ((Sub.node a nd kid).cells.map (cleanView α t h2).wt) =
          (Sub.node a nd kid).cells.map fun _ => (1 : Int) :=
        List.map_congr_left fun c hc => by
          show (1 : Int) + c.2 = 1
          rw [cells_clean h2 g c hc]
          rfl
      rw [g.sci trivial, Sub.weight, flat_clean, hw, Sub.keys, List.length_map]
      simp

variable [Inhabited α] [RowStream α]

theorem reached_clean {cmp : α → α → Int} (hc : CmpOk cmp key) {tr : Trans} {sp : Bts} {dirty : Bool}
    {s : Bt α} (h : Reached key (btCreate cmp tr sp dirty) s) :
    ∃ (d : Nat) (T : Sub α (d + 1)), CleanAt key tr s T := by
  induction h with
  | start => exact ⟨0, _, btCreate_clean hc tr sp dirty⟩
  | insert _ hl habs hrun ih =>
      obtain ⟨d, T, C⟩ := ih
      rw [C.whole.inorder, Option.some_inj] at hl
      subst hl
      obtain ⟨s', d', T', hrun', C', -⟩ := C.insert fun e he => by
        obtain ⟨c, hc, rfl⟩ := List.mem_map.1 he
        exact habs c hc
      rw [hrun, Option.some_inj] at hrun'
      cases hrun'
      exact ⟨d', T', C'⟩
  | delete _ hl hmem hrun ih =>
      rename_i s s' k l dwd _
      obtain ⟨d, T, C⟩ := ih
      rw [C.whole.inorder, Option.some_inj] at hl
      subst hl
      have hs : s.s.sane := by
        intro hn
        by_contra hb
        rw [dead_btDelete k s ⟨hn, by simpa using hb⟩] at hrun
        cases hrun
      obtain ⟨c, hc, hk⟩ := hmem
      obtain ⟨dwd', s₁, d', T', hrun', C', -⟩ := C.delete hs ⟨c.1, List.mem_map_of_mem hc, hk⟩
      rw [hrun, Option.some_inj] at hrun'
      cases hrun'
      exact ⟨d', T', C'⟩

end Scions

end AlchemyDB
