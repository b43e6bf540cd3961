/-
# `AlchemyDB.BTree.Memory` — the blocks a tree has allocated

`allocbtree` and `allocbtreenode` add to `msize` what they ask for, and
`bt_free_btreenode` takes it off again, by the same two sizes: a leaf has room for
keys, an inner node for pointers as well.  A tree that holds some keys has no other
node allocated than those that hang from its root (`Whole.kept`), so that a tree
without keys has the size of a new one.
-/
import AlchemyDB.BTree.DataSize

namespace AlchemyDB

open Store Weave

variable {α κ : Type}

/-- `sizeof(struct btree)`. -/
def sizeofBtree : Nat := 62

/-- `sizeof(bt_n)`. -/
def sizeofBtN : Nat := 9

namespace Bt

def kbyte (s : Bt α) : Nat := sizeofBtN + (2 * s.t - 1) * s.s.ksize

def nbyte (s : Bt α) : Nat := s.kbyte + 2 * s.t * 8

/-- `GET_BTN_SIZE`: the block of a node without room for a dirty stream. -/
def nodeSize (s : Bt α) (nd : BtN α) : Nat := if nd.leaf then s.kbyte else s.nbyte

/-- The nodes that were allocated and not freed. -/
def nodeBytes (s : Bt α) : Nat :=
  ((List.range s.next).map fun b => ((s.heap b).map s.nodeSize).getD 0).sum

end Bt

/-- When one node is live, it is the only one that counts. -/
theorem Bt.nodeBytes_single {s : Bt α} {a : Nat} {nd : BtN α} (ha : s.heap a = some nd) (hlt : a < s.next)
    (hall : ∀ b, s.heap b ≠ none → b = a) : s.nodeBytes = s.nodeSize nd := by
  have h : s.nodeBytes = ∑ b ∈ Finset.range s.next, ((s.heap b).map s.nodeSize).getD 0 := rfl
  rw [h, Finset.sum_eq_single a]
  · rw [ha]
    rfl
  · intro b _ hb
    have : s.heap b = none := by
      by_contra h
      exact hb (hall b h)
    rw [this]
    rfl
  · exact fun h => absurd (Finset.mem_range.2 hlt) h

/-! ## Trees that hold a list of keys -/

section Keys

variable [LinearOrder κ] {key : α → κ} {sp : Bts} {s : Bt α} {ks : List α} {k : α}

/-- The clean tree `s` holds these entries, each under its own key. -/
def KeysAt (key : α → κ) (sp : Bts) (s : Bt α) (ks : List α) : Prop :=
  ∃ (d : Nat) (T : Sub α (d + 1)) (m : κ → Option α), MapAt key .one sp s T m ∧ T.keys.Perm ks

theorem KeysAt.perm {ks' : List α} (h : KeysAt key sp s ks) (hp : ks.Perm ks') : KeysAt key sp s ks' := by
  obtain ⟨d, T, m, M, hk⟩ := h
  exact ⟨d, T, m, M, hk.trans hp⟩

theorem keysAt_create [Inhabited α] {cmp : α → α → Int} (hc : CmpOk cmp key) (sp : Bts) (dirty : Bool) :
    KeysAt key sp (btCreate cmp .one sp dirty) [] :=
  ⟨0, emptyTree dirty, _, MapAt.create hc sp dirty, .refl _⟩

theorem KeysAt.insert [Inhabited α] (h : KeysAt key sp s ks) (habs : ∀ e ∈ ks, key e ≠ key k) :
    ∃ s', btInsert k 0 s = some ((), s') ∧ KeysAt key sp s' (k :: ks) := by
  obtain ⟨d, T, m, M, hk⟩ := h
  have hm : m (key k) = none := by
    by_contra hne
    obtain ⟨e, he⟩ := Option.ne_none_iff_exists'.1 hne
    obtain ⟨h1, h2⟩ := (M.reads _ _).1 he
    exact habs e (hk.subset h1) h2
  obtain ⟨s', d', T', hrun, M'⟩ := M.insert hm
  have hp := M.perm_update (fun e he => by cases he; rfl) M'
  rw [hm] at hp
  exact ⟨s', hrun, d', T', _, M', hp.trans (hk.cons k)⟩

theorem KeysAt.erase [RowStream α] [DecidableEq α] (h : KeysAt key sp s ks) (hs : sp.sane)
    (hl : sp.loose → ks.length ≤ 7) (hm : k ∈ ks) :
    ∃ dwd s', btDelete k s = some (dwd, s') ∧ KeysAt key sp s' (ks.erase k) := by
  obtain ⟨d, T, m, M, hk⟩ := h
  have hkm : m (key k) = some k := (M.reads _ _).2 ⟨hk.symm.subset hm, rfl⟩
  have hslip : ¬ Slips (cleanView α Trans.one.t Trans.one.two_le) (fun b => key b.1) s k T := by
    rintro ⟨hlo, -, hlen⟩
    rw [flat_clean] at hlen
    have h1 : T.keys.length ≤ 7 := hk.length_eq ▸ hl (M.spec ▸ hlo)
    rw [Sub.keys, List.length_map] at h1
    have h2 : 2 * 4 ≤ T.cells.length := hlen
    omega
  obtain ⟨dwd, s', d', T', hrun, -, M'⟩ := M.erase (by rw [hkm]; simp) hs hslip
  have hp := M.perm_update (k := k) (fun e he => by cases he) M'
  rw [hkm] at hp
  have hp' : (k :: T'.keys).Perm ks := hp.trans hk
  exact ⟨dwd, s', hrun, d', T', _, M', (List.cons_perm_iff_perm_erase.1 hp').2⟩

theorem KeysAt.t (h : KeysAt key sp s ks) : s.t = 4 := by
  obtain ⟨d, T, m, M, -⟩ := h
  exact M.clean.t

theorem KeysAt.spec (h : KeysAt key sp s ks) : s.s = sp := by
  obtain ⟨d, T, m, M, -⟩ := h
  exact M.spec

/-- A tree without keys has one node. -/
theorem KeysAt.nodeBytes_nil (h : KeysAt key sp s []) : s.nodeBytes = sizeofBtN + 7 * sp.ksize := by
  obtain ⟨d, T, m, M, hk⟩ := h
  have hnil : T.keys = [] := List.perm_nil.1 hk
  have W := M.clean.whole
  have hsize : T.size = 0 := by
    have h1 := T.size_le_flat (cleanView α Trans.one.t Trans.one.two_le)
    rw [flat_clean] at h1
    have h2 : T.keys.length = 0 := by rw [hnil]; rfl
    rw [Sub.keys, List.length_map] at h2
    omega
  obtain rfl : d = 0 := by
    by_contra hd
    have := W.inner hd
    omega
  obtain ⟨a, nd, kid, rfl⟩ := exists_node T
  have hall : ∀ b, s.heap b ≠ none → b = a := by
    intro b hb
    have := W.kept b hb
    rwa [addrs_leaf] at this
  rw [Bt.nodeBytes_single W.good.node.live (W.bound a (by rw [W.good.node.live]; simp)) hall, Bt.nodeSize,
    if_pos (W.good.node.leaf.2 rfl), Bt.kbyte, M.clean.t, M.spec]
  rfl

end Keys

end AlchemyDB
