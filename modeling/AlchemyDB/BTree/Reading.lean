/-
# `AlchemyDB.BTree.Reading` — what a tree in memory holds

`Bt.inorder` walks the nodes from the root and reads the entries with their DRs.
`Bt.Holds s T` says that `T` is the tree in memory, and `Balanced` and `Counted`
say of a subtree what a B-tree promises: the fill of its nodes, the place of the
keys, and the scions.  None of this depends on a view.
-/
import AlchemyDB.BTree.Access

namespace AlchemyDB

open Store Weave

variable {α β κ : Type} {d : Nat}

/-! ## Reading a subtree -/

namespace Sub

/-- The entries in order, with their DRs. -/
def cells : {d : Nat} → Sub α d → List (α × Nat)
  | _, nil => []
  | _, node _ nd kid => weave nd.n (fun j => (nd.keys j, nd.dr j)) (fun j => cells (kid j))

/-- The entries in order. -/
def keys (T : Sub α d) : List α := T.cells.map Prod.fst

/-- A view shows the cells. -/
theorem flat_cells (V : View α β) : ∀ {d : Nat} (T : Sub α d),
    T.flat V = T.cells.map fun c => V.see c.1 c.2
  | _, nil => rfl
  | _, node _ nd kid => by
      rw [flat_node, cells, map_weave]
      exact weave_congr (fun j _ => rfl) (fun j _ => flat_cells V (kid j))

theorem keys_nil (T : Sub α 0) : T.keys = [] := by
  cases T
  rfl

theorem keys_node (a : Nat) (nd : BtN α) (kid : Nat → Sub α d) :
    (node a nd kid).keys = weave nd.n nd.keys (fun j => (kid j).keys) := by
  rw [keys, cells, map_weave]
  rfl

/-- What `checkbtreenode` looks at, and where the keys of the children lie: a node has at most
`2t - 1` keys, one that is not the root at least `t - 1`. -/
def Balanced [LT κ] (key : α → κ) (t : Nat) : {d : Nat} → Sub α d → Prop
  | _, nil => True
  | _, node (d := d) _ nd kid =>
      nd.n ≤ 2 * t - 1 ∧ (d ≠ 0 → ∀ j ≤ nd.n, t - 1 ≤ (kid j).size) ∧
      (∀ j < nd.n, (∀ e ∈ (kid j).keys, key e < key (nd.keys j)) ∧
        ∀ e ∈ (kid (j + 1)).keys, key (nd.keys j) < key e) ∧
      ∀ j ≤ nd.n, (kid j).Balanced key t

/-- The scion of every node is the number of the keys below it and of the rows evicted behind
them. -/
def Counted : {d : Nat} → Sub α d → Prop
  | _, nil => True
  | _, node a nd kid =>
      nd.scion = ((node a nd kid).cells.map fun c => 1 + (c.2 : Int)).sum ∧
      ∀ j ≤ nd.n, (kid j).Counted

end Sub

/-! ## The tree in memory -/

/-- The nodes of the subtree are in memory: a leaf is a node of depth one, and an inner node has a
pointer to each of its `n + 1` children. -/
def Stored (h : Nat → Option (BtN α)) : {d : Nat} → Sub α d → Prop
  | _, .nil => True
  | _, .node (d := d) a nd kid =>
      h a = some nd ∧ (nd.leaf = true ↔ d = 0) ∧ (d ≠ 0 → ∀ j ≤ nd.n, nd.nodes j = (kid j).addr) ∧
      ∀ j ≤ nd.n, Stored h (kid j)

/-- `T` is the tree of `s`. -/
structure Bt.Holds (s : Bt α) (T : Sub α (d + 1)) : Prop where
  root : s.root = T.addr
  stored : Stored s.heap T

/-- The walk over the nodes below `x`. -/
def readFrom (h : Nat → Option (BtN α)) : Nat → Nat → Option (List (α × Nat))
  | 0, _ => none
  | fuel + 1, x =>
      match h x with
      | none => none
      | some nd =>
          if nd.leaf then some ((List.range nd.n).map fun j => (nd.keys j, nd.dr j))
          else
            ((List.range (nd.n + 1)).mapM fun j => readFrom h fuel (nd.nodes j)).map fun l =>
              weave nd.n (fun j => (nd.keys j, nd.dr j)) (fun j => l.getD j [])

/-- The entries of the tree in order, with their DRs. -/
def Bt.inorder (s : Bt α) : Option (List (α × Nat)) := readFrom s.heap s.next s.root

/-! ## The walk reads the tree -/

section Walk

variable {h : Nat → Option (BtN α)}

theorem mapM_all {γ : Type} {f : Nat → Option γ} {g : Nat → γ} : ∀ {l : List Nat},
    (∀ j ∈ l, f j = some (g j)) → l.mapM f = some (l.map g)
  | [], _ => rfl
  | j :: l, hf => by
      rw [List.mapM_cons, hf j List.mem_cons_self,
        mapM_all fun m hm => hf m (List.mem_cons_of_mem _ hm)]
      rfl

theorem cells_leaf (a : Nat) (nd : BtN α) (kid : Nat → Sub α 0) :
    (Sub.node a nd kid).cells = (List.range nd.n).map fun j => (nd.keys j, nd.dr j) := by
  refine weave_blank (fun j => ?_)
  cases kid j
  rfl

theorem readFrom_stored : ∀ {d : Nat} {T : Sub α (d + 1)} {fuel : Nat}, Stored h T → d < fuel →
    readFrom h fuel T.addr = some T.cells
  | d, .node a nd kid, fuel, hs, hf => by
      obtain ⟨f, rfl⟩ : ∃ f, fuel = f + 1 := ⟨fuel - 1, by omega⟩
      obtain ⟨hlive, hleaf, hlink, hkids⟩ := hs
      simp only [readFrom, Sub.addr_node, hlive]
      cases d with
      | zero =>
          rw [if_pos (hleaf.2 rfl), cells_leaf]
      | succ d =>
          rw [if_neg (fun h => absurd (hleaf.1 h) (by omega))]
          have hall : ∀ j < nd.n + 1, readFrom h f (nd.nodes j) = some (kid j).cells := by
            intro j hj
            rw [hlink (by omega) j (by omega)]
            exact readFrom_stored (hkids j (by omega)) (by omega)
          rw [mapM_all fun j hj => hall j (List.mem_range.1 hj), Option.map_some]
          refine congrArg some (weave_congr (fun j _ => rfl) (fun j hj => ?_))
          have hj' : j < nd.n + 1 := by omega
          simp [List.getD_eq_getElem?_getD, List.getElem?_range hj']

end Walk

/-! ## Trees under a view -/

section View

variable [LinearOrder κ] {V : View α β} {key : α → κ} {K : β → κ} {s : Bt α}

theorem Owing.stored {h : Nat → Option (BtN α)} : ∀ {d : Nat} {T : Sub α d} {owe : Int},
    Owing V h owe T → Stored h T
  | _, .nil, _, _ => trivial
  | _, .node _ _ _, _, g =>
      ⟨g.node.live, g.node.leaf, g.node.link, fun j hj => (g.kids j hj).stored⟩

theorem Whole.holds {T : Sub α (d + 1)} (W : Whole V s T) : s.Holds T := ⟨W.root, W.good.stored⟩

/-- The walk reads the tree. -/
theorem Whole.inorder {T : Sub α (d + 1)} (W : Whole V s T) : s.inorder = some T.cells := by
  rw [Bt.inorder, W.root]
  exact readFrom_stored W.good.stored W.depth

theorem Owing.counted {h : Nat → Option (BtN α)} (hc : V.counts) : ∀ {d : Nat} {T : Sub α d},
    Good V h T → T.Counted
  | _, .nil, _ => trivial
  | _, .node a nd kid, g => by
      refine ⟨?_, fun j hj => (g.kids j hj).counted hc⟩
      rw [g.sci hc, Sub.weight, Sub.flat_cells, List.map_map]
      exact congrArg List.sum (List.map_congr_left fun c _ => V.wt_see hc c.1 c.2)

omit [LinearOrder κ] in
/-- The keys of the tree under a view. -/
theorem Keyed.map_cells (H : Keyed V key K) (T : Sub α d) : (T.flat V).map K = T.keys.map key := by
  rw [Sub.flat_cells, Sub.keys, List.map_map, List.map_map]
  exact List.map_congr_left fun c _ => H.see c.1 c.2

/-- In a tree whose keys increase, the keys of a child lie between its neighbours. -/
theorem Owing.balanced {h : Nat → Option (BtN α)} : ∀ {d : Nat} {T : Sub α d} {owe : Int},
    Owing V h owe T → T.keys.Pairwise (fun a b => key a < key b) → T.Balanced key V.t
  | _, .nil, _, _, _ => trivial
  | _, .node a nd kid, _, g, ho => by
      rw [Sub.keys_node] at ho
      refine ⟨g.node.fill, g.node.low, fun j hj => ?_, fun j hj => ?_⟩
      · have hr : ∀ F : Nat → List α, right nd.keys F j (nd.n - j) =
            nd.keys j :: (F (j + 1) ++ right nd.keys F (j + 1) (nd.n - j - 1)) := by
          intro F
          rw [show nd.n - j = nd.n - j - 1 + 1 by omega]
          rfl
        rw [weave_focus (Nat.le_of_lt hj), hr] at ho
        have ho' := (List.pairwise_append.1 ho).2.1
        refine ⟨fun e he => ?_, fun e he => ?_⟩
        · exact (List.pairwise_append.1 ho').2.2 e he _ List.mem_cons_self
        · exact List.rel_of_pairwise_cons (List.pairwise_append.1 ho').2.1
            (List.mem_append_left _ he)
      · rw [weave_focus hj] at ho
        have ho' := (List.pairwise_append.1 (List.pairwise_append.1 ho).2.1).1
        exact (g.kids j hj).balanced ho'

end View

end AlchemyDB
