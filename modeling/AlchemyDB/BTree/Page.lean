/-
# `AlchemyDB.BTree.Page` — nodes on paper

A `Page` is what a node shows: its keys, their DRs and the subtrees between them,
without the address, the stream and the slots behind the keys.  `Page.entered` is the
page of the node that `deletekey` goes on with below a given page: the kid itself, or,
when that has only `t - 1` keys, the kid with what case 3 adds to it from a neighbour.
It is computed from the tree as it is before the delete.
-/
import AlchemyDB.BTree.Site

namespace AlchemyDB

open Store Weave

variable {α β : Type} {d : Nat}

/-- The keys of a node with their DRs, and its kids. -/
structure Page (α : Type) (d : Nat) where
  n : Nat
  keys : Nat → α
  drs : Nat → Nat
  kids : Nat → Sub α d

/-- The page of a node in memory. -/
def Sub.page : Sub α (d + 1) → Page α d
  | .node _ nd kid => ⟨nd.n, nd.keys, nd.dr, kid⟩

namespace Page

/-- The stretch of `n` entries from entry `o` on of the pages `y` and `z` with the key `e`
between them. -/
def join (y z : Page α d) (e : α) (v o n : Nat) : Page α d :=
  ⟨n, fun j => joinE y.n y.keys e z.keys (o + j), fun j => joinE y.n y.drs v z.drs (o + j),
    fun j => joinF y.n y.kids z.kids (o + j)⟩

/-- The page of kid `i`. -/
def kid (P : Page α (d + 1)) (i : Nat) : Page α d := (P.kids i).page

/-- The page of kid `i` when `deletekey` enters it: case 3 is `rebalanceCase3`. -/
def entered (t : Nat) (P : Page α (d + 1)) (i : Nat) : Page α d :=
  if (P.kid i).n ≠ t - 1 then P.kid i
  else if 0 < i ∧ t ≤ (P.kid (i - 1)).n then
    join (P.kid (i - 1)) (P.kid i) (P.keys (i - 1)) (P.drs (i - 1)) (P.kid (i - 1)).n ((P.kid i).n + 1)
  else if i < P.n ∧ t ≤ (P.kid (i + 1)).n then
    join (P.kid i) (P.kid (i + 1)) (P.keys i) (P.drs i) 0 ((P.kid i).n + 1)
  else if 0 < i then
    join (P.kid (i - 1)) (P.kid i) (P.keys (i - 1)) (P.drs (i - 1)) 0
      ((P.kid (i - 1)).n + 1 + (P.kid i).n)
  else
    join (P.kid i) (P.kid (i + 1)) (P.keys i) (P.drs i) 0 ((P.kid i).n + 1 + (P.kid (i + 1)).n)

end Page

@[simp] theorem Sub.page_node (a : Nat) (nd : BtN α) (kid : Nat → Sub α d) :
    (Sub.node a nd kid).page = ⟨nd.n, nd.keys, nd.dr, kid⟩ := rfl

theorem Sub.page_n : ∀ T : Sub α (d + 1), T.page.n = T.size
  | .node _ _ _ => rfl

theorem Sub.page_keys : ∀ T : Sub α (d + 1), T.page.keys = T.top.keys
  | .node _ _ _ => rfl

theorem Sub.page_drs : ∀ T : Sub α (d + 1), T.page.drs = T.top.dr
  | .node _ _ _ => rfl

theorem Sub.page_kids : ∀ T : Sub α (d + 1), T.page.kids = T.kid
  | .node _ _ _ => rfl

/-! ## A node shows a page -/

/-- The node `H` is the stretch of the entries `E` and of the subtrees `G` that begins at `o`. -/
structure Spans (V : View α β) (H : Sub α (d + 1)) (E : Nat → β) (G : Nat → Sub α d) (o n : Nat) :
    Prop where
  size : H.size = n
  ent : ∀ j < n, V.entry H.top j = E (o + j)
  kid : ∀ j ≤ n, H.kid j = G (o + j)

/-- The view shows `P` in the node `H`. -/
structure Shows (V : View α β) (H : Sub α (d + 1)) (P : Page α d) : Prop where
  size : H.size = P.n
  ent : ∀ j < P.n, V.entry H.top j = V.see (P.keys j) (P.drs j)
  kid : ∀ j ≤ P.n, H.kid j = P.kids j

variable {V : View α β} {H y z : Sub α (d + 1)} {o n : Nat}

theorem Shows.rfl' (V : View α β) : ∀ H : Sub α (d + 1), Shows V H H.page
  | .node _ _ _ => ⟨rfl, fun _ _ => rfl, fun _ _ => rfl⟩

theorem PartOk.spans {E : Nat → β} {G : Nat → Sub α d} {nd : BtN α} (P : PartOk V nd E G o n) (a : Nat) :
    Spans V (Sub.node a nd (fun j => G (o + j))) E G o n :=
  ⟨P.num, P.ent, fun _ _ => rfl⟩

/-- A stretch of two nodes and the separator `e` between them shows the page of it. -/
theorem Spans.shows {e : α} {v : Nat}
    (h : Spans V H (joinE y.size (V.entry y.top) (V.see e v) (V.entry z.top)) (joinF y.size y.kid z.kid)
      o n) : Shows V H (Page.join y.page z.page e v o n) := by
  refine ⟨h.size, fun j hj => (h.ent j hj).trans ?_, fun j hj => (h.kid j hj).trans ?_⟩
  · simp only [Page.join, Sub.page_n, Sub.page_keys, Sub.page_drs, joinE]
    split_ifs <;> rfl
  · simp only [Page.join, Sub.page_n, Sub.page_kids]

end AlchemyDB
