/-
# The rows of an index after an addition has been undone

Two things undo an addition: the destroy pass of `_iAddMCI`, when the row turns out
not to belong into the index, and `delFromIndex`.  Here only the stored rows are
looked at, not the trees that have been left empty.  The destroy pass tells a tree
that was created a moment ago by its one key, and takes older trees with one key as
well; a removal follows the way that the destroy pass may have taken away.
-/
import AlchemyDB.Index.Multi
import AlchemyDB.Index.Undo

namespace AlchemyDB.Index

open Assoc

/-! ## Rows below a tree -/

namespace Nest

variable {d : Nat} {t : List (Aobj × Nest)} {k : Aobj} {s s' : Nest}

theorem rows_split (h : get? t k = some s) : (rows (d + 1) (tree t)).Perm
    ((rows d s).map (fun q => (k :: q.1, q.2)) ++ rows (d + 1) (tree (Assoc.del k t))) := by
  have hp := rows_perm (d := d) (perm_del h)
  rwa [rows_cons] at hp

theorem rows_set (h : get? t k = some s) : (rows (d + 1) (tree (Assoc.set k s' t))).Perm
    ((rows d s').map (fun q => (k :: q.1, q.2)) ++ rows (d + 1) (tree (Assoc.del k t))) := by
  have hp := rows_perm (d := d) (perm_set (w := s') h)
  rwa [rows_cons] at hp

theorem rows_put : (rows (d + 1) (tree (put k s' t))).Perm
    ((rows d s').map (fun q => (k :: q.1, q.2)) ++ rows (d + 1) (tree t)) := by
  have hp := rows_perm (d := d) (perm_put (k := k) (v := s') (l := t))
  rwa [rows_cons] at hp

theorem tag_perm_iff {l l' : List (List Aobj × (Aobj × Aobj))} :
    (l.map fun q => (k :: q.1, q.2)).Perm (l'.map fun q => (k :: q.1, q.2)) ↔ l.Perm l' := by
  refine List.map_perm_map_iff ?_
  rintro ⟨a, b⟩ ⟨a', b'⟩ h
  simp only [Prod.mk.injEq, List.cons.injEq, true_and] at h
  exact Prod.ext h.1 h.2

/-- The rows of a tree in which one subtree has been exchanged. -/
theorem rows_set_perm_iff (h : get? t k = some s) :
    (rows (d + 1) (tree (Assoc.set k s' t))).Perm (rows (d + 1) (tree t)) ↔
      (rows d s').Perm (rows d s) := by
  rw [((rows_set h).congr_left _), ((rows_split h).congr_right _), List.perm_append_right_iff,
    tag_perm_iff]

/-- A tree with one key holds the rows below it. -/
theorem rows_del_one (h : get? t k = some s) (hl : t.length = 1) :
    (rows (d + 1) (tree (Assoc.del k t))).Perm (rows (d + 1) (tree t)) ↔ rows d s = [] := by
  have hdel : Assoc.del k t = [] := by
    have := length_del h
    exact List.length_eq_zero_iff.1 (by omega)
  rw [((rows_split h).congr_right _), hdel, show rows (d + 1) (tree []) = [] from rfl,
    List.append_nil, List.nil_perm, List.map_eq_nil_iff]

variable {new : Leaf} {f : Leaf → Added × Leaf} {g : Leaf → Option Leaf}

/-! ## The destroy pass -/

/-- Down to the first empty column, a tree with one key leads to no row. -/
def spared : List (Option Aobj) → Nest → Prop
  | some k :: p, tree t =>
      match get? t k with
      | some s => if t.length = 1 then rows p.length s = [] else spared p s
      | none => True
  | _, _ => True

theorem spared_fresh : ∀ p : List (Option Aobj), spared p (fresh new p.length)
  | [] => trivial
  | none :: _ => trivial
  | some _ :: _ => trivial

/-- A destroy pass behind an addition that has not entered the row. -/
theorem destroy_add_iff (hf : ∀ l, (f l).1 ≠ .ok → (f l).2 = l) (hempty : new.ents = []) :
    ∀ {p : List (Option Aobj)} {t : Nest}, (add new f p t).1 ≠ .ok →
      ((rows p.length (destroy p (add new f p t).2)).Perm (rows p.length t) ↔ spared p t)
  | [], leaf l, h => by
      have hl : (f l).2 = l := hf l h
      simp [add, destroy, spared, hl]
  | [], tree _, _ => by simp [add, destroy, spared]
  | none :: _, _, _ => by simp [add, destroy, spared]
  | some _ :: _, leaf _, _ => by simp [add, destroy, spared]
  | some k :: p, tree t, h => by
      have h' : (add new f p ((get? t k).getD (fresh new p.length))).1 ≠ .ok := h
      have ih := destroy_add_iff hf hempty h'
      rw [add_cons, List.length_cons]
      cases hg : get? t k with
      | some s =>
          rw [hg, Option.getD_some] at ih
          have hg' : get? (Assoc.set k (add new f p s).2 t) k = some (add new f p s).2 := by
            rw [get?_set hg, if_pos rfl]
          rw [destroy_cons k p hg', length_set hg, del_set, set_set]
          simp only [spared, hg]
          by_cases hl : t.length = 1
          · rw [if_pos hl, if_pos hl, rows_del_one hg hl]
          · rw [if_neg hl, if_neg hl, rows_set_perm_iff hg, ih]
      | none =>
          rw [hg, Option.getD_none] at ih
          have hg' : get? (put k (add new f p (fresh new p.length)).2 t) k =
              some (add new f p (fresh new p.length)).2 := by
            rw [get?_put hg, if_pos rfl]
          rw [destroy_cons k p hg', length_put, del_put hg, set_put hg]
          simp only [spared, hg, iff_true]
          split
          · exact .refl _
          · have hnil := ih.2 (spared_fresh p)
            rw [rows_fresh new hempty] at hnil
            refine rows_put.trans ?_
            rw [List.perm_nil.1 hnil]
            exact .refl _

/-! ## A removal behind an addition -/

/-- What the way up leaves under a key. -/
theorem rows_trickle {t : Nest} (d : Nat) {u v : List (Aobj × Nest)} {a : Nest} (hu : get? u k = some a)
    (hv : Assoc.del k u = v) : (rows (d + 1) (trickle k u (true, t)).2).Perm
      ((rows d t).map (fun q => (k :: q.1, q.2)) ++ rows (d + 1) (tree v)) := by
  subst hv
  simp only [trickle]
  split
  · rename_i hz
    rw [rows_nil hz]
    exact .refl _
  · exact rows_set hu

/-- A removal on a way without empty columns. -/
theorem rem_add_rows_iff (hempty : new.ents = []) : ∀ {d : Nat} {ks : List Aobj} {t : Nest},
    (ks.map some).length = d → Shape (fun _ => True) d t →
      ((∃ e, rem g (ks.map some) (add new f (ks.map some) t).2 = some e ∧
          (rows d e.2).Perm (rows d t)) ↔
        ∃ l', g (f ((bottom ks t).getD new)).2 = some l' ∧
          l'.ents.Perm ((bottom ks t).getD new).ents)
  | 0, [], leaf l, _, _ => by
      have hinj : Function.Injective fun e : Aobj × Aobj => (([] : List Aobj), e) :=
        fun _ _ h => congrArg Prod.snd h
      show (∃ e, (g (f l).2).map (fun l => (true, leaf l)) = some e ∧ _) ↔
        ∃ l', g (f l).2 = some l' ∧ l'.ents.Perm l.ents
      cases g (f l).2 with
      | none => simp
      | some l' => simp [rows, List.map_perm_map_iff hinj]
  | d + 1, k :: ks, tree t, hl, o => by
      obtain rfl : (ks.map some).length = d := Nat.succ.inj hl
      have os : Shape (fun _ => True) _ ((get? t k).getD (fresh new _)) := o.getD trivial k
      have ih := rem_add_rows_iff hempty rfl os
      rw [bottom_getD] at ih
      rw [← ih, List.map_cons, add_cons]
      have htrue : ∀ b s', rem g (ks.map some) (add new f (ks.map some)
          ((get? t k).getD (fresh new (ks.map some).length))).2 = some (b, s') → b = true :=
        fun b s' hr => rem_true (List.length_map some ▸ rfl) (shape_add (fun _ h => h) trivial rfl os) hr
      cases hg : get? t k with
      | some s =>
          rw [hg, Option.getD_some] at htrue
          simp only [Option.getD_some]
          have hu : get? (Assoc.set k (add new f (ks.map some) s).2 t) k =
              some (add new f (ks.map some) s).2 := by rw [get?_set hg, if_pos rfl]
          rw [rem_cons k _ hu]
          cases hr : rem g (ks.map some) (add new f (ks.map some) s).2 with
          | none => simp
          | some e =>
              obtain ⟨b, s'⟩ := e
              obtain rfl := htrue b s' hr
              have hp := rows_trickle (ks.map some).length (t := s') hu (del_set k _ t)
              simp only [Option.map_some, Option.some.injEq, exists_eq_left']
              rw [hp.congr_left, (rows_split hg).congr_right, List.perm_append_right_iff, tag_perm_iff]
      | none =>
          rw [hg, Option.getD_none] at htrue
          simp only [Option.getD_none]
          have hu : get? (put k (add new f (ks.map some) (fresh new (ks.map some).length)).2 t) k =
              some (add new f (ks.map some) (fresh new (ks.map some).length)).2 := by
            rw [get?_put hg, if_pos rfl]
          rw [rem_cons k _ hu]
          cases hr : rem g (ks.map some)
              (add new f (ks.map some) (fresh new (ks.map some).length)).2 with
          | none => simp
          | some e =>
              obtain ⟨b, s'⟩ := e
              obtain rfl := htrue b s' hr
              have hp := rows_trickle (ks.map some).length (t := s') hu (del_put hg)
              simp only [Option.map_some, Option.some.injEq, exists_eq_left']
              rw [hp.congr_left, rows_fresh new hempty, List.perm_nil,
                ← List.nil_append (rows _ (tree t)), ← List.append_assoc, List.append_nil,
                List.perm_append_right_iff, List.perm_nil, List.map_eq_nil_iff]

/-- The way down to the first empty column: the destroy pass takes no row away, and what it leaves
leads down again.  A tree that the removal finds missing is not followed when the next column is the
empty one. -/
def passable : List (Option Aobj) → Nest → Prop
  | some k :: p, tree t =>
      match get? t k with
      | some s => if t.length = 1 then rows p.length s = [] ∧ p.head? = some none else passable p s
      | none => p.head? = some none ∨ (t ≠ [] ∧ p.tail.head? = some none)
  | _, _ => True

/-- Below a tree that is new there is one more level to go down. -/
theorem passable_fresh {p : List (Option Aobj)} (hp : none ∈ p) :
    passable p (fresh new p.length) ↔ p.head? = some none ∨ p.tail.head? = some none := by
  cases p with
  | nil => cases hp
  | cons a p =>
      cases a with
      | none => simp [passable]
      | some k => simp [passable, fresh]

/-- A removal that finds an empty column. -/
theorem rem_add_skip_iff (hf : ∀ l, (f l).1 ≠ .ok → (f l).2 = l) (hempty : new.ents = []) :
    ∀ {p : List (Option Aobj)} {t : Nest}, none ∈ p →
      ((∃ e, rem g p (destroy p (add new f p t).2) = some e ∧
          (rows p.length e.2).Perm (rows p.length t)) ↔ passable p t)
  | none :: p, t, _ => by simp [add, destroy, rem, passable]
  | some _ :: _, leaf _, _ => by simp [add, destroy, rem, passable]
  | some k :: p, tree t, h => by
      have hp : none ∈ p := by simpa using h
      rw [add_cons, List.length_cons]
      -- behind an empty column the removal leaves the tree as it is
      have hdown : ∀ {u : List (Aobj × Nest)} {a : Nest}, get? u k = some a →
          ((∃ e, rem g (some k :: p) (tree u) = some e ∧
            (rows (p.length + 1) e.2).Perm (rows (p.length + 1) (tree t))) ↔
            (∃ e, rem g p a = some e) ∧
              (rows (p.length + 1) (tree u)).Perm (rows (p.length + 1) (tree t))) := by
        intro u a hu
        rw [rem_cons k p hu]
        rcases rem_skip (g := g) (t := a) hp with h | h
        · simp [h]
        · simp [h, trickle]
      cases hg : get? t k with
      | some s =>
          have ih := rem_add_skip_iff hf hempty (t := s) hp
          have hg' : get? (Assoc.set k (add new f p s).2 t) k = some (add new f p s).2 := by
            rw [get?_set hg, if_pos rfl]
          rw [destroy_cons k p hg', length_set hg, del_set, set_set]
          simp only [passable, hg]
          by_cases hl : t.length = 1
          · have hdel : Assoc.del k t = [] := by
              have := length_del hg
              exact List.length_eq_zero_iff.1 (by omega)
            rw [if_pos hl, if_pos hl, ← rows_del_one hg hl, hdel]
            by_cases hh : p.head? = some none
            · simp [rem, hh]
            · simp [rem, hh]
          · rw [if_neg hl, if_neg hl, hdown (show _ = some _ by rw [get?_set hg, if_pos rfl]),
              rows_set_perm_iff hg, ← ih]
            rcases rem_skip (g := g) (t := destroy p (add new f p s).2) hp with h | h
            · simp [h]
            · simp [h]
      | none =>
          have ih := rem_add_skip_iff hf hempty (t := fresh new p.length) hp
          have hg' : get? (put k (add new f p (fresh new p.length)).2 t) k =
              some (add new f p (fresh new p.length)).2 := by
            rw [get?_put hg, if_pos rfl]
          rw [destroy_cons k p hg', length_put, del_put hg, set_put hg]
          simp only [passable, hg]
          by_cases hl : t = []
          · subst hl
            by_cases hh : p.head? = some none
            · simp [rem, hh]
            · simp [rem, hh]
          · have hlen : ¬ t.length + 1 = 1 := fun h => hl (List.length_eq_zero_iff.1 (by omega))
            have hrows : (rows (p.length + 1) (tree (put k (destroy p
                (add new f p (fresh new p.length)).2) t))).Perm (rows (p.length + 1) (tree t)) := by
              have hnil := (destroy_add_iff hf hempty (p := p) (t := fresh new p.length)
                (by rw [add_skip hp]; simp)).2 (spared_fresh p)
              rw [rows_fresh new hempty] at hnil
              refine rows_put.trans ?_
              rw [List.perm_nil.1 hnil]
              exact .refl _
            rw [if_neg hlen, hdown (show _ = some _ by rw [get?_put hg, if_pos rfl])]
            rw [passable_fresh hp] at ih
            have hex : (∃ e, rem g p (destroy p (add new f p (fresh new p.length)).2) = some e) ↔
                p.head? = some none ∨ p.tail.head? = some none := by
              rw [← ih]
              constructor
              · rintro ⟨e, he⟩
                refine ⟨e, he, ?_⟩
                rcases rem_skip (g := g) (t := destroy p (add new f p (fresh new p.length)).2) hp
                  with h | h
                · rw [h] at he
                  cases he
                · rw [h] at he
                  cases he
                  exact (destroy_add_iff hf hempty (by rw [add_skip hp]; simp)).2 (spared_fresh p)
              · rintro ⟨e, he, -⟩
                exact ⟨e, he⟩
            rw [hex]
            simp [hrows, hl]

/-- The way down of a unique index when the last column is empty: the destroy pass takes no tree
away, and the tree at the bottom is kept by the removal of the empty value. -/
def passableU (U : Leaf → Prop) (new : Leaf) : List Aobj → Nest → Prop
  | k :: ks, tree t =>
      match get? t k with
      | some s => t.length ≠ 1 ∧ passableU U new ks s
      | none => ks = [] ∧ t ≠ [] ∧ U new
  | _, leaf l => U l
  | _, _ => True

/-- A removal of a row whose last column is empty. -/
theorem rem_addU_iff {U : Leaf → Prop} (hf : ∀ l, (f l).2 = l)
    (hU : ∀ l, (∃ l', g l = some l' ∧ l'.ents.Perm l.ents) ↔ U l) (hempty : new.ents = []) :
    ∀ {d : Nat} {ks : List Aobj} {t : Nest}, (ks.map some).length = d → Shape (fun _ => True) d t →
      ((∃ e, rem g (ks.map some) (destroy (ks.map some) (add new f (ks.map some) t).2) = some e ∧
          (rows d e.2).Perm (rows d t)) ↔ passableU U new ks t)
  | 0, [], leaf l, _, _ => by
      have hinj : Function.Injective fun e : Aobj × Aobj => (([] : List Aobj), e) :=
        fun _ _ h => congrArg Prod.snd h
      show (∃ e, (g (f l).2).map (fun l => (true, leaf l)) = some e ∧ _) ↔ U l
      rw [← hU, hf]
      cases g l with
      | none => simp
      | some l' => simp [rows, List.map_perm_map_iff hinj]
  | d + 1, k :: ks, tree t, hl, o => by
      obtain rfl : (ks.map some).length = d := Nat.succ.inj hl
      have os : Shape (fun _ => True) _ ((get? t k).getD (fresh new _)) := o.getD trivial k
      have ih := rem_addU_iff hf hU hempty rfl os
      rw [List.map_cons, add_cons]
      have htrue : ∀ b s', rem g (ks.map some) (destroy (ks.map some) (add new f (ks.map some)
          ((get? t k).getD (fresh new (ks.map some).length))).2) = some (b, s') → b = true :=
        fun b s' hr => rem_true (List.length_map some ▸ rfl)
          (shape_destroy (shape_add (fun _ h => h) trivial rfl os)) hr
      cases hg : get? t k with
      | some s =>
          rw [hg, Option.getD_some] at ih htrue
          have hu : get? (Assoc.set k (add new f (ks.map some) s).2 t) k =
              some (add new f (ks.map some) s).2 := by rw [get?_set hg, if_pos rfl]
          rw [destroy_cons k _ hu, length_set hg, del_set, set_set]
          simp only [passableU, hg]
          by_cases hone : t.length = 1
          · have hdel : Assoc.del k t = [] := by
              have := length_del hg
              exact List.length_eq_zero_iff.1 (by omega)
            rw [if_pos hone, hdel, rem_absent k ks (get?_nil)]
            simp [hone]
          · have hu' : get? (Assoc.set k (destroy (ks.map some) (add new f (ks.map some) s).2) t) k =
                some (destroy (ks.map some) (add new f (ks.map some) s).2) := by
              rw [get?_set hg, if_pos rfl]
            rw [if_neg hone, rem_cons k _ hu', ← ih]
            simp only [ne_eq, hone, not_false_eq_true, true_and]
            cases hr : rem g (ks.map some) (destroy (ks.map some) (add new f (ks.map some) s).2) with
            | none => simp
            | some e =>
                obtain ⟨b, s'⟩ := e
                obtain rfl := htrue b s' hr
                have hp := rows_trickle (ks.map some).length (t := s') hu' (del_set k _ t)
                simp only [Option.map_some, Option.some.injEq, exists_eq_left']
                rw [hp.congr_left, (rows_split hg).congr_right, List.perm_append_right_iff, tag_perm_iff]
      | none =>
          rw [hg, Option.getD_none] at ih htrue
          have hu : get? (put k (add new f (ks.map some) (fresh new (ks.map some).length)).2 t) k =
              some (add new f (ks.map some) (fresh new (ks.map some).length)).2 := by
            rw [get?_put hg, if_pos rfl]
          rw [destroy_cons k _ hu, length_put, del_put hg, set_put hg]
          simp only [passableU, hg]
          by_cases hnil : t = []
          · subst hnil
            simp [rem_absent k ks get?_nil]
          · have hone : ¬ t.length + 1 = 1 := fun h => hnil (List.length_eq_zero_iff.1 (by omega))
            have hu' : get? (put k (destroy (ks.map some)
                (add new f (ks.map some) (fresh new (ks.map some).length)).2) t) k = some (destroy
                (ks.map some) (add new f (ks.map some) (fresh new (ks.map some).length)).2) := by
              rw [get?_put hg, if_pos rfl]
            have hfresh : passableU U new ks (fresh new (ks.map some).length) ↔ ks = [] ∧ U new := by
              cases ks with
              | nil => simp [passableU, fresh]
              | cons k' ks => simp [passableU, fresh]
            rw [if_neg hone, rem_cons k _ hu']
            rw [hfresh] at ih
            simp only [ne_eq, hnil, not_false_eq_true, true_and]
            rw [← ih]
            cases hr : rem g (ks.map some) (destroy (ks.map some)
                (add new f (ks.map some) (fresh new (ks.map some).length)).2) with
            | none => simp
            | some e =>
                obtain ⟨b, s'⟩ := e
                obtain rfl := htrue b s' hr
                have hp := rows_trickle (ks.map some).length (t := s') hu' (del_put hg)
                simp only [Option.map_some, Option.some.injEq, exists_eq_left']
                rw [hp.congr_left, rows_fresh new hempty, List.perm_nil,
                  ← List.nil_append (rows _ (tree t)), ← List.append_assoc, List.append_nil,
                  List.perm_append_right_iff, List.perm_nil, List.map_eq_nil_iff]

end Nest

/-! ## At the bottom -/

namespace Leaf

variable {l : Leaf} {a : Option Aobj} {pk : Aobj}

/-- What is entered under `a` is the entry that is found there. -/
def Returned (l : Leaf) (a : Option Aobj) (pk : Aobj) : Prop :=
  ∀ k, createBTKey l.kind a = some k → (createStream l.kind a pk).1 = k ∧
    (l.kind = .inode .u128 → l.ents.length < 7) ∧
    ∀ v, get? l.ents k = some v → v = (createStream l.kind a pk).2

theorem get?_put_there {l : List (Aobj × Aobj)} {k v w : Aobj}
    (hs : l.Pairwise fun e e' => ¬ e'.1 < e.1) (hg : get? l k = some v) :
    get? (put k w l) k = some v := by
  induction l with
  | nil => simp at hg
  | cons e l ih =>
      obtain ⟨he, hs⟩ := List.pairwise_cons.1 hs
      rw [get?_cons] at hg
      unfold put
      by_cases hk : e.1 = k
      · rw [if_pos hk] at hg
        rw [if_neg (by rw [hk]; exact Aobj.lt_irrefl k), get?_cons, if_pos hk, hg]
      · rw [if_neg hk] at hg
        have hlt : ¬ k < e.1 := he (k, v) (mem_of_get? hg)
        rw [if_neg hlt, get?_cons, if_neg hk, ih hs hg]

/-- Removing what has just been added takes that entry out. -/
theorem del_add_rows_iff (hs : l.Sorted) :
    (∃ l', (l.add a pk).del a = some l' ∧ l'.ents.Perm l.ents) ↔ l.Returned a pk := by
  unfold Returned
  cases hk : createBTKey l.kind a with
  | none => simp [add, del, hk]
  | some k =>
      have hadd : l.add a pk = { l with
          ents := put (createStream l.kind a pk).1 (createStream l.kind a pk).2 l.ents } := by
        unfold add
        rw [hk]
      generalize createStream l.kind a pk = e at hadd ⊢
      have hgr : (l.add a pk).Granted ↔ (l.kind = .inode .u128 → l.ents.length < 7) := by
        rw [hadd]
        simp only [Granted, length_put]
        exact forall_congr' fun _ => Nat.lt_iff_add_one_le.symm
      have hdel : (l.add a pk).del a =
          if (get? (put e.1 e.2 l.ents) k).isSome ∧ (l.add a pk).Granted then
            some { l with ents := Assoc.del k (put e.1 e.2 l.ents) } else none := by
        unfold del
        rw [show (l.add a pk).kind = l.kind by rw [hadd], hk]
        simp only [show (l.add a pk).ents = put e.1 e.2 l.ents by rw [hadd]]
      -- the entry that is taken out is the one that was added
      have hout : ∀ w, get? (put e.1 e.2 l.ents) k = some w →
          ((Assoc.del k (put e.1 e.2 l.ents)).Perm l.ents ↔ (k, w) = e) := by
        intro w hw
        have hp := (perm_del hw).symm.trans perm_put
        constructor
        · intro h
          exact eq_of_perm_cons ((h.cons (k, w)).symm.trans hp)
        · intro h
          rw [h] at hp
          exact (List.perm_cons _).1 hp
      rw [hdel]
      constructor
      · rintro ⟨l', hl', hperm⟩ k' hk'
        obtain rfl := Option.some.inj hk'
        obtain ⟨⟨hsome, hg⟩, hl'⟩ := Option.ite_none_right_eq_some.1 hl'
        cases hl'
        obtain ⟨w, hw⟩ := Option.isSome_iff_exists.1 hsome
        have he := (hout w hw).1 hperm
        have h1 : e.1 = k := (congrArg Prod.fst he).symm
        refine ⟨h1, hgr.1 hg, fun v hv => ?_⟩
        rw [h1, get?_put_there hs hv] at hw
        exact (Option.some.inj hw).trans (congrArg Prod.snd he)
      · intro h
        obtain ⟨h1, h2, h3⟩ := h k rfl
        have hw : get? (put e.1 e.2 l.ents) k = some e.2 := by
          rw [h1]
          cases hg : get? l.ents k with
          | none => rw [get?_put hg, if_pos rfl]
          | some v => rw [get?_put_there hs hg, h3 v hg]
        refine ⟨_, if_pos ⟨by rw [hw]; rfl, hgr.2 h2⟩, (hout _ hw).2 ?_⟩
        rw [← h1]

/-- The empty value takes an entry out where it is no null pointer. -/
theorem del_none_rows_iff :
    (∃ l', l.del none = some l' ∧ l'.ents.Perm l.ents) ↔ createBTKey l.kind none = none := by
  unfold del
  cases hk : createBTKey l.kind none with
  | none => simp
  | some k =>
      simp only [reduceCtorEq, iff_false]
      rintro ⟨l', hl', hperm⟩
      obtain ⟨⟨hsome, -⟩, hl'⟩ := Option.ite_none_right_eq_some.1 hl'
      cases hl'
      obtain ⟨w, hw⟩ := Option.isSome_iff_exists.1 hsome
      have h1 := length_del hw
      have h2 := hperm.length_eq
      simp only at h2
      omega

end Leaf

/-! ## Indexes -/

namespace Kind

/-- What is asked of the tree at the bottom. -/
def returnedLeaf (k : Kind) (r : Row) (l : Leaf) : Prop :=
  match k.look r with
  | none => True
  | some a => l.Returned a r.pk

theorem returnedLeaf_iff {k : Kind} {r : Row} {l : Leaf} (hs : l.Sorted) (he : k.lastEmpty r = false)
    (h : (k.leafAdd r l).1 ≠ .viol) :
    (∃ l', k.leafDel r (k.leafAdd r l).2 = some l' ∧ l'.ents.Perm l.ents) ↔ k.returnedLeaf r l := by
  simp only [leafDel_look]
  unfold returnedLeaf
  cases k.step r l with
  | viol a hl he hf h' => exact absurd (by rw [h']) h
  | added a hl he h' =>
      rw [h', hl]
      exact Leaf.del_add_rows_iff hs
  | idle s hl hm he hs h' =>
      rw [h', hl]
      exact ⟨fun _ => trivial, fun _ => ⟨l, rfl, .refl _⟩⟩
  | last he' hl h' => rw [he] at he'; cases he'

theorem leafAdd_idle {k : Kind} {r : Row} {l : Leaf} (h : (k.leafAdd r l).1 ≠ .ok) :
    (k.leafAdd r l).2 = l := by
  cases k.step r l with
  | viol a hl he hf h' => rw [h']
  | added a hl he h' => rw [h'] at h; exact absurd rfl h
  | idle s hl hm he hs h' => rw [h']
  | last he hl h' => rw [h']

end Kind

namespace Ind

variable {x : Ind} {r : Row}

/-- What is stored: the columns on the way down, and the entries at the bottom. -/
def contents (x : Ind) : List (List Aobj × (Aobj × Aobj)) := Nest.rows x.kind.depth x.tree

/-- What an addition and a removal ask of the index to give back the rows of before. -/
def Restorable (x : Ind) (r : Row) : Prop :=
  match whole (x.kind.path r) with
  | none => x.kind.multi = true → Nest.passable (x.kind.path r) x.tree
  | some ks =>
      if x.kind.lastEmpty r then
        Nest.passableU (fun l => createBTKey l.kind none = none) (x.kind.newLeaf r) ks x.tree
      else x.kind.returnedLeaf r ((Nest.bottom ks x.tree).getD (x.kind.newLeaf r))

theorem delFromIndex_rows_iff {k : Kind} {t : Nest} (hk : k = x.kind) :
    (∃ y, (⟨k, t⟩ : Ind).delFromIndex r = some y ∧ y.contents.Perm x.contents) ↔
      ∃ e, Nest.rem (k.leafDel r) (k.path r) t = some e ∧
        (Nest.rows k.depth e.2).Perm (Nest.rows k.depth x.tree) := by
  subst hk
  unfold delFromIndex contents
  cases Nest.rem (x.kind.leafDel r) (x.kind.path r) t with
  | none => simp
  | some e => simp

end Ind

end AlchemyDB.Index
