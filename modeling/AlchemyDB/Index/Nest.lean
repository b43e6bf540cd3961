/-
# Nested trees — the rows they hold

`rows` reads a nested tree as a list of rows: the keys on the way down and the
entry at the bottom.  As long as no tree below the top is empty and no key stands
twice in a tree (`Ok`), an accepted addition adds one row, a removal removes one,
and a removal undoes an addition exactly.
-/
import AlchemyDB.Index.Model

namespace AlchemyDB.Index

open Assoc

namespace Nest

/-- What a tree with `d` levels over the bottom reads: the keys on the way down, and the entry at
the bottom. -/
def rows : Nat → Nest → List (List Aobj × (Aobj × Aobj))
  | 0, leaf l => l.ents.map (fun e => ([], e))
  | d + 1, tree t => t.flatMap (fun e => (rows d e.2).map (fun q => (e.1 :: q.1, q.2)))
  | _, _ => []

/-- The tree at the bottom that a path leads to. -/
def bottom : List Aobj → Nest → Option Leaf
  | [], leaf l => some l
  | k :: ks, tree t => (get? t k).bind (bottom ks)
  | _, _ => none

/-- The tree has `d` levels over the bottom, no tree below the top is empty, no key stands twice in a
tree, and the trees at the bottom are as `Inv` says. -/
def Ok (Inv : Leaf → Prop) : Nat → Nest → Prop
  | 0, leaf l => Inv l
  | d + 1, tree t => (t.map Prod.fst).Nodup ∧ ∀ e ∈ t, numkeys e.2 ≠ 0 ∧ Ok Inv d e.2
  | _, _ => False

/-- The tree has `d` levels over the bottom. -/
def Shape (Inv : Leaf → Prop) : Nat → Nest → Prop
  | 0, leaf l => Inv l
  | d + 1, tree t => ∀ e ∈ t, Shape Inv d e.2
  | _, _ => False

theorem Ok.shape {Inv : Leaf → Prop} : ∀ {d : Nat} {t : Nest}, Ok Inv d t → Shape Inv d t
  | 0, leaf _, o => o
  | _ + 1, tree _, o => fun e he => (o.2 e he).2.shape

theorem Shape.sub {Inv : Leaf → Prop} {d : Nat} {t : List (Aobj × Nest)} {k : Aobj} {s : Nest}
    (o : Shape Inv (d + 1) (tree t)) (h : get? t k = some s) : Shape Inv d s :=
  o (k, s) (mem_of_get? h)

theorem shape_fresh {Inv : Leaf → Prop} {l : Leaf} (h : Inv l) : ∀ d, Shape Inv d (fresh l d)
  | 0 => h
  | _ + 1 => fun _ he => absurd he List.not_mem_nil

section Reading

variable {d : Nat}

theorem rows_cons (e : Aobj × Nest) (t : List (Aobj × Nest)) : rows (d + 1) (tree (e :: t)) =
    (rows d e.2).map (fun q => (e.1 :: q.1, q.2)) ++ rows (d + 1) (tree t) := by
  simp only [rows, List.flatMap_cons]

theorem rows_perm {t t' : List (Aobj × Nest)} (h : t.Perm t') :
    (rows (d + 1) (tree t)).Perm (rows (d + 1) (tree t')) := h.flatMap_right _

theorem rows_fresh (l : Leaf) (h : l.ents = []) : ∀ d, rows d (fresh l d) = []
  | 0 => by
      show l.ents.map _ = []
      rw [h]
      rfl
  | _ + 1 => rfl

theorem numkeys_fresh (l : Leaf) (h : l.ents = []) : ∀ d, numkeys (fresh l d) = 0
  | 0 => by
      show l.ents.length = 0
      rw [h]
      rfl
  | _ + 1 => rfl

variable {Inv : Leaf → Prop}

theorem ok_fresh {l : Leaf} (h : Inv l) : ∀ d, Ok Inv d (fresh l d)
  | 0 => h
  | _ + 1 => ⟨List.nodup_nil, fun _ he => absurd he List.not_mem_nil⟩

theorem Ok.sub {t : List (Aobj × Nest)} (o : Ok Inv (d + 1) (tree t)) {k : Aobj} {s : Nest}
    (h : get? t k = some s) : numkeys s ≠ 0 ∧ Ok Inv d s :=
  o.2 (k, s) (mem_of_get? h)

/-- A tree that holds a key holds a row. -/
theorem Ok.rows_ne : ∀ {d : Nat} {t : Nest}, Ok Inv d t → numkeys t ≠ 0 → rows d t ≠ []
  | 0, leaf l, _, h, hr => by
      have : l.ents = [] := List.map_eq_nil_iff.1 hr
      exact h (by simp [numkeys, this])
  | d + 1, tree [], _, h, _ => h rfl
  | d + 1, tree (e :: t), o, _, hr => by
      rw [rows_cons] at hr
      have h1 : rows d e.2 = [] := List.map_eq_nil_iff.1 (List.append_eq_nil_iff.1 hr).1
      obtain ⟨h2, h3⟩ := o.2 e List.mem_cons_self
      exact Ok.rows_ne h3 h2 h1

theorem rows_nil : ∀ {d : Nat} {t : Nest}, numkeys t = 0 → rows d t = []
  | 0, leaf l, h => by
      have : l.ents = [] := List.length_eq_zero_iff.1 h
      simp [rows, this]
  | d + 1, tree t, h => by
      have : t = [] := List.length_eq_zero_iff.1 h
      subst this
      rfl
  | 0, tree _, _ => rfl
  | _ + 1, leaf _, _ => rfl

end Reading

/-! ## Additions -/

section Add

variable {Inv : Leaf → Prop} {new : Leaf} {f : Leaf → Added × Leaf} {e : Aobj × Aobj}

/-- The tree under a key is replaced or entered. -/
theorem enter_perm (t : List (Aobj × Nest)) (k : Aobj) (s s₀ : Nest) :
    ∃ u, (Assoc.set k s (if (get? t k).isSome then t else put k s₀ t)).Perm ((k, s) :: u) ∧
      t.Perm ((match get? t k with | some w => [(k, w)] | none => []) ++ u) := by
  cases h : get? t k with
  | some w =>
      refine ⟨Assoc.del k t, ?_, perm_del h⟩
      simp only [Option.isSome_some, if_true]
      exact perm_set h
  | none =>
      refine ⟨t, ?_, by simp⟩
      simp only [Option.isSome_none, Bool.false_eq_true, if_false]
      rw [set_put h]
      exact perm_put

theorem ok_enter {d : Nat} {t : List (Aobj × Nest)} {k : Aobj} {s : Nest} (s₀ : Nest)
    (o : Ok Inv (d + 1) (tree t)) (hs : numkeys s ≠ 0) (hos : Ok Inv d s) :
    Ok Inv (d + 1) (tree (Assoc.set k s (if (get? t k).isSome then t else put k s₀ t))) := by
  obtain ⟨u, hu, ht⟩ := enter_perm t k s s₀
  have hsub : ∀ a ∈ u, a ∈ t := fun a ha => ht.symm.subset (List.mem_append_right _ ha)
  refine ⟨?_, fun a ha => ?_⟩
  · refine (hu.map Prod.fst).nodup_iff.2 ?_
    rw [List.map_cons, List.nodup_cons]
    have hnd := (ht.map Prod.fst).nodup_iff.1 o.1
    cases h : get? t k with
    | some w =>
        rw [h] at hnd
        simpa using hnd
    | none =>
        rw [h] at hnd
        refine ⟨?_, by simpa using hnd⟩
        intro hk
        obtain ⟨a, ha, rfl⟩ := List.mem_map.1 hk
        exact get?_eq_none.1 h a (hsub a ha) rfl
  · rcases List.mem_cons.1 (hu.subset ha) with rfl | ha
    · exact ⟨hs, hos⟩
    · exact o.2 a (hsub a ha)

/-- The tree that an addition goes on in. -/
theorem Ok.getD {d : Nat} {t : List (Aobj × Nest)} (o : Ok Inv (d + 1) (tree t)) (hnew : Inv new)
    (k : Aobj) : Ok Inv d ((get? t k).getD (fresh new d)) := by
  cases hg : get? t k with
  | some s => exact (o.sub hg).2
  | none => exact ok_fresh hnew d

theorem Shape.getD {d : Nat} {t : List (Aobj × Nest)} (o : Shape Inv (d + 1) (tree t))
    (hnew : Inv new) (k : Aobj) : Shape Inv d ((get? t k).getD (fresh new d)) := by
  cases hg : get? t k with
  | some s => exact o.sub hg
  | none => exact shape_fresh hnew d

theorem bottom_fresh : ∀ ks : List Aobj, (bottom ks (fresh new (ks.map some).length)).getD new = new
  | [] => rfl
  | _ :: _ => rfl

/-- The tree at the bottom is the one an addition reaches. -/
theorem bottom_getD (k : Aobj) (ks : List Aobj) (t : List (Aobj × Nest)) :
    (bottom ks ((get? t k).getD (fresh new (ks.map some).length))).getD new =
      (bottom (k :: ks) (tree t)).getD new := by
  cases hg : get? t k with
  | some s => simp [bottom, hg]
  | none =>
      rw [Option.getD_none, bottom_fresh]
      simp [bottom, hg]

/-- How an addition ends is decided at the bottom. -/
theorem add_fst (hnew : Inv new) : ∀ {d : Nat} {ks : List Aobj} {t : Nest},
    (ks.map some).length = d → Shape Inv d t →
      (add new f (ks.map some) t).1 = (f ((bottom ks t).getD new)).1
  | 0, [], leaf l, _, _ => rfl
  | d + 1, k :: ks, tree t, hl, o => by
      obtain rfl : (ks.map some).length = d := Nat.succ.inj hl
      have ih := add_fst hnew rfl (o.getD hnew k)
      rw [bottom_getD] at ih
      exact ih

/-- An addition that is accepted adds one row. -/
theorem add_ok (hnew : Inv new) (hempty : new.ents = []) : ∀ {d : Nat} {ks : List Aobj} {t : Nest},
    (ks.map some).length = d → Ok Inv d t →
      Inv (f ((bottom ks t).getD new)).2 →
      (f ((bottom ks t).getD new)).2.ents.Perm (e :: ((bottom ks t).getD new).ents) →
      Ok Inv d (add new f (ks.map some) t).2 ∧ numkeys (add new f (ks.map some) t).2 ≠ 0 ∧
        (rows d (add new f (ks.map some) t).2).Perm ((ks, e) :: rows d t)
  | 0, [], leaf l, _, o, h1, h2 => by
      refine ⟨h1, fun h => ?_, h2.map _⟩
      have hlen : (f l).2.ents.length = (e :: l.ents).length := h2.length_eq
      exact Nat.succ_ne_zero _ (hlen.symm.trans h)
  | d + 1, k :: ks, tree t, hl, o, hi, hp => by
      obtain rfl : (ks.map some).length = d := Nat.succ.inj hl
      rw [← bottom_getD] at hi hp
      obtain ⟨h1, h2, h3⟩ := add_ok hnew hempty rfl (o.getD hnew k) hi hp
      obtain ⟨u, h5, h6⟩ := enter_perm t k (add new f (ks.map some) ((get? t k).getD
        (fresh new (ks.map some).length))).2 (fresh new (ks.map some).length)
      refine ⟨ok_enter (fresh new (ks.map some).length) o h2 h1, ?_, ?_⟩
      · show List.length _ ≠ 0
        rw [h5.length_eq]
        exact Nat.succ_ne_zero _
      · refine (rows_perm h5).trans ?_
        rw [rows_cons]
        have ht := rows_perm (d := (ks.map some).length) h6
        refine ((h3.map _).append_right _).trans (List.Perm.cons _ ?_)
        refine List.Perm.trans ?_ ht.symm
        cases hg : get? t k with
        | some s =>
            rw [show [(k, s)] ++ u = (k, s) :: u from rfl, rows_cons]
            exact .refl _
        | none =>
            rw [Option.getD_none, rows_fresh new hempty]
            exact .refl _

theorem add_fresh_viol (hnew : (f new).1 ≠ .viol) : ∀ (p : List (Option Aobj)),
    (add new f p (fresh new p.length)).1 ≠ .viol
  | [] => hnew
  | none :: _ => by simp [add]
  | some _ :: p => add_fresh_viol hnew p

/-- An addition that is rejected leaves the tree as it was. -/
theorem add_viol (hf : ∀ l, (f l).1 = .viol → (f l).2 = l) (hnew : (f new).1 ≠ .viol) :
    ∀ {p : List (Option Aobj)} {t : Nest}, (add new f p t).1 = .viol → (add new f p t).2 = t
  | [], leaf l, h => by
      show leaf (f l).2 = leaf l
      rw [hf l h]
  | some k :: p, tree t, h => by
      have h' : (add new f p ((get? t k).getD (fresh new p.length))).1 = .viol := h
      show tree (Assoc.set k (add new f p ((get? t k).getD (fresh new p.length))).2
        (if (get? t k).isSome then t else put k (fresh new p.length) t)) = tree t
      cases hg : get? t k with
      | none =>
          rw [hg] at h'
          exact absurd h' (add_fresh_viol hnew p)
      | some s =>
          rw [hg] at h'
          have hs := add_viol hf hnew h'
          simp only [Option.isSome_some, if_true]
          rw [hs, Option.getD_some, set_same hg]
  | [], tree _, _ => rfl
  | none :: _, _, _ => by simp only [add]
  | some _ :: _, leaf _, _ => rfl

end Add

/-! ## Removals -/

section Rem

variable {Inv : Leaf → Prop} {f : Leaf → Option Leaf} {e : Aobj × Aobj}

/-- A row in a tree is in the tree under its first key. -/
theorem mem_rows_tree {d : Nat} {k : Aobj} {ks : List Aobj} : ∀ {t : List (Aobj × Nest)},
    (t.map Prod.fst).Nodup → (k :: ks, e) ∈ rows (d + 1) (tree t) → ∃ s, get? t k = some s ∧ (ks, e) ∈ rows d s
  | a :: t, hnd, h => by
      rw [List.map_cons, List.nodup_cons] at hnd
      rw [rows_cons, List.mem_append] at h
      rw [get?_cons]
      rcases h with h | h
      · obtain ⟨q, hq, heq⟩ := List.mem_map.1 h
        cases heq
        exact ⟨a.2, if_pos rfl, hq⟩
      · obtain ⟨s, hs, hr⟩ := mem_rows_tree hnd.2 h
        have hne : a.1 ≠ k := by
          rintro rfl
          exact hnd.1 (List.mem_map.2 ⟨_, mem_of_get? hs, rfl⟩)
        exact ⟨s, by rw [if_neg hne, hs], hr⟩

theorem ok_set {d : Nat} {t : List (Aobj × Nest)} {k : Aobj} {s s' : Nest}
    (o : Ok Inv (d + 1) (tree t)) (hg : get? t k = some s) (hs : numkeys s' ≠ 0) (hos : Ok Inv d s') :
    Ok Inv (d + 1) (tree (Assoc.set k s' t)) := by
  have h := ok_enter (k := k) s' o hs hos
  rw [hg] at h
  simpa using h

theorem ok_del {d : Nat} {t : List (Aobj × Nest)} {k : Aobj} {s : Nest}
    (o : Ok Inv (d + 1) (tree t)) (hg : get? t k = some s) : Ok Inv (d + 1) (tree (Assoc.del k t)) := by
  have hp := perm_del hg
  refine ⟨?_, fun a ha => o.2 a (hp.symm.subset (List.mem_cons_of_mem _ ha))⟩
  have hnd := (hp.map Prod.fst).nodup_iff.1 o.1
  rw [List.map_cons, List.nodup_cons] at hnd
  exact hnd.2

/-- The entries of the tree at the bottom that a path leads to. -/
def under (ks : List Aobj) (t : Nest) : List (Aobj × Aobj) :=
  match bottom ks t with
  | some l => l.ents
  | none => []

theorem rows_head {d : Nat} {k : Aobj} : ∀ {t : List (Aobj × Nest)}, get? t k = none →
    ∀ q ∈ rows (d + 1) (tree t), q.1.head? ≠ some k
  | [], _, q, hq => absurd hq List.not_mem_nil
  | e :: t, hg, q, hq => by
      rw [get?_cons] at hg
      split at hg
      · cases hg
      · rename_i hne
        rw [rows_cons, List.mem_append] at hq
        rcases hq with hq | hq
        · obtain ⟨w, _, rfl⟩ := List.mem_map.1 hq
          simpa using hne
        · exact rows_head hg q hq

/-- The rows under one key of a tree. -/
theorem rows_filter_key {d : Nat} {k : Aobj} {ks : List Aobj} {s : Nest} :
    ∀ {t : List (Aobj × Nest)}, (t.map Prod.fst).Nodup → get? t k = some s →
      (rows (d + 1) (tree t)).filter (fun q => decide (q.1 = k :: ks)) =
        ((rows d s).filter fun q => decide (q.1 = ks)).map (fun q => (k :: q.1, q.2))
  | e :: t, hnd, hg => by
      rw [List.map_cons, List.nodup_cons] at hnd
      rw [get?_cons] at hg
      rw [rows_cons, List.filter_append, List.filter_map]
      split at hg
      · rename_i he
        obtain rfl := Option.some.inj hg
        have hrest : get? t k = none :=
          get?_eq_none.2 fun a ha hk => hnd.1 (List.mem_map.2 ⟨a, ha, hk.trans he.symm⟩)
        have hnil : (rows (d + 1) (tree t)).filter (fun q => decide (q.1 = k :: ks)) = [] := by
          rw [List.filter_eq_nil_iff]
          intro q hq h
          exact rows_head hrest q hq (by rw [of_decide_eq_true h]; rfl)
        rw [hnil, List.append_nil, he]
        congr 2
        funext q
        simp
      · rename_i he
        have hnil : (rows d e.2).filter ((fun q : List Aobj × (Aobj × Aobj) =>
            decide (q.1 = k :: ks)) ∘ fun q => (e.1 :: q.1, q.2)) = [] := by
          rw [List.filter_eq_nil_iff]
          intro q _ h
          simp only [Function.comp_apply, List.cons.injEq, decide_eq_true_eq] at h
          exact he h.1
        rw [hnil, List.map_nil, List.nil_append]
        exact rows_filter_key hnd.2 hg

/-- The rows of one path are the entries at its end. -/
theorem rows_filter : ∀ {d : Nat} {ks : List Aobj} {t : Nest}, Ok Inv d t →
    (rows d t).filter (fun q => decide (q.1 = ks)) = (under ks t).map (fun e => (ks, e))
  | 0, [], leaf l, _ => by
      simp only [rows, under, bottom, List.filter_map]
      congr 1
      exact List.filter_eq_self.2 fun _ _ => rfl
  | 0, k :: ks, leaf l, _ => by
      simp only [rows, under, bottom, List.map_nil, List.filter_map]
      rw [List.map_eq_nil_iff]
      exact List.filter_eq_nil_iff.2 fun _ _ h => by simp at h
  | d + 1, [], tree t, _ => by
      simp only [under, bottom, List.map_nil]
      rw [List.filter_eq_nil_iff]
      intro q hq h
      obtain ⟨e, _, hq⟩ := List.mem_flatMap.1 hq
      obtain ⟨w, _, rfl⟩ := List.mem_map.1 hq
      simp at h
  | d + 1, k :: ks, tree t, o => by
      cases hg : get? t k with
      | none =>
          have hnil : under (k :: ks) (tree t) = [] := by simp [under, bottom, hg]
          rw [hnil, List.map_nil, List.filter_eq_nil_iff]
          intro q hq h
          exact rows_head hg q hq (by rw [of_decide_eq_true h]; rfl)
      | some s =>
          have hsub : under (k :: ks) (tree t) = under ks s := by simp [under, bottom, hg]
          have ih : (rows d s).filter (fun q => decide (q.1 = ks)) =
              (under ks s).map (fun e => (ks, e)) := rows_filter (o.sub hg).2
          rw [rows_filter_key o.1 hg, ih, hsub, List.map_map]
          rfl

/-- The rows with one path are those of one tree at the bottom. -/
theorem mem_rows : ∀ {d : Nat} {ks : List Aobj} {t : Nest}, Ok Inv d t →
    ((ks, e) ∈ rows d t ↔ ∃ l, bottom ks t = some l ∧ e ∈ l.ents)
  | 0, [], leaf l, _ => by simp [rows, bottom]
  | 0, k :: ks, leaf l, _ => by simp [rows, bottom]
  | d + 1, [], tree t, _ => by simp [rows, bottom]
  | d + 1, k :: ks, tree t, o => by
      constructor
      · intro h
        obtain ⟨s, hs, hr⟩ := mem_rows_tree o.1 h
        obtain ⟨l, hl, he⟩ := (mem_rows (o.sub hs).2).1 hr
        exact ⟨l, by simp [bottom, hs, hl], he⟩
      · rintro ⟨l, hl, he⟩
        obtain ⟨s, hs, hl⟩ := Option.bind_eq_some_iff.1 hl
        have hr : (ks, e) ∈ rows d s := (mem_rows (o.sub hs).2).2 ⟨l, hl, he⟩
        exact List.mem_flatMap.2 ⟨(k, s), mem_of_get? hs, List.mem_map.2 ⟨(ks, e), hr, rfl⟩⟩

theorem bottom_sublist : ∀ {d : Nat} {ks : List Aobj} {t : Nest} {l : Leaf}, Ok Inv d t →
    bottom ks t = some l → (l.ents.map (fun e => (ks, e))).Sublist (rows d t)
  | 0, [], leaf l, _, _, h => by
      cases h
      exact List.Sublist.refl _
  | 0, _ :: _, leaf _, _, _, h => nomatch h
  | _ + 1, [], tree _, _, _, h => nomatch h
  | d + 1, k :: ks, tree t, l, o, h => by
      obtain ⟨s, hs, hl⟩ := Option.bind_eq_some_iff.1 h
      have ih := (bottom_sublist (o.sub hs).2 hl).map (fun q => (k :: q.1, q.2))
      rw [List.map_map] at ih
      refine ih.trans ?_
      obtain ⟨u, v, ht⟩ := List.append_of_mem (mem_of_get? hs)
      rw [ht, rows, List.flatMap_append, List.flatMap_cons]
      exact (List.sublist_append_left _ _).trans (List.sublist_append_right _ _)

theorem bottom_inv : ∀ {d : Nat} {ks : List Aobj} {t : Nest} {l : Leaf}, Ok Inv d t →
    bottom ks t = some l → Inv l
  | 0, [], leaf l, _, o, h => by
      cases h
      exact o
  | 0, _ :: _, leaf _, _, _, h => nomatch h
  | _ + 1, [], tree _, _, _, h => nomatch h
  | d + 1, k :: ks, tree t, l, o, h => by
      obtain ⟨s, hs, hl⟩ := Option.bind_eq_some_iff.1 h
      exact bottom_inv (o.sub hs).2 hl

/-- A row that is there is removed, and no other. -/
theorem rem_ok : ∀ {d : Nat} {ks : List Aobj} {t : Nest} {l l' : Leaf}, Ok Inv d t →
    bottom ks t = some l → f l = some l' → Inv l' → l.ents.Perm (e :: l'.ents) →
      ∃ t', rem f (ks.map some) t = some (true, t') ∧ Ok Inv d t' ∧
        (rows d t).Perm ((ks, e) :: rows d t')
  | 0, [], leaf l, _, l', o, h, h1, h2, h3 => by
      cases h
      refine ⟨leaf l', ?_, h2, h3.map _⟩
      show (f l).map _ = _
      rw [h1]
      rfl
  | 0, _ :: _, leaf _, _, _, _, h, _, _, _ => nomatch h
  | _ + 1, [], tree _, _, _, _, h, _, _, _ => nomatch h
  | d + 1, k :: ks, tree t, l, l', o, h, hf, hi, hq => by
      obtain ⟨s, hs, hl⟩ := Option.bind_eq_some_iff.1 h
      obtain ⟨h1, h2⟩ := o.sub hs
      obtain ⟨s', h3, h4, h5⟩ := rem_ok h2 hl hf hi hq
      have hrun : rem f ((k :: ks).map some) (tree t) =
          some (true, tree (if numkeys s' = 0 then Assoc.del k t else Assoc.set k s' t)) := by
        simp only [List.map_cons, rem, hs, h3, Option.map_some, trickle]
      have hp := rows_perm (d := d) (perm_del hs)
      rw [rows_cons] at hp
      have hp' := hp.trans
        ((h5.map (fun q : List Aobj × (Aobj × Aobj) => (k :: q.1, q.2))).append_right _)
      by_cases hz : numkeys s' = 0
      · refine ⟨tree (Assoc.del k t), ?_, ok_del o hs, ?_⟩
        · rw [hrun, if_pos hz]
        · rw [rows_nil hz] at hp'
          exact hp'
      · refine ⟨tree (Assoc.set k s' t), ?_, ok_set o hs hz h4, ?_⟩
        · rw [hrun, if_neg hz]
        · refine hp'.trans (List.Perm.cons _ ?_)
          refine List.Perm.trans ?_ (rows_perm (perm_set (w := s') hs)).symm
          rw [rows_cons]
          exact .refl _

end Rem

end Nest

end AlchemyDB.Index
