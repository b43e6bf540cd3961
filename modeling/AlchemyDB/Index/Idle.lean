/-
# Passing through — a row that is added and removed twice

An UPDATE that fails leaves its traces: an index before the one that fails has had
the new row added and the old one removed, and then the new one is removed too.
Where the two rows are the same this restores the index exactly when it holds
nothing for the row (`Idle`).
-/
import AlchemyDB.Index.Undo

namespace AlchemyDB.Index

open Assoc

namespace Leaf

variable {l l' : Leaf} {a : Option Aobj} {pk k : Aobj}

theorem del_length (hk : createBTKey l.kind a = some k) (h : l.del a = some l') :
    l'.ents.length + 1 = l.ents.length := by
  unfold del at h
  rw [hk] at h
  simp only at h
  split at h
  · rename_i hs
    cases h
    obtain ⟨w, hw⟩ := Option.isSome_iff_exists.1 hs.1
    exact length_del hw
  · cases h

theorem add_length (hk : createBTKey l.kind a = some k) :
    (l.add a pk).ents.length = l.ents.length + 1 := by
  unfold add
  rw [hk]
  simp

theorem del_null (hk : createBTKey l.kind a = none) : l.del a = some l := by
  unfold del
  rw [hk]

theorem add_null (hk : createBTKey l.kind a = none) : l.add a pk = l := by
  unfold add
  rw [hk]

end Leaf

namespace Kind

variable {k : Kind} {r : Row} {l : Leaf}

/-- What a row is looked up with is the null pointer in a tree of this kind, or nothing. -/
def nullAt (k : Kind) (r : Row) (kd : LKind) : Prop :=
  match k.look r with
  | none => True
  | some a => createBTKey kd a = none

theorem leafDel_null (h : k.nullAt r l.kind) : k.leafDel r l = some l := by
  rw [leafDel_look]
  unfold nullAt at h
  split
  · rfl
  · rename_i a ha
    rw [ha] at h
    exact Leaf.del_null h

theorem leafAdd_null (h : k.nullAt r l.kind) : (k.leafAdd r l).2 = l := by
  unfold nullAt at h
  cases k.step r l with
  | viol a hl he hf h' => rw [h']
  | added a hl he h' =>
      rw [hl] at h
      rw [h']
      exact Leaf.add_null h
  | idle s hl hm he hs h' => rw [h']
  | last he hl h' => rw [h']

/-- A key that is not null leaves the tree one entry shorter. -/
theorem twice_leaf (hv : (k.leafAdd r l).1 ≠ .viol) :
    (∃ l₁, k.leafDel r (k.leafAdd r l).2 = some l₁ ∧ k.leafDel r l₁ = some l) ↔
      k.nullAt r l.kind := by
  constructor
  · rintro ⟨l₁, h1, h2⟩
    unfold nullAt
    have hk₁ : l₁.kind = l.kind := (leafDel_kind h1).trans (leafAdd_kind k r l)
    rw [leafDel_look] at h1 h2
    cases k.step r l with
    | viol a hl he hf h' => exact absurd (by rw [h']) hv
    | idle s hl hm he hs h' =>
        rw [hl]
        trivial
    | added a hl he h' =>
        rw [hl] at h1 h2 ⊢
        rw [h'] at h1
        simp only at h1 h2 ⊢
        cases hk : createBTKey l.kind a with
        | none => rfl
        | some c =>
            have e1 : (l.add a r.pk).ents.length = _ := Leaf.add_length hk
            have e2 := Leaf.del_length (by rw [Leaf.add_kind]; exact hk) h1
            have e3 := Leaf.del_length (by rw [hk₁]; exact hk) h2
            omega
    | last he hl h' =>
        rw [hl] at h1 h2 ⊢
        rw [h'] at h1
        simp only at h1 h2 ⊢
        cases hk : createBTKey l.kind none with
        | none => rfl
        | some c =>
            have e2 := Leaf.del_length hk h1
            have e3 := Leaf.del_length (by rw [hk₁]; exact hk) h2
            omega
  · intro h
    refine ⟨l, ?_, leafDel_null h⟩
    rw [leafAdd_null h]
    exact leafDel_null h

end Kind

namespace Nest

/-- The way is there, and no tree on it is empty. -/
def alive : List Aobj → Nest → Prop
  | k :: ks, tree t => ∃ s, get? t k = some s ∧ numkeys s ≠ 0 ∧ alive ks s
  | _, _ => True

variable {new : Leaf} {f : Leaf → Added × Leaf} {g : Leaf → Option Leaf}

theorem alive.lively : ∀ {ks : List Aobj} {t : Nest}, alive ks t → lively ks t
  | [], _, _ => trivial
  | _ :: _, leaf _, _ => trivial
  | k :: ks, tree t, ⟨s, hs, hn, ha⟩ => by
      simp only [Nest.lively, hs]
      exact ⟨hn, alive.lively ha⟩

/-- Two removals in a row. -/
def Twice (g : Leaf → Option Leaf) (p : List (Option Aobj)) (u t : Nest) : Prop :=
  ∃ t₁, (rem g p u).map Prod.snd = some t₁ ∧ (rem g p t₁).map Prod.snd = some t

/-- A removal makes no tree longer. -/
theorem rem_length {k : Aobj} {p : List (Option Aobj)} {u v : List (Aobj × Nest)}
    (h : (rem g (some k :: p) (tree u)).map Prod.snd = some (tree v)) : v.length ≤ u.length := by
  cases hu : get? u k with
  | none =>
      simp only [rem, hu] at h
      split at h
      · cases h
        exact Nat.le_refl _
      · cases h
  | some s =>
      rw [rem_cons k p hu] at h
      cases hr : rem g p s with
      | none => simp [hr] at h
      | some e =>
          obtain ⟨b, s'⟩ := e
          rw [hr] at h
          cases b with
          | false =>
              cases h
              exact Nat.le_refl _
          | true =>
              simp only [Option.map_some, trickle, Option.some.injEq, tree.injEq] at h
              rw [← h]
              split
              · have := length_del hu
                omega
              · exact Nat.le_of_eq (length_set hu)

/-- Two removals, seen from the tree above. -/
theorem twice_cons {k : Aobj} {ks : List Aobj} {t : List (Aobj × Nest)} {s d : Nest}
    (hg : get? t k = some s) (hd : Shape (fun _ => True) ks.length d) :
    Twice g (some k :: ks.map some) (tree (Assoc.set k d t)) (tree t) ↔
      ∃ s₁, (rem g (ks.map some) d).map Prod.snd = some s₁ ∧ numkeys s₁ ≠ 0 ∧
        (rem g (ks.map some) s₁).map Prod.snd = some s ∧ numkeys s ≠ 0 := by
  have hu : get? (Assoc.set k d t) k = some d := by rw [get?_set hg, if_pos rfl]
  unfold Twice
  rw [rem_cons k _ hu]
  cases hr : rem g (ks.map some) d with
  | none => simp
  | some e =>
      obtain ⟨b, s₁⟩ := e
      obtain rfl := rem_true rfl hd hr
      have hs₁ : Shape (fun _ => True) ks.length s₁ :=
        shape_rem (fun _ _ _ _ => trivial) (List.length_map some) hd hr
      simp only [Option.map_some, trickle, Option.some.injEq, exists_eq_left']
      by_cases hz : numkeys s₁ = 0
      · rw [if_pos hz, del_set]
        constructor
        · intro h
          have h1 := rem_length h
          have h2 := length_del hg
          omega
        · rintro ⟨h, _⟩
          exact absurd hz h
      · have hu₁ : get? (Assoc.set k s₁ t) k = some s₁ := by rw [get?_set hg, if_pos rfl]
        rw [if_neg hz, set_set, rem_cons k _ hu₁, map_trickle_iff (n := s) ?_ ?_ ?_]
        · exact ⟨fun h => ⟨hz, h⟩, And.right⟩
        · exact fun b s' h => rem_true rfl hs₁ h
        · intro w
          rw [set_set, set_eq_iff hg]
        · rw [del_set]
          exact del_ne hg

/-- What was added to new trees is gone after the first removal. -/
theorem rem_fresh_numkeys (hnew : ∀ l', g (f new).2 = some l' → l'.ents = []) :
    ∀ {ks : List Aobj} {b : Bool} {s : Nest}, rem g (ks.map some) (add new f (ks.map some)
      (fresh new (ks.map some).length)).2 = some (b, s) → numkeys s = 0
  | [], b, s, h => by
      obtain ⟨l', hl, he⟩ := Option.map_eq_some_iff.1 h
      obtain rfl : leaf l' = s := congrArg Prod.snd he
      show l'.ents.length = 0
      rw [hnew l' hl]
      rfl
  | k :: ks, b, s, h => by
      have hadd : (add new f (some k :: ks.map some) (tree [])).2 =
          tree (put k (add new f (ks.map some) (fresh new (ks.map some).length)).2 []) :=
        add_cons k (ks.map some) []
      simp only [List.map_cons, List.length_cons, fresh] at h
      rw [hadd, rem_cons k _ (show _ = some _ by rw [get?_put get?_nil, if_pos rfl])] at h
      obtain ⟨⟨b', s'⟩, hr, he⟩ := Option.map_eq_some_iff.1 h
      have hz := rem_fresh_numkeys hnew hr
      have hfresh : Shape (fun _ => True) (ks.map some).length (fresh new (ks.map some).length) :=
        shape_fresh trivial _
      obtain rfl := rem_true (List.length_map some ▸ rfl)
        (shape_add (fun _ h => h) trivial rfl hfresh) hr
      obtain rfl : tree _ = s := congrArg Prod.snd he
      rw [if_pos hz, del_put get?_nil]
      rfl

theorem twice_leaf_iff {l l' : Leaf} :
    Twice g [] (leaf l') (leaf l) ↔ ∃ l₁, g l' = some l₁ ∧ g l₁ = some l := by
  unfold Twice
  constructor
  · rintro ⟨t₁, h1, h2⟩
    obtain ⟨e, he, rfl⟩ := Option.map_eq_some_iff.1 h1
    obtain ⟨l₁, hl₁, rfl⟩ := Option.map_eq_some_iff.1 he
    obtain ⟨e', he', h2⟩ := Option.map_eq_some_iff.1 h2
    obtain ⟨l₂, hl₂, rfl⟩ := Option.map_eq_some_iff.1 he'
    cases h2
    exact ⟨l₁, hl₁, hl₂⟩
  · rintro ⟨l₁, h1, h2⟩
    exact ⟨leaf l₁, by simp [rem, h1], by simp [rem, h2]⟩

/-- A row that is added and removed twice. -/
theorem twice_add_iff {N : Leaf → Prop} {Inv : Leaf → Prop} (hnew : Inv new) (hempty : new.ents = [])
    (hzero : ∀ l', g (f new).2 = some l' → l' = new) (hN : ∀ l, N l → g (f l).2 = some l) :
    ∀ {d : Nat} {ks : List Aobj} {t : Nest}, ks.length = d → Shape Inv d t →
      (∀ l, bottom ks t = some l →
        ((∃ l₁, g (f l).2 = some l₁ ∧ g l₁ = some l) ↔ N l)) →
      (Twice g (ks.map some) (add new f (ks.map some) t).2 t ↔
        alive ks t ∧ ∃ l, bottom ks t = some l ∧ N l)
  | 0, [], leaf l, _, _, hl => by
      have hb : Twice g [] (leaf (f l).2) (leaf l) ↔ N l := twice_leaf_iff.trans (hl l rfl)
      show Twice g [] (leaf (f l).2) (leaf l) ↔ _
      rw [hb]
      exact ⟨fun h => ⟨trivial, l, rfl, h⟩, fun ⟨_, l', he, h⟩ => by cases he; exact h⟩
  | d + 1, k :: ks, tree t, hlen, o, hl => by
      have hlen' : ks.length = d := Nat.succ.inj hlen
      rw [List.map_cons, add_cons]
      cases hg : get? t k with
      | some s =>
          have hbot : bottom (k :: ks) (tree t) = bottom ks s := by simp [bottom, hg]
          rw [hbot] at hl
          have ih := twice_add_iff hnew hempty hzero hN hlen' (o.sub hg) hl
          have hshape : Shape (fun _ => True) ks.length (add new f (ks.map some) s).2 := by
            rw [hlen']
            exact shape_add (fun _ h => h) trivial (by simpa using hlen')
              ((o.sub hg).mono fun _ _ => trivial)
          rw [twice_cons hg hshape, hbot]
          simp only [alive, hg, Option.some.injEq, exists_eq_left']
          constructor
          · rintro ⟨s₁, h1, _, h3, h4⟩
            obtain ⟨ha, hb⟩ := ih.1 ⟨s₁, h1, h3⟩
            exact ⟨⟨h4, ha⟩, hb⟩
          · rintro ⟨⟨h4, ha⟩, l, hbl, hNl⟩
            obtain ⟨s₁, h1, h3⟩ := ih.2 ⟨ha, l, hbl, hNl⟩
            -- the first removal has restored the tree already
            have hback := (rem_add_iff (f := f) (g := g) hnew hempty
              (fun l' hl' _ => hzero l' hl') (ks.length_map some) (hlen' ▸ o.sub hg)).2
              ⟨ha.lively, by rw [hbl]; exact hN l hNl⟩
            obtain rfl := Option.some.inj (h1.symm.trans hback)
            exact ⟨s₁, h1, h4, h3, h4⟩
      | none =>
          simp only [alive, hg, reduceCtorEq, false_and, exists_false, iff_false]
          rintro ⟨t₁, h1, h2⟩
          rw [rem_cons k _ (show _ = some _ by rw [get?_put hg, if_pos rfl])] at h1
          cases hr : rem g (ks.map some) (add new f (ks.map some)
              (fresh new (ks.map some).length)).2 with
          | none =>
              rw [hr] at h1
              cases h1
          | some e =>
              obtain ⟨b, s'⟩ := e
              have hz := rem_fresh_numkeys (fun l' h => by rw [hzero l' h]; exact hempty) hr
              have hfresh : Shape (fun _ => True) (ks.map some).length
                  (fresh new (ks.map some).length) := shape_fresh trivial _
              obtain rfl := rem_true (List.length_map some ▸ rfl)
                (shape_add (fun _ h => h) trivial rfl hfresh) hr
              rw [hr] at h1
              simp only [Option.map_some, trickle, if_pos hz, del_put hg, Option.some.injEq] at h1
              subst h1
              rw [rem_absent k ks hg] at h2
              cases h2

theorem backedU_of {U : Leaf → Prop} : ∀ {d : Nat} {ks : List Aobj} {t : Nest} {l : Leaf},
    ks.length = d → Shape (fun _ => True) d t → alive ks t → roomy (ks.map some) t →
      bottom ks t = some l → U l → backedU U new ks t
  | 0, [], leaf _, _, _, _, _, _, hb, hU => by
      cases hb
      exact hU
  | d + 1, k :: ks, tree t, l, hlen, o, ⟨s, hs, hn, ha⟩, hr, hb, hU => by
      simp only [List.map_cons, roomy, hs] at hr
      simp only [bottom, hs, Option.bind_some] at hb
      simp only [backedU, hs]
      exact ⟨hr.1, hn, backedU_of (Nat.succ.inj hlen) (o.sub hs) ha hr.2 hb hU⟩

/-- The same for a unique index whose last column is empty. -/
theorem twiceU_iff {U : Leaf → Prop} (hf : ∀ l, (f l).2 = l) (hU : ∀ l, g l = some l ↔ U l)
    (hU₂ : ∀ l, (∃ l₁, g l = some l₁ ∧ g l₁ = some l) ↔ U l) (hempty : new.ents = [])
    (hzero : ∀ l', g new = some l' → l' = new) :
    ∀ {d : Nat} {ks : List Aobj} {t : Nest}, ks.length = d → Shape (fun _ => True) d t →
      (Twice g (ks.map some) (destroy (ks.map some) (add new f (ks.map some) t).2) t ↔
        alive ks t ∧ roomy (ks.map some) t ∧ ∃ l, bottom ks t = some l ∧ U l)
  | 0, [], leaf l, _, _ => by
      have hbase : Twice g [] (leaf (f l).2) (leaf l) ↔ ∃ l₁, g (f l).2 = some l₁ ∧ g l₁ = some l :=
        twice_leaf_iff
      show Twice g [] (leaf (f l).2) (leaf l) ↔ _
      rw [hbase, hf, hU₂]
      exact ⟨fun h => ⟨trivial, trivial, l, rfl, h⟩, fun ⟨_, _, l', he, h⟩ => by cases he; exact h⟩
  | d + 1, k :: ks, tree t, hlen, o => by
      have hlen' : ks.length = d := Nat.succ.inj hlen
      rw [List.map_cons, add_cons]
      cases hg : get? t k with
      | some s =>
          have ih := twiceU_iff hf hU hU₂ hempty hzero hlen' (o.sub hg)
          have hu : get? (Assoc.set k (add new f (ks.map some) s).2 t) k =
              some (add new f (ks.map some) s).2 := by
            rw [get?_set hg, if_pos rfl]
          have hshape : Shape (fun _ => True) ks.length
              (destroy (ks.map some) (add new f (ks.map some) s).2) := by
            rw [hlen']
            exact shape_destroy (shape_add (fun _ h => h) trivial (by simpa using hlen') (o.sub hg))
          have hbot : bottom (k :: ks) (tree t) = bottom ks s := by simp [bottom, hg]
          simp only [alive, roomy, hg, Option.some.injEq, exists_eq_left', hbot]
          rw [destroy_cons k _ hu, length_set hg, del_set, set_set]
          by_cases hl : t.length = 1
          · rw [if_pos hl]
            refine ⟨?_, fun h => absurd hl h.2.1.1⟩
            rintro ⟨t₁, h1, _⟩
            rw [rem_absent k ks (get?_del_nil hg hl)] at h1
            cases h1
          · rw [if_neg hl, twice_cons hg hshape]
            constructor
            · rintro ⟨s₁, h1, _, h3, h4⟩
              obtain ⟨ha, hr, hb⟩ := ih.1 ⟨s₁, h1, h3⟩
              exact ⟨⟨h4, ha⟩, ⟨hl, hr⟩, hb⟩
            · rintro ⟨⟨h4, ha⟩, ⟨_, hr⟩, l, hbl, hUl⟩
              obtain ⟨s₁, h1, h3⟩ := ih.2 ⟨ha, hr, l, hbl, hUl⟩
              have hback := (skipU_iff hf hU hempty (fun l' hl' _ => hzero l' hl') hlen'
                (o.sub hg)).2 (backedU_of hlen' (o.sub hg) ha hr hbl hUl)
              obtain rfl := Option.some.inj (h1.symm.trans hback)
              exact ⟨s₁, h1, h4, h3, h4⟩
      | none =>
          have hu : get? (put k (add new f (ks.map some) (fresh new (ks.map some).length)).2 t) k =
              some (add new f (ks.map some) (fresh new (ks.map some).length)).2 := by
            rw [get?_put hg, if_pos rfl]
          simp only [alive, hg, reduceCtorEq, false_and, exists_false, iff_false]
          rw [destroy_cons k _ hu, length_put, del_put hg, set_put hg]
          rintro ⟨t₁, h1, h2⟩
          split at h1
          · rw [rem_absent k ks hg] at h1
            cases h1
          · rw [rem_cons k _ (show _ = some _ by rw [get?_put hg, if_pos rfl])] at h1
            cases ks with
            | nil =>
                -- the tree at the bottom is new, and is taken away with the first removal
                have hrem : rem g (([] : List Aobj).map some) (destroy (([] : List Aobj).map some)
                    (add new f (([] : List Aobj).map some)
                      (fresh new (([] : List Aobj).map some).length)).2) =
                    (g new).map fun l => (true, leaf l) := by
                  show (g (f new).2).map _ = _
                  rw [hf]
                rw [hrem] at h1
                cases hgn : g new with
                | none =>
                    rw [hgn] at h1
                    cases h1
                | some l' =>
                    obtain rfl := hzero l' hgn
                    have hz : numkeys (leaf l') = 0 := by
                      show l'.ents.length = 0
                      rw [hempty]
                      rfl
                    rw [hgn] at h1
                    simp only [Option.map_some, trickle, if_pos hz, del_put hg,
                      Option.some.injEq] at h1
                    subst h1
                    rw [rem_absent k [] hg] at h2
                    cases h2
            | cons k₂ ks =>
                have hadd : (add new f (some k₂ :: ks.map some) (tree [])).2 =
                    tree (put k₂ (add new f (ks.map some) (fresh new (ks.map some).length)).2 []) :=
                  add_cons k₂ (ks.map some) []
                simp only [List.map_cons, List.length_cons, fresh] at h1
                rw [hadd, destroy_cons k₂ _ (show _ = some _ by rw [get?_put get?_nil, if_pos rfl]),
                  length_put, List.length_nil, if_pos rfl, del_put get?_nil,
                  rem_absent k₂ ks get?_nil] at h1
                cases h1

/-- A removal that changes nothing changes nothing at the bottom. -/
theorem rem_same : ∀ {d : Nat} {ks : List Aobj} {t : Nest}, ks.length = d →
    Shape (fun _ => True) d t → (rem g (ks.map some) t).map Prod.snd = some t →
      ∃ l, bottom ks t = some l ∧ g l = some l
  | 0, [], leaf l, _, _, h => by
      obtain ⟨e, he, h⟩ := Option.map_eq_some_iff.1 h
      obtain ⟨l', hl', rfl⟩ := Option.map_eq_some_iff.1 he
      cases h
      exact ⟨l, rfl, hl'⟩
  | d + 1, k :: ks, tree t, hlen, o, h => by
      have hlen' : ks.length = d := Nat.succ.inj hlen
      cases hg : get? t k with
      | none =>
          rw [List.map_cons, rem_absent k ks hg] at h
          cases h
      | some s =>
          rw [List.map_cons, rem_cons k _ hg, map_trickle_iff (n := s)
            (fun b s' hr => rem_true hlen' (o.sub hg) hr) (fun w => set_eq_iff hg)
            (del_ne hg)] at h
          obtain ⟨l, hb, hl⟩ := rem_same hlen' (o.sub hg) h.1
          exact ⟨l, by simp [bottom, hg, hb], hl⟩

/-- Where the destroy pass has taken something, the way is gone. -/
theorem rem_destroyed : ∀ {ks : List Aobj} {t : Nest}, ¬ roomy (ks.map some) t →
    rem g (ks.map some) (destroy (ks.map some) t) = none
  | [], _, h => absurd trivial h
  | _ :: _, leaf _, h => absurd trivial h
  | k :: ks, tree t, h => by
      cases hg : get? t k with
      | none =>
          simp only [List.map_cons, roomy, hg, not_true_eq_false] at h
      | some s =>
          simp only [List.map_cons, roomy, hg, not_and] at h
          rw [List.map_cons, destroy_cons k _ hg]
          by_cases hl : t.length = 1
          · rw [if_pos hl, rem_absent k ks (get?_del_nil hg hl)]
          · have hd : get? (Assoc.set k (destroy (ks.map some) s) t) k =
                some (destroy (ks.map some) s) := by
              rw [get?_set hg, if_pos rfl]
            rw [if_neg hl, rem_cons k _ hd, rem_destroyed (h hl)]
            rfl

end Nest

namespace Ind

variable {x : Ind} {r : Row}

/-- The index holds nothing for the row, and the row's way through it leaves no trace. -/
def Idle (x : Ind) (r : Row) : Prop :=
  match whole (x.kind.path r) with
  | none => x.kind.multi = true → Nest.backed (x.kind.path r) x.tree
  | some ks => Nest.alive ks x.tree ∧
      (x.kind.lastEmpty r = true → Nest.roomy (x.kind.path r) x.tree) ∧
      ∃ l, Nest.bottom ks x.tree = some l ∧ x.kind.nullAt r l.kind

/-- The tree after an addition, by how it ends. -/
theorem addToIndex_tree (x : Ind) (r : Row) : (x.addToIndex r).2 = ⟨x.kind,
    if x.kind.multi ∧ (x.tried r).1 ≠ .ok then Nest.destroy (x.kind.path r) (x.tried r).2
    else (x.tried r).2⟩ := rfl

theorem twice_iff {k : Kind} {t : Nest} (hk : k = x.kind) :
    (∃ y, (⟨k, t⟩ : Ind).delFromIndex r = some y ∧ y.delFromIndex r = some x) ↔
      Nest.Twice (k.leafDel r) (k.path r) t x.tree := by
  subst hk
  constructor
  · rintro ⟨y, h1, h2⟩
    have hy := delFromIndex_kind h1
    obtain ⟨e, he, rfl⟩ := Option.map_eq_some_iff.1 h1
    exact ⟨e.2, by rw [he]; rfl, (delFromIndex_iff rfl).1 h2⟩
  · rintro ⟨t₁, h1, h2⟩
    obtain ⟨e, he, rfl⟩ := Option.map_eq_some_iff.1 h1
    exact ⟨⟨x.kind, e.2⟩, by unfold delFromIndex; rw [he]; rfl, (delFromIndex_iff rfl).2 h2⟩

theorem newLeaf_back {k : Kind} {l' : Leaf}
    (h : k.leafDel r (k.leafAdd r (k.newLeaf r)).2 = some l') : l' = k.newLeaf r := by
  have hents := Kind.newLeaf_ents k r
  have hkd := (Kind.leafDel_kind h).trans (Kind.leafAdd_kind k r _)
  have hnil : l'.ents = [] := by
    rw [Kind.leafDel_look] at h
    cases k.step r (k.newLeaf r) with
    | viol a hl he hf h' => exact absurd hents (Kind.find_ents hf)
    | added a hl he h' =>
        rw [hl, h'] at h
        simp only at h
        cases hk : createBTKey (k.newLeaf r).kind a with
        | none =>
            rw [Leaf.add_null hk, Leaf.del_null hk] at h
            cases h
            exact hents
        | some c =>
            have e1 : ((k.newLeaf r).add a r.pk).ents.length = _ := Leaf.add_length hk
            have e2 := Leaf.del_length (by rw [Leaf.add_kind]; exact hk) h
            rw [hents] at e1
            exact List.length_eq_zero_iff.1 (by simpa [e1] using e2)
    | idle s hl hm he hs h' =>
        rw [hl, h'] at h
        cases h
        exact hents
    | last he hl h' =>
        rw [hl, h'] at h
        simp only at h
        cases hk : createBTKey (k.newLeaf r).kind none with
        | none =>
            rw [Leaf.del_null hk] at h
            cases h
            exact hents
        | some c =>
            have e2 := Leaf.del_length hk h
            rw [hents] at e2
            cases e2
  cases l'
  cases hn : k.newLeaf r
  rw [hn] at hkd hents
  simp_all

/-- The row is added and removed twice. -/
theorem idle_iff (hs : x.Shaped) (hacc : (x.addToIndex r).1 = true) :
    (∃ y, (x.addToIndex r).2.delFromIndex r = some y ∧ y.delFromIndex r = some x) ↔ x.Idle r := by
  have hviol : (x.tried r).1 ≠ .viol := by simpa [addToIndex] using hacc
  unfold Idle
  cases hw : whole (x.kind.path r) with
  | none =>
      have hn := none_mem_of_whole hw
      simp only
      rw [← undone_iff_skip hw]
      constructor
      · rintro ⟨y, h1, h2⟩
        -- with an empty column a removal changes nothing
        have hsame : y = (x.addToIndex r).2 := by
          obtain ⟨e, he, rfl⟩ := Option.map_eq_some_iff.1 h1
          rcases Nest.rem_skip (g := x.kind.leafDel r) (t := (x.addToIndex r).2.tree) hn with h | h
          · exact absurd (he.symm.trans h) (by simp)
          · obtain rfl := Option.some.inj (he.symm.trans h)
            rfl
        rw [← hsame]
        exact h2
      · intro h
        refine ⟨x, h, ?_⟩
        obtain ⟨e, he, hx⟩ := Option.map_eq_some_iff.1 h
        rcases Nest.rem_skip (g := x.kind.leafDel r) (t := (x.addToIndex r).2.tree) hn with h' | h'
        · exact absurd (he.symm.trans h') (by simp)
        · obtain rfl := Option.some.inj (he.symm.trans h')
          have hx' : (x.addToIndex r).2 = x := hx
          rw [hx'] at h
          exact h
  | some ks =>
      have hp := whole_eq hw
      have hlen : (ks.map some).length = x.kind.depth := by
        rw [← hp]
        exact Kind.path_length _ _
      have hlen' : ks.length = x.kind.depth := (List.length_map some).symm.trans hlen
      have hnew := newLeaf_sorted x.kind r
      have hfst : (x.tried r).1 =
          (x.kind.leafAdd r ((Nest.bottom ks x.tree).getD (x.kind.newLeaf r))).1 := by
        unfold tried
        rw [hp]
        exact Nest.add_fst hnew hlen hs
      rw [addToIndex_tree, twice_iff rfl]
      simp only
      cases he : x.kind.lastEmpty r with
      | true =>
          have hleaf : ∀ l, x.kind.leafAdd r l = (.skip, l) := by
            intro l
            cases x.kind.step r l with
            | last _ _ h => exact h
            | viol a hl he' hf h => rw [he] at he'; cases he'
            | added a hl he' h => rw [he] at he'; cases he'
            | idle s hl hm he' hs h => rw [he] at he'; cases he'
          have hlook : x.kind.look r = some none := by
            cases x.kind.step r (x.kind.newLeaf r) with
            | last _ hl _ => exact hl
            | viol a hl he' hf h => rw [he] at he'; cases he'
            | added a hl he' h => rw [he] at he'; cases he'
            | idle s hl hm he' hs h => rw [he] at he'; cases he'
          have hm : x.kind.multi = true := by
            cases hk : x.kind with
            | umci c last t => rfl
            | _ => rw [hk] at he; cases he
          have hdel : ∀ l, x.kind.leafDel r l = l.del none := by
            intro l
            rw [Kind.leafDel_look, hlook]
          have hnull : ∀ l : Leaf, x.kind.nullAt r l.kind ↔ createBTKey l.kind none = none := by
            intro l
            unfold Kind.nullAt
            rw [hlook]
          have hskip : (x.tried r).1 ≠ .ok := by
            rw [hfst, hleaf]
            simp
          rw [if_pos ⟨hm, hskip⟩]
          unfold tried
          rw [hp, Nest.twiceU_iff (U := fun l => x.kind.nullAt r l.kind) (fun l => by rw [hleaf])
            (fun l => by rw [hdel, Leaf.del_none_iff, hnull])
            (fun l => by
              have := Kind.twice_leaf (k := x.kind) (r := r) (l := l) (by rw [hleaf]; simp)
              rw [hleaf] at this
              exact this)
            (Kind.newLeaf_ents _ _)
            (fun l' h => newLeaf_back (by rw [hleaf]; exact h)) hlen' (hs.mono fun _ _ => trivial)]
          simp
      | false =>
          have hcond : ¬ (x.kind.multi = true ∧ (x.tried r).1 ≠ .ok) := by
            rintro ⟨hm, hok⟩
            rw [hfst] at hok hviol
            exact hok (Kind.leafAdd_multi hm he hviol)
          rw [if_neg hcond]
          unfold tried
          rw [hp, Nest.twice_add_iff (N := fun l => x.kind.nullAt r l.kind) hnew
            (Kind.newLeaf_ents _ _) (fun l' h => newLeaf_back h)
            (fun l h => by rw [Kind.leafAdd_null h]; exact Kind.leafDel_null h) hlen' hs]
          · simp
          · intro l hl
            refine Kind.twice_leaf ?_
            rw [hfst, hl] at hviol
            exact hviol

/-- An index that rejects the row is never restored by removing the row. -/
theorem rejected_del_ne (hs : x.Shaped) (hrej : (x.addToIndex r).1 = false) :
    (x.addToIndex r).2.delFromIndex r ≠ some x := by
  have hviol : (x.tried r).1 = .viol := by simpa [addToIndex] using hrej
  have hsame : (x.tried r).2 = x.tree :=
    Nest.add_viol (fun l hl => (Kind.leafAdd_viol hl).1)
      (fun h => (Kind.leafAdd_viol h).2 (Kind.newLeaf_ents _ _)) hviol
  obtain ⟨ks, hw⟩ : ∃ ks, whole (x.kind.path r) = some ks := by
    cases hw : whole (x.kind.path r) with
    | none => rw [tried_skip (none_mem_of_whole hw)] at hviol; cases hviol
    | some ks => exact ⟨ks, rfl⟩
  have hp := whole_eq hw
  have hlen : (ks.map some).length = x.kind.depth := by
    rw [← hp]
    exact Kind.path_length _ _
  have hlen' : ks.length = x.kind.depth := (List.length_map some).symm.trans hlen
  have hfst : (x.tried r).1 =
      (x.kind.leafAdd r ((Nest.bottom ks x.tree).getD (x.kind.newLeaf r))).1 := by
    unfold tried
    rw [hp]
    exact Nest.add_fst (newLeaf_sorted x.kind r) hlen hs
  rw [addToIndex_tree, hsame, Ne, delFromIndex_iff rfl, hp]
  intro h
  -- a tree that has lost its key is not found again; so nothing was destroyed
  have hkept : (Nest.rem (x.kind.leafDel r) (ks.map some) x.tree).map Prod.snd = some x.tree := by
    by_cases hroom : Nest.roomy (ks.map some) x.tree
    · rw [Nest.destroy_iff.2 hroom, ite_self] at h
      exact h
    · by_cases hm : x.kind.multi = true
      · rw [if_pos ⟨hm, by rw [hviol]; simp⟩, Nest.rem_destroyed hroom] at h
        cases h
      · rw [if_neg (fun h => hm h.1)] at h
        exact h
  obtain ⟨l, hb, hl⟩ := Nest.rem_same hlen' (hs.mono fun _ _ => trivial) hkept
  rw [hfst, hb] at hviol
  simp only [Option.getD_some] at hviol
  rw [Kind.leafDel_look] at hl
  cases x.kind.step r l with
  | viol a hlk he hf h =>
      rw [hlk] at hl
      simp only at hl
      cases hk : createBTKey l.kind a with
      | none => simp [Leaf.find, hk] at hf
      | some c =>
          have := Leaf.del_length hk hl
          omega
  | added a hlk he h => rw [h] at hviol; cases hviol
  | idle s hlk hm he hs h => rw [h] at hviol; exact hs hviol
  | last he hlk h => rw [h] at hviol; cases hviol

end Ind

end AlchemyDB.Index
