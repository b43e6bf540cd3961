/-
# Undoing — when a rejected row leaves the indexes as they were

When an index rejects a row, the row is taken out again of the indexes before, and
a multi column index undoes its own work by a destroy pass.  Here it is decided
exactly when this restores an index: `Undone` for the indexes before, `Spared` for
the one that rejects.  A destroy pass takes the only key out of every tree on its
way, whether it has put it there or not.
-/
import AlchemyDB.Index.Holds

namespace AlchemyDB.Index

open Assoc

/-! ## The order of the keys -/

namespace Aobj

theorem lt_def (a b : Aobj) : a < b ↔ a.lt b = true := Iff.rfl

theorem lt_irrefl (a : Aobj) : ¬ a < a := by
  rw [lt_def]
  cases a with
  | int a => simp [lt]
  | long a => simp [lt]
  | u128 a => simp [lt]
  | text a => simp only [lt, decide_eq_true_eq]; exact List.lt_irrefl a

theorem lt_trans (a b c : Aobj) (h : a < b) (h' : b < c) : a < c := by
  rw [lt_def] at h h' ⊢
  cases a <;> cases b <;> cases c <;>
    simp only [lt, decide_eq_true_eq, Bool.false_eq_true] at h h' ⊢
  case int.int.int => omega
  case long.long.long => omega
  case u128.u128.u128 => omega
  case text.text.text => exact List.lt_trans h h'

theorem eq_of_not_lt (a b : Aobj) (h : ¬ a < b) (h' : ¬ b < a) : a = b := by
  rw [lt_def] at h h'
  cases a <;> cases b <;> simp only [lt, decide_eq_true_eq, not_true_eq_false] at h h'
  case int.int a b => exact congrArg int (by omega)
  case long.long a b => exact congrArg long (by omega)
  case u128.u128 a b => exact congrArg u128 (by omega)
  case text.text a b => exact congrArg text (List.le_antisymm h' h)

theorem field_ktype (t : KType) (a : Option Aobj) : (field t a).ktype = t := by
  cases t <;> cases a <;> first | rfl | (rename_i v; cases v <;> rfl)

end Aobj

/-! ## At the bottom -/

namespace Leaf

/-- The entries are in key order. -/
def Sorted (l : Leaf) : Prop := l.ents.Pairwise (fun e e' => ¬ e'.1 < e.1)

/-- What is entered under `a` is found there again, and no entry with another value is in its
place. -/
def Undoable (l : Leaf) (a : Option Aobj) (pk : Aobj) : Prop :=
  ∀ k, createBTKey l.kind a = some k → (createStream l.kind a pk).1 = k ∧
    (l.kind = .inode .u128 → l.ents.length < 7) ∧
    ∀ e ∈ l.ents, e.1 = k → e.2 = (createStream l.kind a pk).2

variable {l : Leaf} {a : Option Aobj} {pk : Aobj}

theorem eq_of_perm_cons {A : Type} [DecidableEq A] {x y : A} {l : List A}
    (h : (x :: l).Perm (y :: l)) : x = y := by
  have hc := h.count_eq x
  rw [List.count_cons_self, List.count_cons] at hc
  by_contra hne
  rw [if_neg (by simpa using fun h => hne h.symm)] at hc
  omega

/-- Removing what has just been added. -/
theorem del_add_iff (hs : l.Sorted) : (l.add a pk).del a = some l ↔ l.Undoable a pk := by
  unfold Undoable
  cases hk : createBTKey l.kind a with
  | none => simp [add, del, hk]
  | some k =>
      have hadd : l.add a pk = { l with
          ents := put (createStream l.kind a pk).1 (createStream l.kind a pk).2 l.ents } := by
        unfold add
        rw [hk]
      generalize hst : createStream l.kind a pk = e at hadd ⊢
      have hgr : (l.add a pk).Granted ↔ (l.kind = .inode .u128 → l.ents.length < 7) := by
        rw [hadd]
        simp only [Granted, length_put]
        exact forall_congr' fun _ => Nat.lt_iff_add_one_le.symm
      have hdel : (l.add a pk).del a = some l ↔ (get? (put e.1 e.2 l.ents) k).isSome ∧
          (l.add a pk).Granted ∧ Assoc.del k (put e.1 e.2 l.ents) = l.ents := by
        unfold del
        rw [show (l.add a pk).kind = l.kind by rw [hadd], hk]
        simp only [show (l.add a pk).ents = put e.1 e.2 l.ents by rw [hadd]]
        split
        · rename_i h
          rw [Option.some.injEq]
          constructor
          · intro he
            exact ⟨h.1, h.2, congrArg Leaf.ents he⟩
          · rintro ⟨_, _, he⟩
            rw [he]
        · rename_i h
          exact ⟨fun h' => (by cases h'), fun h' => absurd ⟨h'.1, h'.2.1⟩ h⟩
      rw [hdel, hgr]
      constructor
      · rintro ⟨h1, h2, h3⟩ k' hk'
        obtain rfl := Option.some.inj hk'
        obtain ⟨w, hw⟩ := Option.isSome_iff_exists.1 h1
        have hp := (perm_del hw).symm.trans perm_put
        rw [h3] at hp
        have heq := eq_of_perm_cons hp
        have hek : e.1 = k := (congrArg Prod.fst heq).symm
        refine ⟨hek, h2, ?_⟩
        rw [hek] at h3
        exact (del_put_iff Aobj.lt_irrefl Aobj.eq_of_not_lt hs).1 h3
      · intro h
        obtain ⟨h1, h2, h3⟩ := h k rfl
        refine ⟨?_, h2, ?_⟩
        · cases hg : get? (put e.1 e.2 l.ents) k with
          | some w => rfl
          | none => exact absurd h1 (get?_eq_none.1 hg _ (perm_put.symm.subset List.mem_cons_self))
        · rw [h1]
          exact (del_put_iff Aobj.lt_irrefl Aobj.eq_of_not_lt hs).2 h3

theorem add_kind (l : Leaf) (a : Option Aobj) (pk : Aobj) : (l.add a pk).kind = l.kind := by
  unfold add
  split <;> rfl

theorem del_kind {l' : Leaf} (h : l.del a = some l') : l'.kind = l.kind := by
  unfold del at h
  split at h
  · cases h; rfl
  · split at h
    · cases h; rfl
    · cases h

theorem Sorted.add (h : l.Sorted) : (l.add a pk).Sorted := by
  unfold Leaf.add
  split
  · exact h
  · exact pairwise_put Aobj.lt_irrefl Aobj.lt_trans h

theorem Sorted.del {l' : Leaf} (h : l.Sorted) (hd : l.del a = some l') : l'.Sorted := by
  unfold Leaf.del at hd
  split at hd
  · cases hd
    exact h
  · split at hd
    · cases hd
      exact pairwise_del h
    · cases hd

/-- The empty value is the null pointer where numbers stand for pointers or are packed; elsewhere its
deletion hits another entry, or none that there is. -/
theorem del_none_iff : l.del none = some l ↔ createBTKey l.kind none = none := by
  unfold del
  cases hk : createBTKey l.kind none with
  | none => simp
  | some k =>
      simp only [reduceCtorEq, iff_false]
      split
      · rename_i h
        obtain ⟨w, hw⟩ := Option.isSome_iff_exists.1 h.1
        intro heq
        have hlen := congrArg (fun l' => l'.ents.length) (Option.some.inj heq)
        have := length_del hw
        simp only at hlen
        omega
      · simp

end Leaf

/-! ## On the way down -/

namespace Nest

/-- No tree on the way is empty, as far as the way is there. -/
def lively : List Aobj → Nest → Prop
  | k :: ks, tree t =>
      match get? t k with
      | some s => numkeys s ≠ 0 ∧ lively ks s
      | none => True
  | _, _ => True

/-- Every tree on the way has another key, as far as the way is there. -/
def roomy : List (Option Aobj) → Nest → Prop
  | some k :: p, tree t =>
      match get? t k with
      | some s => t.length ≠ 1 ∧ roomy p s
      | none => True
  | _, _ => True

/-- The way down to the first empty column is there and every tree on it has another key; or it ends
in an empty tree, one level above the empty column. -/
def backed : List (Option Aobj) → Nest → Prop
  | some k :: p, tree t =>
      match get? t k with
      | some s => t.length ≠ 1 ∧ backed p s
      | none => t = [] ∧ p.head? = some none
  | _, _ => True

/-- The same for a unique index whose last column is empty: `U` is asked of the tree at the bottom,
and the last tree may be missing where there are others. -/
def backedU (U : Leaf → Prop) (new : Leaf) : List Aobj → Nest → Prop
  | k :: ks, tree t =>
      match get? t k with
      | some s => t.length ≠ 1 ∧ numkeys s ≠ 0 ∧ backedU U new ks s
      | none => ks = [] ∧ t ≠ [] ∧ U new
  | _, leaf l => U l
  | _, _ => True

variable {Inv : Leaf → Prop} {new : Leaf} {f : Leaf → Added × Leaf} {g : Leaf → Option Leaf}

theorem del_ne {t : List (Aobj × Nest)} {k : Aobj} {s : Nest} (h : get? t k = some s) :
    Assoc.del k t ≠ t := by
  intro heq
  have := length_del h
  rw [heq] at this
  omega

theorem set_eq_iff {t : List (Aobj × Nest)} {k : Aobj} {s s' : Nest} (h : get? t k = some s) :
    Assoc.set k s' t = t ↔ s' = s := by
  constructor
  · intro heq
    have hg : get? (Assoc.set k s' t) k = some s' := by rw [get?_set h, if_pos rfl]
    rw [heq, h] at hg
    exact (Option.some.inj hg).symm
  · rintro rfl
    exact set_same h

theorem put_ne {t : List (Aobj × Nest)} {k : Aobj} {s : Nest} : put k s t ≠ t := by
  intro heq
  have := congrArg List.length heq
  rw [length_put] at this
  omega

/-- One level of a removal. -/
theorem rem_cons (k : Aobj) (p : List (Option Aobj)) {t : List (Aobj × Nest)} {s : Nest}
    (h : get? t k = some s) : rem g (some k :: p) (tree t) = (rem g p s).map (trickle k t) := by
  simp only [rem, h]

theorem rem_absent (k : Aobj) (ks : List Aobj) {t : List (Aobj × Nest)} (h : get? t k = none) :
    rem g (some k :: ks.map some) (tree t) = none := by
  have hhead : (ks.map some).head? ≠ some (none : Option Aobj) := by cases ks <;> simp
  simp only [rem, h, if_neg hhead]

/-- On a way without empty columns a removal goes through or goes wrong. -/
theorem rem_true : ∀ {d : Nat} {ks : List Aobj} {t t' : Nest} {b : Bool}, ks.length = d →
    Shape Inv d t → rem g (ks.map some) t = some (b, t') → b = true
  | 0, [], leaf l, t', b, _, _, h => by
      obtain ⟨l', _, he⟩ := Option.map_eq_some_iff.1 h
      exact (congrArg Prod.fst he).symm
  | d + 1, k :: ks, tree t, t', b, hl, o, h => by
      cases hg : get? t k with
      | none =>
          rw [List.map_cons, rem_absent k ks hg] at h
          cases h
      | some s =>
          rw [List.map_cons, rem_cons k _ hg] at h
          obtain ⟨⟨b', s'⟩, hr, he⟩ := Option.map_eq_some_iff.1 h
          obtain rfl := rem_true (Nat.succ.inj hl) (o.sub hg) hr
          exact (congrArg Prod.fst he).symm

theorem Shape.mono {P Q : Leaf → Prop} (h : ∀ l, P l → Q l) :
    ∀ {d : Nat} {t : Nest}, Shape P d t → Shape Q d t
  | 0, leaf l, o => h l o
  | _ + 1, tree _, o => fun e he => Shape.mono h (o e he)

/-- Additions keep the levels. -/
theorem shape_add {P : Leaf → Prop} (hf : ∀ l, P l → P (f l).2) (hnew : P new) :
    ∀ {d : Nat} {p : List (Option Aobj)} {t : Nest}, p.length = d → Shape P d t →
      Shape P d (add new f p t).2
  | 0, [], leaf l, _, o => hf l o
  | d + 1, none :: p, tree t, _, o => by
      simp only [add]
      exact o
  | d + 1, some k :: p, tree t, hl, o => by
      obtain rfl : p.length = d := Nat.succ.inj hl
      have ih := shape_add hf hnew rfl (o.getD hnew k)
      intro e he
      obtain ⟨u, hu, ht⟩ := enter_perm t k (add new f p ((get? t k).getD (fresh new p.length))).2
        (fresh new p.length)
      rcases List.mem_cons.1 (hu.subset he) with rfl | he
      · exact ih
      · exact o e (ht.symm.subset (List.mem_append_right _ he))

/-- So do removals. -/
theorem shape_rem {P : Leaf → Prop} (hg : ∀ l l', P l → g l = some l' → P l') :
    ∀ {d : Nat} {p : List (Option Aobj)} {t t' : Nest} {b : Bool}, p.length = d → Shape P d t →
      rem g p t = some (b, t') → Shape P d t'
  | 0, [], leaf l, t', b, _, o, h => by
      obtain ⟨l', hl, he⟩ := Option.map_eq_some_iff.1 h
      obtain rfl : leaf l' = t' := congrArg Prod.snd he
      exact hg l l' o hl
  | d + 1, none :: p, tree t, t', b, _, o, h => by
      simp only [rem, Option.some.injEq, Prod.mk.injEq] at h
      rw [← h.2]
      exact o
  | d + 1, some k :: p, tree t, t', b, hl, o, h => by
      cases hs : get? t k with
      | none =>
          simp only [rem, hs] at h
          split at h
          · cases h
            exact o
          · cases h
      | some s =>
          rw [rem_cons k p hs] at h
          obtain ⟨⟨b', s'⟩, hr, he⟩ := Option.map_eq_some_iff.1 h
          have ih := shape_rem hg (Nat.succ.inj hl) (o.sub hs) hr
          cases b' with
          | false =>
              obtain rfl : tree t = t' := congrArg Prod.snd he
              exact o
          | true =>
              obtain rfl : tree _ = t' := congrArg Prod.snd he
              intro e he
              split at he
              · exact o e (mem_of_mem_del he)
              · rcases List.mem_cons.1 ((perm_set hs).subset he) with rfl | he
                · exact ih
                · exact o e (mem_of_mem_del he)

/-- What a removal that has gone through leaves under a key. -/
theorem map_trickle_iff {k : Aobj} {t u : List (Aobj × Nest)} {n : Nest} {o : Option (Bool × Nest)}
    (ho : ∀ b s', o = some (b, s') → b = true)
    (hset : ∀ w, Assoc.set k w u = t ↔ w = n) (hdel : Assoc.del k u ≠ t) :
    (o.map (trickle k u)).map Prod.snd = some (tree t) ↔
      o.map Prod.snd = some n ∧ numkeys n ≠ 0 := by
  cases o with
  | none => simp
  | some e =>
      obtain ⟨b, s'⟩ := e
      obtain rfl := ho b s' rfl
      simp only [Option.map_some, trickle, Option.some.injEq, tree.injEq]
      by_cases hz : numkeys s' = 0
      · rw [if_pos hz]
        refine ⟨fun h => absurd h hdel, ?_⟩
        rintro ⟨rfl, h⟩
        exact absurd hz h
      · rw [if_neg hz, hset]
        refine ⟨?_, And.left⟩
        rintro rfl
        exact ⟨rfl, hz⟩

/-- What is removed again under a new key. -/
theorem map_trickle_put {k : Aobj} {t : List (Aobj × Nest)} {s : Nest} {o : Option (Bool × Nest)}
    (hg : get? t k = none) (ho : ∀ b s', o = some (b, s') → b = true) :
    (o.map (trickle k (put k s t))).map Prod.snd = some (tree t) ↔
      ∃ s', o = some (true, s') ∧ numkeys s' = 0 := by
  cases o with
  | none => simp
  | some e =>
      obtain ⟨b, s'⟩ := e
      obtain rfl := ho b s' rfl
      simp only [Option.map_some, trickle, Option.some.injEq, tree.injEq, Prod.mk.injEq, true_and]
      by_cases hz : numkeys s' = 0
      · rw [if_pos hz, del_put hg]
        exact ⟨fun _ => ⟨s', rfl, hz⟩, fun _ => rfl⟩
      · rw [if_neg hz, set_put hg]
        refine ⟨fun h => absurd h put_ne, ?_⟩
        rintro ⟨_, rfl, h⟩
        exact absurd h hz

theorem rem_fresh_zero (hkind : ∀ l', g (f new).2 = some l' → l'.ents = [] → l' = new)
    {ks : List Aobj} {b : Bool} {s : Nest}
    (h : rem g (ks.map some) (add new f (ks.map some) (fresh new (ks.map some).length)).2 =
      some (b, s)) (hz : numkeys s = 0) : s = fresh new (ks.map some).length := by
  cases ks with
  | nil =>
      obtain ⟨l', hl, he⟩ := Option.map_eq_some_iff.1 h
      obtain rfl : leaf l' = s := congrArg Prod.snd he
      rw [hkind l' hl (List.length_eq_zero_iff.1 hz)]
      rfl
  | cons k ks =>
      simp only [List.map_cons, List.length_cons, fresh, add, rem] at h
      split at h
      · split at h
        · obtain rfl : _ = s := congrArg Prod.snd (Option.some.inj h)
          rw [show _ = _ from List.length_eq_zero_iff.1 hz]
          rfl
        · cases h
      · obtain ⟨⟨b', s'⟩, _, he⟩ := Option.map_eq_some_iff.1 h
        cases b' with
        | false =>
            obtain rfl : tree _ = s := congrArg Prod.snd he
            rw [show _ = _ from List.length_eq_zero_iff.1 hz]
            rfl
        | true =>
            obtain rfl : tree _ = s := congrArg Prod.snd he
            rw [show _ = _ from List.length_eq_zero_iff.1 hz]
            rfl

/-- A removal undoes an addition. -/
theorem rem_add_iff (hnew : Inv new) (hempty : new.ents = [])
    (hkind : ∀ l', g (f new).2 = some l' → l'.ents = [] → l' = new) :
    ∀ {d : Nat} {ks : List Aobj} {t : Nest}, (ks.map some).length = d → Shape Inv d t →
      ((rem g (ks.map some) (add new f (ks.map some) t).2).map Prod.snd = some t ↔
        lively ks t ∧ g (f ((bottom ks t).getD new)).2 = some ((bottom ks t).getD new))
  | 0, [], leaf l, _, _ => by
      show (Option.map _ (Option.map _ (g (f l).2))) = _ ↔ True ∧ g (f l).2 = some l
      cases g (f l).2 <;> simp
  | d + 1, k :: ks, tree t, hl, o => by
      obtain rfl : (ks.map some).length = d := Nat.succ.inj hl
      have ih := rem_add_iff hnew hempty hkind rfl (o.getD hnew k)
      rw [bottom_getD] at ih
      show (rem g (some k :: ks.map some) (tree (Assoc.set k (add new f (ks.map some)
        ((get? t k).getD (fresh new (ks.map some).length))).2
        (if (get? t k).isSome then t else put k (fresh new (ks.map some).length) t)))).map _ = _ ↔ _
      cases hg : get? t k with
      | some s =>
          rw [hg] at ih
          simp only [Option.getD_some] at ih
          simp only [Option.getD_some, Option.isSome_some, if_true, lively, hg]
          rw [rem_cons k _ (show _ = some _ by rw [get?_set hg, if_pos rfl])]
          rw [map_trickle_iff (n := s) ?_ ?_ ?_, ih, and_right_comm, and_comm (b := numkeys s ≠ 0)]
          · exact fun b s' hr => rem_true (List.length_map some ▸ rfl)
              (shape_add (fun _ h => h) trivial rfl ((o.sub hg).mono fun _ _ => trivial)) hr
          · intro w
            rw [set_set, set_eq_iff hg]
          · rw [del_set]
            exact del_ne hg
      | none =>
          rw [hg] at ih
          simp only [Option.getD_none] at ih
          simp only [Option.getD_none, Option.isSome_none, Bool.false_eq_true, if_false, lively, hg,
            set_put hg]
          rw [rem_cons k _ (show _ = some _ by rw [get?_put hg, if_pos rfl])]
          have hfresh : Shape (fun _ => True) (ks.map some).length (fresh new (ks.map some).length) :=
            shape_fresh trivial _
          have htrue : ∀ b s', rem g (ks.map some) (add new f (ks.map some)
              (fresh new (ks.map some).length)).2 = some (b, s') → b = true :=
            fun b s' hr => rem_true (List.length_map some ▸ rfl)
              (shape_add (fun _ h => h) trivial rfl hfresh) hr
          rw [map_trickle_put hg htrue]
          have hlive : lively ks (fresh new (ks.map some).length) := by cases ks <;> trivial
          constructor
          · rintro ⟨s', hr, hz⟩
            obtain rfl := rem_fresh_zero hkind hr hz
            exact ⟨trivial, (ih.1 (by rw [hr]; rfl)).2⟩
          · rintro ⟨_, h⟩
            obtain ⟨⟨b, s'⟩, hr, rfl⟩ := Option.map_eq_some_iff.1 (ih.2 ⟨hlive, h⟩)
            obtain rfl := htrue _ _ hr
            exact ⟨_, hr, numkeys_fresh new hempty _⟩

/-! ## The destroy pass -/

/-- One level of the destroy pass. -/
theorem destroy_cons (k : Aobj) (p : List (Option Aobj)) {t : List (Aobj × Nest)} {s : Nest}
    (h : get? t k = some s) : destroy (some k :: p) (tree t) =
      tree (if t.length = 1 then Assoc.del k t else Assoc.set k (destroy p s) t) := by
  simp only [destroy, h]
  split <;> rfl

/-- A destroy pass over what has not been changed. -/
theorem destroy_iff : ∀ {p : List (Option Aobj)} {t : Nest}, destroy p t = t ↔ roomy p t
  | [], _ => by simp [destroy, roomy]
  | none :: _, _ => by simp [destroy, roomy]
  | some _ :: _, leaf _ => by simp [destroy, roomy]
  | some k :: p, tree t => by
      cases hg : get? t k with
      | none => simp [destroy, roomy, hg]
      | some s =>
          rw [destroy_cons k p hg, tree.injEq]
          simp only [roomy, hg]
          by_cases hl : t.length = 1
          · rw [if_pos hl]
            exact ⟨fun h => absurd h (del_ne hg), fun h => absurd hl h.1⟩
          · rw [if_neg hl, set_eq_iff hg, destroy_iff]
            exact ⟨fun h => ⟨hl, h⟩, And.right⟩

/-- Where a column is empty a removal changes nothing, if it does not go wrong. -/
theorem rem_skip : ∀ {p : List (Option Aobj)} {t : Nest}, none ∈ p →
    rem g p t = none ∨ rem g p t = some (false, t)
  | none :: p, t, _ => .inr (by simp only [rem])
  | some _ :: _, leaf _, _ => .inr rfl
  | some k :: p, tree t, h => by
      have hp : none ∈ p := by simpa using h
      cases hg : get? t k with
      | none =>
          simp only [rem, hg]
          split
          · exact .inr rfl
          · exact .inl rfl
      | some s =>
          rw [rem_cons k p hg]
          rcases rem_skip (t := s) hp with h | h
          · rw [h]
            exact .inl rfl
          · rw [h]
            exact .inr rfl

theorem rem_skip_iff {p : List (Option Aobj)} {t t' : Nest} (hp : none ∈ p) :
    (rem g p t).map Prod.snd = some t' ↔ (rem g p t).isSome ∧ t = t' := by
  rcases rem_skip (g := g) (t := t) hp with h | h <;> simp [h]

/-- One level of an addition. -/
theorem add_cons (k : Aobj) (p : List (Option Aobj)) (t : List (Aobj × Nest)) :
    (add new f (some k :: p) (tree t)).2 =
      tree (match get? t k with
        | some s => Assoc.set k (add new f p s).2 t
        | none => put k (add new f p (fresh new p.length)).2 t) := by
  cases hg : get? t k with
  | some s => simp [add, hg]
  | none => simp [add, hg, set_put hg]

/-- A row with an empty column. -/
theorem skip_iff : ∀ {p : List (Option Aobj)} {t : Nest}, none ∈ p →
    ((rem g p (destroy p (add new f p t).2)).map Prod.snd = some t ↔ backed p t)
  | none :: p, t, _ => by simp [add, destroy, rem, backed]
  | some _ :: _, leaf _, _ => by simp [add, destroy, rem, backed]
  | some k :: p, tree t, h => by
      have hp : none ∈ p := by simpa using h
      rw [rem_skip_iff h, add_cons]
      cases hg : get? t k with
      | some s =>
          have ih := skip_iff (t := s) hp
          rw [rem_skip_iff hp] at ih
          have hu : get? (Assoc.set k (add new f p s).2 t) k = some (add new f p s).2 := by
            rw [get?_set hg, if_pos rfl]
          simp only [backed, hg]
          rw [destroy_cons k p hu, length_set hg, del_set, set_set]
          by_cases hl : t.length = 1
          · rw [if_pos hl, tree.injEq]
            exact ⟨fun h => absurd h.2 (del_ne hg), fun h => absurd hl h.1⟩
          · have hd : get? (Assoc.set k (destroy p (add new f p s).2) t) k =
                some (destroy p (add new f p s).2) := by
              rw [get?_set hg, if_pos rfl]
            rw [if_neg hl, tree.injEq, set_eq_iff hg, rem_cons k p hd, Option.isSome_map, ih]
            exact ⟨fun h => ⟨hl, h⟩, And.right⟩
      | none =>
          have hu : get? (put k (add new f p (fresh new p.length)).2 t) k =
              some (add new f p (fresh new p.length)).2 := by
            rw [get?_put hg, if_pos rfl]
          simp only [backed, hg]
          rw [destroy_cons k p hu, length_put, del_put hg, set_put hg]
          by_cases hl : t = []
          · subst hl
            simp only [List.length_nil, if_true, and_true, true_and, rem, get?_nil]
            split
            · rename_i hh
              exact ⟨fun _ => hh, fun _ => rfl⟩
            · rename_i hh
              exact ⟨fun h => (by cases h), fun h => absurd h hh⟩
          · have hlen : t.length ≠ 0 := fun h => hl (List.length_eq_zero_iff.1 h)
            rw [if_neg (by omega), tree.injEq]
            exact ⟨fun h => absurd h.2 put_ne, fun h => absurd h.1 hl⟩

theorem shape_destroy : ∀ {d : Nat} {p : List (Option Aobj)} {t : Nest}, Shape Inv d t →
    Shape Inv d (destroy p t)
  | 0, p, leaf l, o => by
      cases p with
      | nil => exact o
      | cons c p => cases c <;> exact o
  | d + 1, [], tree t, o => o
  | d + 1, none :: p, tree t, o => o
  | d + 1, some k :: p, tree t, o => by
      cases hg : get? t k with
      | none => simpa [destroy, hg] using o
      | some s =>
          rw [destroy_cons k p hg]
          intro e he
          split at he
          · exact o e ((perm_del hg).symm.subset (List.mem_cons_of_mem _ he))
          · rcases List.mem_cons.1 ((perm_set hg).subset he) with rfl | he
            · exact shape_destroy (o.sub hg)
            · exact o e ((perm_del hg).symm.subset (List.mem_cons_of_mem _ he))

theorem get?_del_nil {t : List (Aobj × Nest)} {k : Aobj} {s : Nest} (h : get? t k = some s)
    (hl : t.length = 1) : get? (Assoc.del k t) k = none := by
  have hlen := length_del h
  have hnil : Assoc.del k t = [] := List.length_eq_zero_iff.1 (by omega)
  rw [hnil, get?_nil]

/-- A row in a unique index whose last column is empty. -/
theorem skipU_iff {U : Leaf → Prop} (hf : ∀ l, (f l).2 = l) (hU : ∀ l, g l = some l ↔ U l)
    (hempty : new.ents = []) (hkind : ∀ l', g new = some l' → l'.ents = [] → l' = new) :
    ∀ {d : Nat} {ks : List Aobj} {t : Nest}, ks.length = d → Shape (fun _ => True) d t →
      ((rem g (ks.map some) (destroy (ks.map some) (add new f (ks.map some) t).2)).map Prod.snd =
        some t ↔ backedU U new ks t)
  | 0, [], leaf l, _, _ => by
      show (Option.map _ (Option.map _ (g (f l).2))) = _ ↔ U l
      rw [hf, ← hU]
      cases g l <;> simp
  | d + 1, k :: ks, tree t, hl, o => by
      have hl' : ks.length = d := Nat.succ.inj hl
      rw [List.map_cons, add_cons]
      cases hg : get? t k with
      | some s =>
          have ih := skipU_iff hf hU hempty hkind hl' (o.sub hg)
          have hu : get? (Assoc.set k (add new f (ks.map some) s).2 t) k =
              some (add new f (ks.map some) s).2 := by
            rw [get?_set hg, if_pos rfl]
          simp only [backedU, hg]
          rw [destroy_cons k _ hu, length_set hg, del_set, set_set]
          by_cases hlen : t.length = 1
          · rw [if_pos hlen, rem_absent k ks (get?_del_nil hg hlen)]
            exact ⟨fun h => (by cases h), fun h => absurd hlen h.1⟩
          · have hd : get? (Assoc.set k (destroy (ks.map some) (add new f (ks.map some) s).2) t) k =
                some (destroy (ks.map some) (add new f (ks.map some) s).2) := by
              rw [get?_set hg, if_pos rfl]
            rw [if_neg hlen, rem_cons k _ hd, map_trickle_iff (n := s) ?_ ?_ ?_, ih]
            · exact ⟨fun h => ⟨hlen, h.2, h.1⟩, fun h => ⟨h.2.2, h.2.1⟩⟩
            · exact fun b s' hr => rem_true hl' (shape_destroy (shape_add (fun _ h => h)
                trivial (by simpa using hl') (o.sub hg))) hr
            · intro w
              rw [set_set, set_eq_iff hg]
            · rw [del_set]
              exact del_ne hg
      | none =>
          have hu : get? (put k (add new f (ks.map some) (fresh new (ks.map some).length)).2 t) k =
              some (add new f (ks.map some) (fresh new (ks.map some).length)).2 := by
            rw [get?_put hg, if_pos rfl]
          simp only [backedU, hg]
          rw [destroy_cons k _ hu, length_put, del_put hg, set_put hg]
          by_cases hnil : t = []
          · subst hnil
            rw [List.length_nil, if_pos rfl, rem_absent k ks get?_nil]
            exact ⟨fun h => (by cases h), fun h => absurd rfl h.2.1⟩
          · have hlen : t.length ≠ 0 := fun h => hnil (List.length_eq_zero_iff.1 h)
            have hd : get? (put k (destroy (ks.map some) (add new f (ks.map some)
                (fresh new (ks.map some).length)).2) t) k = some (destroy (ks.map some)
                (add new f (ks.map some) (fresh new (ks.map some).length)).2) := by
              rw [get?_put hg, if_pos rfl]
            have hfresh : Shape (fun _ => True) (ks.map some).length
                (fresh new (ks.map some).length) := shape_fresh trivial _
            rw [if_neg (by omega), rem_cons k _ hd, map_trickle_put hg
              (fun b s' hr => rem_true (List.length_map some ▸ rfl) (shape_destroy
                (shape_add (fun _ h => h) trivial rfl hfresh)) hr)]
            cases ks with
            | nil =>
                show (∃ s', (g (f new).2).map _ = _ ∧ _) ↔ _
                rw [hf]
                constructor
                · rintro ⟨s', hr, hz⟩
                  obtain ⟨l', hl', he⟩ := Option.map_eq_some_iff.1 hr
                  obtain rfl : leaf l' = s' := congrArg Prod.snd he
                  have := hkind l' hl' (List.length_eq_zero_iff.1 hz)
                  exact ⟨rfl, hnil, (hU new).1 (this ▸ hl')⟩
                · rintro ⟨_, _, hu⟩
                  refine ⟨leaf new, ?_, ?_⟩
                  · rw [(hU new).2 hu]
                    rfl
                  · show new.ents.length = 0
                    rw [hempty]
                    rfl
            | cons k₂ ks =>
                have hadd : (add new f (some k₂ :: ks.map some) (tree [])).2 =
                    tree (put k₂ (add new f (ks.map some) (fresh new (ks.map some).length)).2 []) :=
                  add_cons k₂ (ks.map some) []
                constructor
                · rintro ⟨s', hr, _⟩
                  simp only [List.map_cons, List.length_cons, fresh] at hr
                  rw [hadd, destroy_cons k₂ _ (show _ = some _ by rw [get?_put get?_nil, if_pos rfl]),
                    length_put, List.length_nil, if_pos rfl, del_put get?_nil,
                    rem_absent k₂ ks get?_nil] at hr
                  cases hr
                · rintro ⟨h, _⟩
                  cases h

theorem add_skip : ∀ {p : List (Option Aobj)} {t : Nest}, none ∈ p → (add new f p t).1 = .skip
  | none :: _, _, _ => by simp only [add]
  | some _ :: _, leaf _, _ => rfl
  | some k :: p, tree t, h => by
      have hp : none ∈ p := by simpa using h
      show (add new f p _).1 = .skip
      exact add_skip hp

end Nest

/-! ## Indexes -/

theorem none_mem_of_whole : ∀ {p : List (Option Aobj)}, whole p = none → none ∈ p
  | none :: _, _ => List.mem_cons_self
  | some _ :: _, h => List.mem_cons_of_mem _ (none_mem_of_whole (Option.map_eq_none_iff.1 h))

namespace Kind

variable {k : Kind} {r : Row} {l : Leaf}

/-- The last column of a unique multi column index is empty. -/
def lastEmpty : Kind → Row → Bool
  | umci _ last _, r => (getCol r last).isNone
  | _, _ => false

/-- The value a row is looked up with at the bottom; `none` where nothing is done. -/
def look : Kind → Row → Option (Option Aobj)
  | silent, _ => none
  | single _ none, r => some (some r.pk)
  | single _ (some o), r => some (getCol r o)
  | uniq col _, r => (getCol r col).map some
  | mci _ none, r => some (some r.pk)
  | mci _ (some o), r => some (getCol r o)
  | umci _ last _, r => some (getCol r last)

theorem leafDel_look (k : Kind) (r : Row) (l : Leaf) : k.leafDel r l =
    match k.look r with
    | none => some l
    | some a => l.del a := by
  cases k with
  | silent => rfl
  | single c o => cases o <;> rfl
  | uniq c t => cases hc : getCol r c <;> simp [leafDel, look, hc]
  | mci c o => cases o <;> rfl
  | umci c last t => rfl

/-- What an addition can do at the bottom. -/
inductive Step (k : Kind) (r : Row) (l : Leaf) : Prop where
  | viol (a : Option Aobj) (hl : k.look r = some a) (he : k.lastEmpty r = false)
      (hf : l.find a = true) (h : k.leafAdd r l = (.viol, l))
  | added (a : Option Aobj) (hl : k.look r = some a) (he : k.lastEmpty r = false)
      (h : k.leafAdd r l = (.ok, l.add a r.pk))
  | idle (s : Nest.Added) (hl : k.look r = none) (hm : k.multi = false) (he : k.lastEmpty r = false)
      (hs : s ≠ .viol) (h : k.leafAdd r l = (s, l))
  | last (he : k.lastEmpty r = true) (hl : k.look r = some none) (h : k.leafAdd r l = (.skip, l))

theorem step (k : Kind) (r : Row) (l : Leaf) : k.Step r l := by
  cases k with
  | silent => exact .idle .ok rfl rfl rfl (by simp) rfl
  | single c o =>
      cases o with
      | none => exact .added (some r.pk) rfl rfl rfl
      | some o =>
          cases hf : l.find (getCol r o) with
          | true => exact .viol _ rfl rfl hf (by simp [leafAdd, btIndNodeAdd, hf])
          | false => exact .added _ rfl rfl (by simp [leafAdd, btIndNodeAdd, hf])
  | uniq c t =>
      cases hc : getCol r c with
      | none => exact .idle .skip (by simp [look, hc]) rfl rfl (by simp) (by simp [leafAdd, uniqAdd, hc])
      | some v =>
          cases hf : l.find (some v) with
          | true =>
              exact .viol (some v) (by simp [look, hc]) rfl hf (by simp [leafAdd, uniqAdd, hc, hf])
          | false => exact .added (some v) (by simp [look, hc]) rfl (by simp [leafAdd, uniqAdd, hc, hf])
  | mci c o =>
      cases o with
      | none => exact .added (some r.pk) rfl rfl rfl
      | some o =>
          cases hf : l.find (getCol r o) with
          | true => exact .viol _ rfl rfl hf (by simp [leafAdd, btIndNodeAdd, hf])
          | false => exact .added _ rfl rfl (by simp [leafAdd, btIndNodeAdd, hf])
  | umci c last t =>
      cases hc : getCol r last with
      | none => exact .last (by simp [lastEmpty, hc]) (by simp [look, hc]) (by simp [leafAdd, uniqAdd, hc])
      | some v =>
          cases hf : l.find (some v) with
          | true =>
              exact .viol (some v) (by simp [look, hc]) (by simp [lastEmpty, hc]) hf
                (by simp [leafAdd, uniqAdd, hc, hf])
          | false =>
              exact .added (some v) (by simp [look, hc]) (by simp [lastEmpty, hc])
                (by simp [leafAdd, uniqAdd, hc, hf])

/-- What is asked of the tree at the bottom. -/
def undoLeaf (k : Kind) (r : Row) (l : Leaf) : Prop :=
  match k.look r with
  | none => True
  | some a => l.Undoable a r.pk

theorem undoLeaf_iff (hs : l.Sorted) (he : k.lastEmpty r = false)
    (h : (k.leafAdd r l).1 ≠ .viol) :
    k.leafDel r (k.leafAdd r l).2 = some l ↔ k.undoLeaf r l := by
  rw [leafDel_look]
  unfold undoLeaf
  cases k.step r l with
  | viol a hl he hf h' => exact absurd (by rw [h']) h
  | added a hl he h' =>
      rw [h', hl]
      exact Leaf.del_add_iff hs
  | idle s hl hm he hs h' =>
      rw [h', hl]
      exact ⟨fun _ => trivial, fun _ => rfl⟩
  | last he' hl h' => rw [he] at he'; cases he'

theorem leafAdd_kind (k : Kind) (r : Row) (l : Leaf) : (k.leafAdd r l).2.kind = l.kind := by
  cases k.step r l with
  | viol a hl he hf h => rw [h]
  | added a hl he h =>
      rw [h]
      exact Leaf.add_kind l a r.pk
  | idle s hl hm he hs h => rw [h]
  | last he hl h => rw [h]

theorem leafAdd_sorted (hs : l.Sorted) : (k.leafAdd r l).2.Sorted := by
  cases k.step r l with
  | viol a hl he hf h => rw [h]; exact hs
  | added a hl he h => rw [h]; exact hs.add
  | idle s hl hm he hs' h => rw [h]; exact hs
  | last he hl h => rw [h]; exact hs

theorem leafDel_kind {l' : Leaf} (h : k.leafDel r l = some l') : l'.kind = l.kind := by
  rw [leafDel_look] at h
  split at h
  · cases h; rfl
  · exact Leaf.del_kind h

theorem leafDel_sorted {l' : Leaf} (hs : l.Sorted) (h : k.leafDel r l = some l') : l'.Sorted := by
  rw [leafDel_look] at h
  split at h
  · cases h; exact hs
  · exact hs.del h

theorem find_ents {a : Option Aobj} (h : l.find a = true) : l.ents ≠ [] := by
  intro hnil
  unfold Leaf.find at h
  rw [hnil] at h
  split at h
  · cases h
  · simp at h

theorem leafAdd_viol (h : (k.leafAdd r l).1 = .viol) : (k.leafAdd r l).2 = l ∧ l.ents ≠ [] := by
  cases k.step r l with
  | viol a hl he hf h' => exact ⟨by rw [h'], find_ents hf⟩
  | added a hl he h' => rw [h'] at h; cases h
  | idle s hl hm he hs h' => rw [h'] at h; exact absurd h hs
  | last he hl h' => rw [h'] at h; cases h

theorem leafAdd_multi (hm : k.multi = true) (he : k.lastEmpty r = false)
    (h : (k.leafAdd r l).1 ≠ .viol) : (k.leafAdd r l).1 = .ok := by
  cases k.step r l with
  | viol a hl he hf h' => exact absurd (by rw [h']) h
  | added a hl he h' => rw [h']
  | idle s hl hm' he hs h' => rw [hm] at hm'; cases hm'
  | last he' hl h' => rw [he] at he'; cases he'

end Kind

namespace Ind

variable {x : Ind} {r : Row}

/-- The trees have the levels of the index, and those at the bottom are in key order. -/
def Shaped (x : Ind) : Prop := Nest.Shape Leaf.Sorted x.kind.depth x.tree

/-- An index that accepts the row is restored when the row is taken out again. -/
def Undone (x : Ind) (r : Row) : Prop :=
  match whole (x.kind.path r) with
  | none => x.kind.multi = true → Nest.backed (x.kind.path r) x.tree
  | some ks =>
      if x.kind.lastEmpty r then
        Nest.backedU (fun l => createBTKey l.kind none = none) (x.kind.newLeaf r) ks x.tree
      else Nest.lively ks x.tree ∧
        x.kind.undoLeaf r ((Nest.bottom ks x.tree).getD (x.kind.newLeaf r))

/-- An index that rejects the row has not changed. -/
def Spared (x : Ind) (r : Row) : Prop :=
  x.kind.multi = true → Nest.roomy (x.kind.path r) x.tree

theorem delFromIndex_iff {k : Kind} {t : Nest} (hk : k = x.kind) :
    (⟨k, t⟩ : Ind).delFromIndex r = some x ↔
      (Nest.rem (k.leafDel r) (k.path r) t).map Prod.snd = some x.tree := by
  subst hk
  unfold delFromIndex
  cases Nest.rem (x.kind.leafDel r) (x.kind.path r) t with
  | none => simp
  | some e =>
      simp only [Option.map_some, Option.some.injEq]
      constructor
      · intro h
        exact congrArg Ind.tree h
      · intro h
        rw [h]

theorem tried_skip (h : none ∈ x.kind.path r) : (x.tried r).1 = .skip := Nest.add_skip h

/-- A row with an empty column. -/
theorem undone_iff_skip (hw : whole (x.kind.path r) = none) :
    (x.addToIndex r).2.delFromIndex r = some x ↔
      (x.kind.multi = true → Nest.backed (x.kind.path r) x.tree) := by
  have hn := none_mem_of_whole hw
  have hadd : (x.addToIndex r).2 = ⟨x.kind, if x.kind.multi then
      Nest.destroy (x.kind.path r) (x.tried r).2 else (x.tried r).2⟩ := by
    simp [addToIndex, tried_skip hn]
  rw [hadd, delFromIndex_iff rfl]
  by_cases hm : x.kind.multi = true
  · rw [if_pos hm]
    refine (Nest.skip_iff hn).trans ⟨fun h _ => h, fun h => h hm⟩
  · rw [if_neg hm]
    refine ⟨fun _ h => absurd h hm, fun _ => ?_⟩
    unfold tried
    cases hk : x.kind with
    | silent => rw [hk] at hn; cases hn
    | single c o =>
        rw [hk] at hn
        have hc : getCol r c = none := (List.mem_singleton.1 hn).symm
        simp [Kind.path, hc, Nest.add, Nest.rem]
    | uniq c t => rw [hk] at hn; cases hn
    | mci c o => rw [hk] at hm; exact absurd rfl hm
    | umci c last t => rw [hk] at hm; exact absurd rfl hm

theorem newLeaf_sorted (k : Kind) (r : Row) : (k.newLeaf r).Sorted := by
  unfold Leaf.Sorted
  rw [Kind.newLeaf_ents]
  exact List.Pairwise.nil

theorem bottom_sorted {d : Nat} {ks : List Aobj} {t : Nest} {new : Leaf}
    (hs : Nest.Shape Leaf.Sorted d t) (hnew : new.Sorted) :
    ((Nest.bottom ks t).getD new).Sorted := by
  induction ks generalizing d t with
  | nil =>
      cases t with
      | leaf l =>
          cases d with
          | zero => exact hs
          | succ d => cases hs
      | tree t => exact hnew
  | cons k ks ih =>
      cases t with
      | leaf l => exact hnew
      | tree t =>
          cases d with
          | zero => cases hs
          | succ d =>
              cases hg : get? t k with
              | none =>
                  simp only [Nest.bottom, hg, Option.bind_none, Option.getD_none]
                  exact hnew
              | some s =>
                  simp only [Nest.bottom, hg, Option.bind_some]
                  exact ih (hs.sub hg)

/-- When the row is taken out again of an index that accepted it. -/
theorem undone_iff (hs : x.Shaped) (hacc : (x.addToIndex r).1 = true) :
    (x.addToIndex r).2.delFromIndex r = some x ↔ x.Undone r := by
  unfold Undone
  cases hw : whole (x.kind.path r) with
  | none => exact undone_iff_skip hw
  | some ks =>
      have hp := whole_eq hw
      have hlen : (ks.map some).length = x.kind.depth := by
        rw [← hp]
        exact Kind.path_length _ _
      have hnew := newLeaf_sorted x.kind r
      have hfst : (x.tried r).1 =
          (x.kind.leafAdd r ((Nest.bottom ks x.tree).getD (x.kind.newLeaf r))).1 := by
        unfold tried
        rw [hp]
        exact Nest.add_fst hnew hlen hs
      have hviol : (x.tried r).1 ≠ .viol := by simpa [addToIndex] using hacc
      simp only
      split
      · rename_i he
        -- the destroy pass has run over the whole way down
        obtain ⟨cols, last, t, hk, hc⟩ : ∃ cols last t, x.kind = .umci cols last t ∧
            getCol r last = none := by
          cases hk : x.kind with
          | umci cols last t =>
              rw [hk] at he
              exact ⟨cols, last, t, rfl, Option.isNone_iff_eq_none.1 he⟩
          | _ => rw [hk] at he; cases he
        have hleaf : ∀ l, x.kind.leafAdd r l = (.skip, l) := by
          intro l
          simp [hk, Kind.leafAdd, uniqAdd, hc]
        have hdel : ∀ l, x.kind.leafDel r l = l.del none := by
          intro l
          simp [hk, Kind.leafDel, hc]
        have hadd : (x.addToIndex r).2 = ⟨x.kind, Nest.destroy (x.kind.path r) (x.tried r).2⟩ := by
          have hskip : (x.tried r).1 = .skip := by rw [hfst, hleaf]
          simp [addToIndex, hskip, show x.kind.multi = true by rw [hk]; rfl]
        rw [hadd, delFromIndex_iff rfl]
        unfold tried
        rw [hp]
        refine Nest.skipU_iff (fun l => by rw [hleaf]) (fun l => by rw [hdel, Leaf.del_none_iff])
          (Kind.newLeaf_ents _ _) ?_ ((List.length_map some).symm.trans hlen)
          (hs.mono fun _ _ => trivial)
        intro l' hl' hents
        have hkd := Kind.leafDel_kind hl'
        have hents' := Kind.newLeaf_ents x.kind r
        cases l'
        cases hn : x.kind.newLeaf r
        rw [hn] at hkd hents'
        simp_all
      · rename_i he
        have he : x.kind.lastEmpty r = false := by simpa using he
        have hadd : (x.addToIndex r).2 = ⟨x.kind, (x.tried r).2⟩ := by
          have : ¬ (x.kind.multi = true ∧ (x.tried r).1 ≠ .ok) := by
            rintro ⟨hm, hok⟩
            rw [hfst] at hok hviol
            exact hok (Kind.leafAdd_multi hm he hviol)
          simp [addToIndex, this]
        rw [hadd, delFromIndex_iff rfl]
        unfold tried
        rw [hp, Nest.rem_add_iff hnew (Kind.newLeaf_ents _ _) ?_ hlen hs]
        · rw [Kind.undoLeaf_iff (bottom_sorted hs hnew) he (by rw [← hfst]; exact hviol)]
        · intro l' hl' hents
          have hkd := (Kind.leafDel_kind hl').trans (Kind.leafAdd_kind _ _ _)
          have hents' := Kind.newLeaf_ents x.kind r
          cases l'
          cases hn : x.kind.newLeaf r
          rw [hn] at hkd hents'
          simp_all

/-- When an index that rejects the row is as it was. -/
theorem spared_iff (hrej : (x.addToIndex r).1 = false) : (x.addToIndex r).2 = x ↔ x.Spared r := by
  have hviol : (x.tried r).1 = .viol := by simpa [addToIndex] using hrej
  have hsame : (x.tried r).2 = x.tree :=
    Nest.add_viol (fun l hl => (Kind.leafAdd_viol hl).1)
      (fun h => (Kind.leafAdd_viol h).2 (Kind.newLeaf_ents _ _)) hviol
  unfold Spared
  have hadd : (x.addToIndex r).2 = ⟨x.kind, if x.kind.multi = true then
      Nest.destroy (x.kind.path r) x.tree else x.tree⟩ := by
    simp [addToIndex, hviol, hsame]
  rw [hadd]
  by_cases hm : x.kind.multi = true
  · rw [if_pos hm, ← Nest.destroy_iff]
    constructor
    · intro h _
      exact congrArg Ind.tree h
    · intro h
      rw [h hm]
  · rw [if_neg hm]
    exact ⟨fun _ h => absurd h hm, fun _ => rfl⟩

/-! ### Indexes stay in shape -/

theorem Shaped.new {pktyp : KType} {k : Kind} (h : k.multi = true → k.depth ≠ 0) :
    (new pktyp k).Shaped := by
  have htree : k.depth ≠ 0 → Nest.Shape Leaf.Sorted k.depth (.tree []) := by
    intro hd
    obtain ⟨d, hd⟩ := Nat.exists_eq_succ_of_ne_zero hd
    rw [hd]
    exact fun e he => absurd he List.not_mem_nil
  cases k with
  | silent => exact List.Pairwise.nil
  | single c o => exact htree (Nat.succ_ne_zero 0)
  | uniq c t =>
      show (createUIBT t pktyp).Sorted
      unfold Leaf.Sorted
      rw [Kind.createUIBT_ents]
      exact List.Pairwise.nil
  | mci c o => exact htree (h rfl)
  | umci c last t => exact htree (h rfl)

theorem Shaped.addToIndex (hs : x.Shaped) : (x.addToIndex r).2.Shaped := by
  have ht : Nest.Shape Leaf.Sorted x.kind.depth (x.tried r).2 :=
    Nest.shape_add (fun l hl => Kind.leafAdd_sorted hl) (newLeaf_sorted _ _) (Kind.path_length _ _) hs
  show Nest.Shape Leaf.Sorted x.kind.depth
    (if x.kind.multi ∧ (x.tried r).1 ≠ .ok then _ else _)
  split
  · exact Nest.shape_destroy ht
  · exact ht

theorem Shaped.delFromIndex {y : Ind} (hs : x.Shaped) (h : x.delFromIndex r = some y) :
    y.Shaped := by
  obtain ⟨⟨b, t⟩, hr, rfl⟩ := Option.map_eq_some_iff.1 h
  exact Nest.shape_rem (fun l l' hl h => Kind.leafDel_sorted hl h) (Kind.path_length _ _) hs hr

end Ind

end AlchemyDB.Index
