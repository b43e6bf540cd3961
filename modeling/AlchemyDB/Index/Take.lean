/-
# Taking and giving back — an index of any kind in step with rows

`Synced` says that an index is in step with a list of rows, of which some have
empty columns.  It is kept by an addition that the index accepts (`Takes`) and by
a removal (`Gives`), under conditions on the row and on the rows that are there:
keys that can be stored, and empty columns that the destroy pass of a multi column
index survives.
-/
import AlchemyDB.Index.Undo

namespace AlchemyDB.Index

open Assoc

namespace Nest

/-- The destroy pass takes what was created on the way and nothing else: every tree on the way has
another key, or the way ends in an empty tree. -/
def passes : List (Option Aobj) → Nest → Prop
  | some k :: p, tree t =>
      match get? t k with
      | some s => t.length ≠ 1 ∧ passes p s
      | none => t = []
  | _, _ => True

/-- The way is there. -/
def found : List Aobj → Nest → Prop
  | [], _ => True
  | k :: ks, tree t => ∃ s, get? t k = some s ∧ found ks s
  | _ :: _, leaf _ => False

/-- The keys under which a removal has to find a tree: those before the last one in front of an empty
column. -/
def openers : List (Option Aobj) → List Aobj
  | some k :: p => if p.head? = some none then [] else k :: openers p
  | _ => []

variable {Inv : Leaf → Prop} {new : Leaf} {f : Leaf → Added × Leaf} {g : Leaf → Option Leaf}

theorem passes_iff : ∀ {p : List (Option Aobj)} {t : Nest}, (none ∈ p ∨ ∀ l, (f l).2 = l) →
    (destroy p (add new f p t).2 = t ↔ passes p t)
  | [], leaf l, h => by
      have hf : (f l).2 = l := (h.resolve_left List.not_mem_nil) l
      simp [add, destroy, passes, hf]
  | [], tree _, _ => by simp [add, destroy, passes]
  | none :: _, _, _ => by simp [add, destroy, passes]
  | some _ :: _, leaf _, _ => by simp [add, destroy, passes]
  | some k :: p, tree t, h => by
      have hp : none ∈ p ∨ ∀ l, (f l).2 = l := h.imp_left (fun h => by simpa using h)
      rw [add_cons]
      cases hg : get? t k with
      | some s =>
          have hu : get? (Assoc.set k (add new f p s).2 t) k = some (add new f p s).2 := by
            rw [get?_set hg, if_pos rfl]
          simp only [passes, hg]
          rw [destroy_cons k p hu, length_set hg, del_set, set_set, tree.injEq]
          by_cases hl : t.length = 1
          · rw [if_pos hl]
            exact ⟨fun h => absurd h (del_ne hg), fun h => absurd hl h.1⟩
          · rw [if_neg hl, set_eq_iff hg, passes_iff hp]
            exact ⟨fun h => ⟨hl, h⟩, And.right⟩
      | none =>
          have hu : get? (put k (add new f p (fresh new p.length)).2 t) k =
              some (add new f p (fresh new p.length)).2 := by
            rw [get?_put hg, if_pos rfl]
          simp only [passes, hg]
          rw [destroy_cons k p hu, length_put, del_put hg, set_put hg, tree.injEq]
          by_cases hl : t = []
          · subst hl
            simp
          · have hlen : t.length ≠ 0 := fun h => hl (List.length_eq_zero_iff.1 h)
            rw [if_neg (by omega)]
            exact ⟨fun h => absurd h put_ne, fun h => absurd h hl⟩

/-- A removal that comes to an empty column. -/
theorem rem_opens : ∀ {p : List (Option Aobj)} {t : Nest}, none ∈ p → found (openers p) t →
    rem g p t = some (false, t)
  | none :: p, t, _, _ => by simp only [rem]
  | some _ :: _, leaf _, _, _ => rfl
  | some k :: p, tree t, h, ho => by
      have hp : none ∈ p := by simpa using h
      unfold openers at ho
      by_cases hh : p.head? = some none
      · cases hg : get? t k with
        | none => simp only [rem, hg, if_pos hh]
        | some s =>
            obtain ⟨q, rfl⟩ : ∃ q, p = none :: q := by
              cases p with
              | nil => cases hh
              | cons a q => cases Option.some.inj hh; exact ⟨q, rfl⟩
            rw [rem_cons k _ hg]
            simp only [rem, Option.map_some, trickle]
      · rw [if_neg hh] at ho
        obtain ⟨s, hg, ho⟩ := ho
        rw [rem_cons k p hg, rem_opens hp ho]
        rfl

/-- A removal that changes nothing at the bottom. -/
theorem rem_found : ∀ {d : Nat} {ks : List Aobj} {t : Nest}, ks.length = d → Ok Inv d t →
    found ks t → (∀ l, bottom ks t = some l → g l = some l) → rem g (ks.map some) t = some (true, t)
  | 0, [], leaf l, _, _, _, h => by
      simp [rem, h l rfl]
  | d + 1, k :: ks, tree t, hlen, o, ⟨s, hg, hfd⟩, h => by
      obtain ⟨h1, h2⟩ := o.sub hg
      have ih := rem_found (Nat.succ.inj hlen) h2 hfd
        (fun l hl => h l (by simp [bottom, hg, hl]))
      rw [List.map_cons, rem_cons k _ hg, ih]
      simp only [Option.map_some, trickle, if_neg h1, set_same hg]

/-- What is found are the beginnings of the rows. -/
theorem found_of_rows : ∀ {d : Nat} {ks : List Aobj} {t : Nest} {q : List Aobj × (Aobj × Aobj)},
    Ok Inv d t → q ∈ rows d t → ks <+: q.1 → found ks t
  | _, [], _, _, _, _, _ => trivial
  | 0, k :: ks, leaf l, q, _, hq, hpre => by
      obtain ⟨e, _, rfl⟩ := List.mem_map.1 hq
      exact absurd hpre (by simp)
  | d + 1, k :: ks, tree t, ⟨p, e⟩, o, hq, hpre => by
      obtain ⟨p', rfl⟩ : ∃ p', p = k :: p' := by
        obtain ⟨w, hw⟩ := hpre
        exact ⟨ks ++ w, hw.symm⟩
      obtain ⟨s, hs, hr⟩ := mem_rows_tree o.1 hq
      have hpre' : ks <+: p' := by simpa using hpre
      exact ⟨s, hs, found_of_rows (o.sub hs).2 hr hpre'⟩

end Nest

/-! ## Indexes -/

namespace Kind

variable {k : Kind} {r : Row} {l : Leaf}

/-- Where an accepted row goes by something else than its primary key, its key was not found. -/
theorem bkey_cases {a : Aobj} (hb : k.bkey r = some a) (h : (k.leafAdd r l).1 = .ok) :
    (∀ p : Row, k.bkey p = some p.pk) ∨
      (l.find (some a) = false ∧ ∀ ty t, k.leafKind ty ≠ .inode t) := by
  have hind : ∀ (o : Nat) (ty : Nat → KType) (t : KType),
      (createIndexNode (ty 0) (some (ty o))).kind ≠ .inode t := by
    intro o ty t
    unfold createIndexNode
    split
    · contradiction
    · split <;> simp
    · simp
  cases k with
  | silent => cases hb
  | single c o =>
      cases o with
      | none => exact .inl fun _ => rfl
      | some o => exact .inr ⟨(btIndNodeAdd_ok hb h).1, hind o⟩
  | uniq c t => exact .inr ⟨(uniqAdd_ok hb h).1, fun ty => createUIBT_kind _ _⟩
  | mci c o =>
      cases o with
      | none => exact .inl fun _ => rfl
      | some o => exact .inr ⟨(btIndNodeAdd_ok hb h).1, hind o⟩
  | umci c last t => exact .inr ⟨(uniqAdd_ok hb h).1, fun ty => createUIBT_kind _ _⟩

/-- What an index without an image for the row asks for, at an addition. -/
def Passes (k : Kind) (r : Row) (t : Nest) : Prop :=
  match whole (k.path r), k with
  | none, .mci _ _ | none, .umci _ _ _ | some _, .umci _ _ _ => Nest.passes (k.path r) t
  | some _, .single _ (some _) | some _, .mci _ (some _) => False
  | _, _ => True

/-- The row has a place in the index and cannot be found there: its ORDER BY column is empty, or a
unique index packs it with the primary key 0. -/
def Hidden (ty : Nat → KType) (k : Kind) (r : Row) : Prop :=
  match k with
  | .single _ (some o) | .mci _ (some o) => whole (k.path r) ≠ none ∧ getCol r o = none
  | .uniq _ _ | .umci _ _ _ => k.image r ≠ none ∧ k.leafKind ty = .uu ∧ r.pk = .int 0
  | _ => False

end Kind

/-- The index can take the row: the key is stored as it is, and no packed 0 hides the row or a row
under the same key; or the row has no place in the index and passes through it. -/
def Takes (ty : Nat → KType) (live : List Row) (x : Ind) (r : Row) : Prop :=
  match x.kind.image r with
  | some q => Stored (x.kind.leafKind ty) q.2.1 r.pk ∧
      (x.kind.leafKind ty = .uu → (x.kind.unique = true → r.pk ≠ .int 0) ∧
        ∀ p ∈ live, x.kind.image p = some (q.1, (q.2.1, p.pk)) → p.pk ≠ .int 0)
  | none => x.kind.Passes r x.tree

theorem Takes.shown {ty : Nat → KType} {live : List Row} {x : Ind} {r : Row}
    (h : Takes ty live x r) : ¬ x.kind.Hidden ty r := by
  intro hk
  -- a unique index has stored the row
  have huniq : x.kind.unique = true →
      ¬ (x.kind.image r ≠ none ∧ x.kind.leafKind ty = .uu ∧ r.pk = .int 0) := by
    rintro hu ⟨hi, hl, hpk⟩
    obtain ⟨q, hi⟩ := Option.ne_none_iff_exists'.1 hi
    simp only [Takes, hi] at h
    exact (h.2 hl).1 hu hpk
  -- the other trees do not take a row without a key
  have hobc : x.kind.image r = none → x.kind.Passes r x.tree := by
    intro hi
    simpa only [Takes, hi] using h
  unfold Kind.Passes at hobc
  cases hx : x.kind with
  | silent => rw [hx] at hk; cases hk
  | uniq c a =>
      rw [hx] at hk huniq
      exact huniq rfl hk
  | umci c last a =>
      rw [hx] at hk huniq
      exact huniq rfl hk
  | single c o =>
      cases o with
      | none => rw [hx] at hk; cases hk
      | some o =>
          rw [hx] at hk hobc
          obtain ⟨hw, ho⟩ := hk
          obtain ⟨ks, hw⟩ := Option.ne_none_iff_exists'.1 hw
          have hp := hobc (by simp [Kind.image, hw, Kind.bkey, ho])
          rw [hw] at hp
          exact hp
  | mci c o =>
      cases o with
      | none => rw [hx] at hk; cases hk
      | some o =>
          rw [hx] at hk hobc
          obtain ⟨hw, ho⟩ := hk
          obtain ⟨ks, hw⟩ := Option.ne_none_iff_exists'.1 hw
          have hp := hobc (by simp [Kind.image, hw, Kind.bkey, ho])
          rw [hw] at hp
          exact hp

/-- The row can be removed from an index that is in step with `live`. -/
def Gives (ty : Nat → KType) (live : List Row) (k : Kind) (r : Row) : Prop :=
  match k.image r with
  | some q => k.leafKind ty = .inode .u128 →
      (live.filterMap k.image).countP (fun p => p.1 = q.1) ≤ 7
  | none =>
      match whole (k.path r), k with
      | none, .mci _ _ | none, .umci _ _ _ => Nest.openers (k.path r) = [] ∨
          ∃ q ∈ live.filterMap k.image, Nest.openers (k.path r) <+: q.1
      | some ks, .umci _ _ _ => createBTKey (k.leafKind ty) none = none ∧
          ∃ q ∈ live.filterMap k.image, ks <+: q.1
      | some _, .single _ (some _) | some _, .mci _ (some _) => False
      | _, _ => True

/-- The index is in step with rows of the table that it has stored as they are. -/
structure Synced (ty : Nat → KType) (live : List Row) (x : Ind) : Prop where
  holds : Holds ty live x
  shaped : x.Shaped
  typed : ∀ r ∈ live, r.Of ty
  stored : ∀ r ∈ live, ∀ q, x.kind.image r = some q → Stored (x.kind.leafKind ty) q.2.1 r.pk

namespace Ind

variable {x : Ind} {r : Row} {ty : Nat → KType} {Inv : Leaf → Prop}

theorem ok_leaf {t : Nest} (o : Nest.Ok Inv 0 t) : ∃ l, t = .leaf l := by
  cases t with
  | leaf l => exact ⟨l, rfl⟩
  | tree t => cases o

/-- What an addition without an image does to the trees. -/
theorem addToIndex_passes (hm : x.kind.multi = true) (hne : (x.tried r).1 ≠ .ok)
    (h : none ∈ x.kind.path r ∨ ∀ l, (x.kind.leafAdd r l).2 = l)
    (hp : Nest.passes (x.kind.path r) x.tree) : (x.addToIndex r).2 = x := by
  have hd : Nest.destroy (x.kind.path r) (x.tried r).2 = x.tree := (Nest.passes_iff h).2 hp
  simp only [addToIndex, hm, hne, true_and, ne_eq, not_false_eq_true, if_true, hd]

/-- A row that has no place in the index passes through it. -/
theorem addToIndex_blank (o : Nest.Ok Inv x.kind.depth x.tree) (hi : x.kind.image r = none)
    (hp : x.kind.Passes r x.tree) : (x.addToIndex r).2 = x := by
  obtain ⟨k, t⟩ := x
  unfold Kind.image at hi
  unfold Kind.Passes at hp
  cases hw : whole (k.path r) with
  | none =>
      have hn := none_mem_of_whole hw
      have hskip : ((⟨k, t⟩ : Ind).tried r).1 = .skip := tried_skip hn
      have hne : ((⟨k, t⟩ : Ind).tried r).1 ≠ .ok := by rw [hskip]; simp
      rw [hw] at hp
      cases k with
      | silent => cases hn
      | single c a =>
          have hc : getCol r c = none := (List.mem_singleton.1 hn).symm
          simp [addToIndex, tried, Kind.path, hc, Nest.add, Kind.multi]
      | uniq c a => cases hn
      | mci c a => exact addToIndex_passes rfl hne (.inl hn) hp
      | umci c last a => exact addToIndex_passes rfl hne (.inl hn) hp
  | some ks =>
      rw [hw] at hi hp
      have hb : k.bkey r = none := by
        cases hb : k.bkey r with
        | none => rfl
        | some a => rw [hb] at hi; cases hi
      cases k with
      | silent =>
          obtain ⟨l, rfl⟩ := ok_leaf o
          rfl
      | single c a =>
          cases a with
          | none => cases hb
          | some a => cases hp
      | uniq c a =>
          obtain ⟨l, rfl⟩ := ok_leaf o
          have hc : getCol r c = none := hb
          simp [addToIndex, tried, Kind.path, Nest.add, Kind.multi, Kind.leafAdd, uniqAdd, hc]
      | mci c a =>
          cases a with
          | none => cases hb
          | some a => cases hp
      | umci c last a =>
          have hc : getCol r last = none := hb
          have hleaf : ∀ l, (Kind.umci c last a).leafAdd r l = (.skip, l) := by
            intro l
            simp [Kind.leafAdd, uniqAdd, hc]
          refine addToIndex_passes rfl ?_ (.inr fun l => by rw [hleaf]) hp
          have hlen : (ks.map some).length = (Kind.umci c last a).depth := by
            rw [← whole_eq hw]
            exact Kind.path_length _ _
          unfold tried
          simp only
          have hshape : Nest.Shape (fun _ => True) (Kind.umci c last a).depth t :=
            o.shape.mono fun _ _ => trivial
          rw [whole_eq hw, Nest.add_fst trivial hlen hshape, hleaf]
          simp

end Ind

namespace Synced

variable {ty : Nat → KType} {live live' : List Row} {x y : Ind} {r : Row}

/-- An index as it is created. -/
theorem new (k : Kind) (h : k.multi = true → k.depth ≠ 0) : Synced ty [] (Ind.new (ty 0) k) := by
  have htree : k.depth ≠ 0 → Nest.Ok (Leaf.Fits (k.leafKind ty)) k.depth (.tree []) ∧
      Nest.rows k.depth (.tree []) = [] := by
    intro hd
    obtain ⟨d, hd⟩ := Nat.exists_eq_succ_of_ne_zero hd
    rw [hd]
    exact ⟨⟨List.nodup_nil, fun e he => absurd he List.not_mem_nil⟩, rfl⟩
  have hok : Nest.Ok (Leaf.Fits (k.leafKind ty)) k.depth (Ind.new (ty 0) k).tree ∧
      Nest.rows k.depth (Ind.new (ty 0) k).tree = [] := by
    cases k with
    | silent => exact ⟨Leaf.Fits.empty _, rfl⟩
    | single c o => exact htree (Nat.succ_ne_zero 0)
    | uniq c t =>
        have hents := Kind.createUIBT_ents t (ty 0)
        refine ⟨⟨rfl, ?_⟩, ?_⟩
        · rw [hents]
          exact fun e he => absurd he List.not_mem_nil
        · show (createUIBT t (ty 0)).ents.map _ = []
          rw [hents]
          rfl
    | mci c o => exact htree (h rfl)
    | umci c last t => exact htree (h rfl)
  exact ⟨⟨hok.1, by rw [show (Ind.new (ty 0) k).kind = k from rfl, hok.2]; exact .refl _⟩,
    Ind.Shaped.new h, fun r hr => absurd hr List.not_mem_nil,
    fun r hr => absurd hr List.not_mem_nil⟩

theorem perm (h : Synced ty live x) (hp : live.Perm live') : Synced ty live' x :=
  ⟨⟨h.holds.ok, h.holds.rows.trans (hp.filterMap _)⟩, h.shaped,
    fun r hr => h.typed r (hp.symm.subset hr), fun r hr => h.stored r (hp.symm.subset hr)⟩

/-- The keys of a node tree are its entries, and the other trees take a second row only over a packed
0. -/
theorem fresh (h : Synced ty live x) (hr : r.Of ty) {q : List Aobj × (Aobj × Aobj)}
    (hi : x.kind.image r = some q) (ht : Takes ty live x r) (hok : (x.addToIndex r).1 = true) :
    ∀ e, (q.1, e) ∈ live.filterMap x.kind.image → e.1 = q.2.1 → e.2 = r.pk := by
  intro e he heq
  simp only [Takes, hi] at ht
  obtain ⟨p, hpl, hpi⟩ := List.mem_filterMap.1 he
  obtain ⟨_, hb, _⟩ := Kind.image_eq hi
  obtain ⟨_, hb', hq'⟩ := Kind.image_eq hpi
  obtain ⟨l, hl, hel⟩ := (Nest.mem_rows h.holds.ok).1 (h.holds.rows.symm.subset he)
  have hfst := h.holds.tried_ok hr hi hok
  rw [h.holds.tried_fst hr hi, hl, Option.getD_some] at hfst
  have hfits := Nest.bottom_inv h.holds.ok hl
  rcases Kind.bkey_cases hb hfst with hpk | ⟨hfind, hkind⟩
  · have h1 : q.2.1 = r.pk := Option.some.inj (hb.symm.trans (hpk r))
    have h2 : e.1 = p.pk := Option.some.inj (hb'.symm.trans (hpk p))
    rw [hq', ← h2, heq, h1]
  · exfalso
    obtain ⟨hu, h0⟩ := hfits.absent ht.1.1 (hkind ty) hfind e hel heq
    refine (ht.2 hu).2 p hpl ?_ (hq'.symm.trans h0)
    rw [hpi, ← heq, ← hq']

/-- A row without an image makes no difference. -/
theorem blank (h : Synced ty live x) (hr : r.Of ty) (hi : x.kind.image r = none) :
    Synced ty (r :: live) x := by
  refine ⟨⟨h.holds.ok, ?_⟩, h.shaped, ?_, ?_⟩
  · rw [List.filterMap_cons_none hi]
    exact h.holds.rows
  · intro w hw
    rcases List.mem_cons.1 hw with rfl | hw
    · exact hr
    · exact h.typed w hw
  · intro w hw q hq
    rcases List.mem_cons.1 hw with rfl | hw
    · rw [hi] at hq; cases hq
    · exact h.stored w hw q hq

/-- The index takes a row that it accepts. -/
theorem takes (h : Synced ty live x) (hr : r.Of ty) (ht : Takes ty live x r)
    (hok : (x.addToIndex r).1 = true) : Synced ty (r :: live) (x.addToIndex r).2 := by
  cases hi : x.kind.image r with
  | some q =>
      have hf := h.fresh hr hi ht hok
      simp only [Takes, hi] at ht
      refine ⟨h.holds.add hr hi ht.1 hf hok, h.shaped.addToIndex, ?_, ?_⟩
      · intro p hp
        rcases List.mem_cons.1 hp with rfl | hp
        · exact hr
        · exact h.typed p hp
      · intro p hp q' hq'
        rw [Ind.addToIndex_kind] at hq' ⊢
        rcases List.mem_cons.1 hp with rfl | hp
        · obtain rfl : q = q' := Option.some.inj (hi.symm.trans hq')
          exact ht.1
        · exact h.stored p hp q' hq'
  | none =>
      have hpass : x.kind.Passes r x.tree := by simpa only [Takes, hi] using ht
      rw [Ind.addToIndex_blank h.holds.ok hi hpass]
      exact h.blank hr hi

/-- A row without an image is removed without a change. -/
theorem gives_blank (h : Synced ty live x) (hi : x.kind.image r = none)
    (hg : Gives ty live x.kind r) : x.delFromIndex r = some x := by
  simp only [Gives, hi] at hg
  rw [Ind.delFromIndex_iff rfl]
  unfold Kind.image at hi
  have hok := h.holds.ok
  have hrows : ∀ {q}, q ∈ live.filterMap x.kind.image → q ∈ Nest.rows x.kind.depth x.tree :=
    fun hq => h.holds.rows.symm.subset hq
  cases hw : whole (x.kind.path r) with
  | none =>
      have hn := none_mem_of_whole hw
      have hopen : Nest.found (Nest.openers (x.kind.path r)) x.tree := by
        rw [hw] at hg
        cases hk : x.kind with
        | silent => rw [hk] at hn; cases hn
        | single c a =>
            rw [hk] at hn
            have hc : getCol r c = none := (List.mem_singleton.1 hn).symm
            simp only [Kind.path, hc, Nest.openers, Nest.found]
        | uniq c a => rw [hk] at hn; cases hn
        | mci c a =>
            rw [hk] at hg
            rcases hg with h0 | ⟨q, hq, hpre⟩
            · rw [h0]; trivial
            · rw [hk] at hok hrows
              exact Nest.found_of_rows hok (hrows hq) hpre
        | umci c last a =>
            rw [hk] at hg
            rcases hg with h0 | ⟨q, hq, hpre⟩
            · rw [h0]; trivial
            · rw [hk] at hok hrows
              exact Nest.found_of_rows hok (hrows hq) hpre
      rw [Nest.rem_opens hn hopen]
      rfl
  | some ks =>
      rw [hw] at hi hg
      have hlen : ks.length = x.kind.depth := by
        rw [← List.length_map (f := some), ← whole_eq hw]
        exact Kind.path_length _ _
      have hb : x.kind.bkey r = none := by
        cases hb : x.kind.bkey r with
        | none => rfl
        | some a => rw [hb] at hi; cases hi
      -- the way is there, and nothing is done at its end
      have hway : Nest.found ks x.tree ∧ ∀ l : Leaf, l.kind = x.kind.leafKind ty →
          x.kind.leafDel r l = some l := by
        cases hk : x.kind with
        | silent =>
            rw [hk] at hlen
            obtain rfl := List.length_eq_zero_iff.1 hlen
            exact ⟨trivial, fun _ _ => rfl⟩
        | single c a =>
            rw [hk] at hb hg
            cases a with
            | none => cases hb
            | some a => cases hg
        | uniq c a =>
            rw [hk] at hb hlen
            obtain rfl := List.length_eq_zero_iff.1 hlen
            exact ⟨trivial, fun l _ => if_pos hb⟩
        | mci c a =>
            rw [hk] at hb hg
            cases a with
            | none => cases hb
            | some a => cases hg
        | umci c last a =>
            rw [hk] at hb hg hok hrows
            obtain ⟨hz, q, hq, hpre⟩ := hg
            refine ⟨Nest.found_of_rows hok (hrows hq) hpre, fun l hl => ?_⟩
            have hc : getCol r last = none := hb
            show l.del (getCol r last) = some l
            rw [hc, Leaf.del_none_iff, hl]
            exact hz
      rw [whole_eq hw, Nest.rem_found hlen h.holds.ok hway.1
        (fun l hl => hway.2 l (Nest.bottom_inv h.holds.ok hl).kind)]
      rfl

/-- A row that is there is removed. -/
theorem gives (h : Synced ty live x) (hp : live.Perm (r :: live')) (hg : Gives ty live x.kind r) :
    ∃ y, x.delFromIndex r = some y ∧ y.kind = x.kind ∧ Synced ty live' y := by
  have hm : r ∈ live := hp.symm.subset List.mem_cons_self
  have hsub : ∀ p ∈ live', p ∈ live := fun p hp' => hp.symm.subset (List.mem_cons_of_mem _ hp')
  cases hi : x.kind.image r with
  | some q =>
      simp only [Gives, hi] at hg
      obtain ⟨y, hy, hh⟩ := h.holds.rem hm hi (h.stored r hm q hi).1 hg
      have hk := Ind.delFromIndex_kind hy
      have herase : (live.erase r).Perm live' := by
        have := hp.erase r
        rwa [List.erase_cons_head] at this
      refine ⟨y, hy, hk, ⟨hh.ok, hh.rows.trans (herase.filterMap _)⟩, h.shaped.delFromIndex hy,
        fun p hp' => h.typed p (hsub p hp'), ?_⟩
      rw [hk]
      exact fun p hp' => h.stored p (hsub p hp')
  | none =>
      refine ⟨x, h.gives_blank hi hg, rfl, ⟨h.holds.ok, ?_⟩, h.shaped,
        fun p hp' => h.typed p (hsub p hp'), fun p hp' => h.stored p (hsub p hp')⟩
      have hperm := hp.filterMap x.kind.image
      rw [List.filterMap_cons_none hi] at hperm
      exact h.holds.rows.trans hperm

/-- Rows can be exchanged for others with the same images. -/
theorem congr (h : Synced ty (r :: live) x) {p : Row} (hp : p.Of ty) (hpk : p.pk = r.pk)
    (hi : x.kind.image p = x.kind.image r) : Synced ty (p :: live) x := by
  refine ⟨⟨h.holds.ok, ?_⟩, h.shaped, ?_, ?_⟩
  · have : (p :: live).filterMap x.kind.image = (r :: live).filterMap x.kind.image := by
      simp only [List.filterMap_cons, hi]
    rw [this]
    exact h.holds.rows
  · intro w hw
    rcases List.mem_cons.1 hw with rfl | hw
    · exact hp
    · exact h.typed w (List.mem_cons_of_mem _ hw)
  · intro w hw q hq
    rcases List.mem_cons.1 hw with rfl | hw
    · rw [hpk]
      exact h.stored r List.mem_cons_self q (hi ▸ hq)
    · exact h.stored w (List.mem_cons_of_mem _ hw) q hq

end Synced

end AlchemyDB.Index
