/-
# Multi column indexes — the nested trees against the rows

Runs of additions of accepted rows and of removals of rows that are there.  The
index represents the tuples of the rows added and not removed as long as every
row can be stored at the bottom (`Multi.Safe`): a primary key 0 is taken for the
null pointer, and so is a value 0 in a packed tree.
-/
import AlchemyDB.Index.Holds

namespace AlchemyDB.Index

namespace Multi

/-- A multi column index with two columns or more, not ordered by another one, over columns of
these types. -/
def Proper (ty : Nat → KType) : Kind → Prop
  | .mci cols none => 2 ≤ cols.length
  | .umci cols last t => 1 ≤ cols.length ∧ t = ty last
  | _ => False

/-- The columns of the index. -/
def columns : Kind → Row → List (Option Aobj)
  | .umci cols last _, r => cols.map (getCol r) ++ [getCol r last]
  | k, r => k.path r

/-- The tuple `(c1, ..., cn, pk)` of a row. -/
def tuple (k : Kind) (r : Row) : List (Option Aobj) × Aobj := (columns k r, r.pk)

/-- The tuple of a path and an entry: at the bottom of a unique index the last column is the key. -/
def asTuple : Kind → List Aobj × (Aobj × Aobj) → List (Option Aobj) × Aobj
  | .umci _ _ _, q => ((q.1 ++ [q.2.1]).map some, q.2.2)
  | _, q => (q.1.map some, q.2.2)

/-- The tuples that the nested trees represent. -/
def tuples (x : Ind) : List (List (Option Aobj) × Aobj) :=
  (Nest.rows x.kind.depth x.tree).map (asTuple x.kind)

/-- Every nested tree below the top holds a key. -/
def Inhabited : Nat → Nest → Prop
  | 0, _ => True
  | d + 1, .tree t => ∀ e ∈ t, Nest.numkeys e.2 ≠ 0 ∧ Inhabited d e.2
  | _ + 1, .leaf _ => False

inductive Op where
  | add (r : Row)
  | rem (r : Row)

/-- The index as it is created. -/
def new (k : Kind) : Ind := ⟨k, .tree []⟩

/-- The runs, with the rows added and not removed.  An added row has no empty column in the index
and is accepted, a removed one is there; `none` is a removal that has gone wrong. -/
inductive Run (ty : Nat → KType) (k : Kind) (step : List Row → Op → Prop) :
    List Row → Option Ind → Prop where
  | start : Run ty k step [] (some (new k))
  | add {live : List Row} {x : Ind} {r : Row} : Run ty k step live (some x) → r.Of ty →
      none ∉ columns k r → (x.addToIndex r).1 = true → step live (.add r) →
      Run ty k step (r :: live) (some (x.addToIndex r).2)
  | rem {live : List Row} {x : Ind} {r : Row} : Run ty k step live (some x) → r ∈ live →
      step live (.rem r) → Run ty k step (live.erase r) (x.delFromIndex r)

/-- The index represents the rows. -/
def Represents (k : Kind) (live : List Row) (x : Ind) : Prop :=
  (tuples x).Perm (live.map (tuple k)) ∧ Inhabited k.depth x.tree ∧
    (live = [] → Nest.numkeys x.tree = 0)

/-- The row's key at the bottom is not taken for a null pointer and survives the packing. -/
def Storable : Kind → Row → Prop
  | .mci _ _, r => r.pk.isNull = false
  | .umci _ last _, r =>
      match getCol r last, r.pk with
      | some (.int c), .int v => Packs c v
      | _, _ => True
  | _, _ => True

/-- What a step has to avoid: rows that cannot be stored, a second row over one that a unique index
does not find again, and removals from node trees of U128 keys with more than one node. -/
def Safe (k : Kind) (live : List Row) : Op → Prop
  | .add r => Storable k r ∧ (∀ cols last t, k = .umci cols last t →
      ∀ p ∈ live, columns k p = columns k r → p.pk ≠ .int 0)
  | .rem r => ∀ x, r.pk = .u128 x → (∃ cols o, k = .mci cols o) →
      (live.map (columns k)).countP (fun c => c = columns k r) ≤ 7

variable {ty : Nat → KType} {k : Kind} {live : List Row} {x : Ind} {r : Row}

theorem whole_of_full : ∀ {p : List (Option Aobj)}, none ∉ p → ∃ ks, whole p = some ks
  | [], _ => ⟨[], rfl⟩
  | none :: _, h => absurd List.mem_cons_self h
  | some v :: p, h => by
      obtain ⟨ks, hk⟩ := whole_of_full (p := p) (fun h' => h (List.mem_cons_of_mem _ h'))
      exact ⟨v :: ks, by simp [whole, hk]⟩

theorem Proper.cases (hp : Proper ty k) : (∃ cols, k = .mci cols none ∧ 2 ≤ cols.length) ∨
    (∃ cols last, k = .umci cols last (ty last) ∧ 1 ≤ cols.length) := by
  cases k with
  | silent => cases hp
  | single c o => cases hp
  | uniq c t => cases hp
  | mci cols o =>
      cases o with
      | none => exact .inl ⟨cols, rfl, hp⟩
      | some o => cases hp
  | umci cols last t =>
      obtain ⟨h1, rfl⟩ := hp
      exact .inr ⟨cols, last, rfl, h1⟩

/-- A row without empty columns has an image. -/
theorem image_of_full (hp : Proper ty k) (h : none ∉ columns k r) : ∃ q, k.image r = some q := by
  rcases hp.cases with ⟨cols, rfl, _⟩ | ⟨cols, last, rfl, _⟩
  · obtain ⟨ks, hk⟩ := whole_of_full (p := (Kind.mci cols none).path r) h
    exact ⟨(ks, (r.pk, r.pk)), by simp only [Kind.image, hk, Kind.bkey]⟩
  · have h1 : none ∉ (Kind.umci cols last (ty last)).path r :=
      fun h' => h (List.mem_append_left _ h')
    obtain ⟨ks, hk⟩ := whole_of_full h1
    cases hl : getCol r last with
    | none => exact absurd (List.mem_append_right _ (by simp [hl])) h
    | some v => exact ⟨(ks, (v, r.pk)), by simp only [Kind.image, hk, Kind.bkey, hl]⟩

/-- The tuple of a row is read off its image. -/
theorem tuple_of_image {q : List Aobj × (Aobj × Aobj)} (hp : Proper ty k)
    (h : k.image r = some q) : tuple k r = asTuple k q := by
  obtain ⟨h1, h2, h3⟩ := Kind.image_eq h
  rcases hp.cases with ⟨cols, rfl, _⟩ | ⟨cols, last, rfl, _⟩
  · simp only [tuple, columns, asTuple, h1, h3]
  · have h2' : getCol r last = some q.2.1 := h2
    have h1' : cols.map (getCol r) = q.1.map some := h1
    simp only [tuple, columns, asTuple, h1', h2', h3, List.map_append, List.map_cons, List.map_nil]

theorem columns_of_image {q : List Aobj × (Aobj × Aobj)} (hp : Proper ty k)
    (h : k.image r = some q) : columns k r = (asTuple k q).1 :=
  congrArg Prod.fst (tuple_of_image hp h)

/-- What is storable is stored. -/
theorem stored {q : List Aobj × (Aobj × Aobj)} (hp : Proper ty k) (hr : r.Of ty)
    (h : k.image r = some q) (hs : Storable k r) : Stored (k.leafKind ty) q.2.1 r.pk := by
  obtain ⟨_, h2, h3⟩ := Kind.image_eq h
  rcases hp.cases with ⟨cols, rfl, _⟩ | ⟨cols, last, rfl, _⟩
  · have ha : r.pk = q.2.1 := Option.some.inj h2
    show Stored (.inode (ty 0)) q.2.1 r.pk
    rw [← ha, ← hr.pk]
    exact stored_inode hs
  · have hl : getCol r last = some q.2.1 := h2
    show Stored (createUIBT (ty last) (ty 0)).kind q.2.1 r.pk
    rw [← hr.pk, ← hr last _ hl]
    simp only [Storable, hl] at hs
    exact stored_uniq (fun c v ha hv => by rw [ha, hv] at hs; exact hs)

/-- The invariant of the runs. -/
structure Good (ty : Nat → KType) (k : Kind) (live : List Row) (x : Ind) : Prop where
  kind : x.kind = k
  holds : Holds ty live x
  row : ∀ r ∈ live, r.Of ty ∧ none ∉ columns k r ∧ Storable k r

theorem Good.new (hp : Proper ty k) : Good ty k [] (new k) := by
  have hd : k.depth ≠ 0 := by
    rcases hp.cases with ⟨cols, rfl, h⟩ | ⟨cols, last, rfl, h⟩
    · show cols.length ≠ 0
      omega
    · show cols.length ≠ 0
      omega
  obtain ⟨d, hd⟩ := Nat.exists_eq_succ_of_ne_zero hd
  refine ⟨rfl, ⟨?_, ?_⟩, fun r hr => absurd hr List.not_mem_nil⟩
  · show Nest.Ok _ k.depth (.tree [])
    rw [hd]
    exact ⟨List.nodup_nil, fun e he => absurd he List.not_mem_nil⟩
  · show (Nest.rows k.depth (.tree [])).Perm []
    rw [hd]
    exact .refl _

/-- Two rows over one key of a tree at the bottom: the keys of a node tree are its entries, and a
unique index takes a second row only over a packed 0. -/
theorem Good.fresh (g : Good ty k live x) (hp : Proper ty k) (hr : r.Of ty)
    {q : List Aobj × (Aobj × Aobj)} (hi : k.image r = some q) (hs : Safe k live (.add r))
    (hok : (x.addToIndex r).1 = true) :
    ∀ e, (q.1, e) ∈ live.filterMap k.image → e.1 = q.2.1 → e.2 = r.pk := by
  intro e he heq
  obtain ⟨p, hpl, hpi⟩ := List.mem_filterMap.1 he
  obtain ⟨_, hb, _⟩ := Kind.image_eq hi
  obtain ⟨_, hb', hq'⟩ := Kind.image_eq hpi
  rcases hp.cases with ⟨cols, rfl, _⟩ | ⟨cols, last, rfl, _⟩
  · have ha : r.pk = q.2.1 := Option.some.inj hb
    have ha' : p.pk = e.1 := Option.some.inj hb'
    exact hq'.trans (ha'.trans (heq.trans ha.symm))
  · exfalso
    have hst := stored hp hr hi hs.1
    have hfst := g.holds.tried_ok hr (g.kind ▸ hi) hok
    rw [g.holds.tried_fst hr (g.kind ▸ hi)] at hfst
    obtain ⟨l, hl, hel⟩ := (Nest.mem_rows g.holds.ok).1 (g.holds.rows.symm.subset (g.kind ▸ he))
    rw [hl, Option.getD_some, g.kind] at hfst
    have hfind := (Kind.uniqAdd_ok hb hfst).1
    have hfits := Nest.bottom_inv g.holds.ok hl
    rw [g.kind] at hfits
    have habs := hfits.absent hst.1 (createUIBT_kind _ _) hfind e hel heq
    have hcol : columns (.umci cols last (ty last)) p = columns (.umci cols last (ty last)) r := by
      rw [columns_of_image hp hi, columns_of_image hp hpi]
      simp only [asTuple, heq]
    exact hs.2 cols last _ rfl p hpl hcol (hq'.symm.trans habs.2)

theorem Good.add (g : Good ty k live x) (hp : Proper ty k) (hr : r.Of ty)
    (hn : none ∉ columns k r) (hok : (x.addToIndex r).1 = true) (hs : Safe k live (.add r)) :
    Good ty k (r :: live) (x.addToIndex r).2 := by
  obtain ⟨q, hi⟩ := image_of_full hp hn
  obtain rfl := g.kind
  refine ⟨rfl, ?_, ?_⟩
  · exact g.holds.add hr hi (stored hp hr hi hs.1) (g.fresh hp hr hi hs hok) hok
  · intro p hpm
    rcases List.mem_cons.1 hpm with rfl | hpm
    · exact ⟨hr, hn, hs.1⟩
    · exact g.row p hpm

theorem Good.rem (g : Good ty k live x) (hp : Proper ty k) (hm : r ∈ live)
    (hs : Safe k live (.rem r)) :
    ∃ y, x.delFromIndex r = some y ∧ Good ty k (live.erase r) y := by
  obtain ⟨hr, hn, hst⟩ := g.row r hm
  obtain ⟨q, hi⟩ := image_of_full hp hn
  obtain rfl := g.kind
  have hg : x.kind.leafKind ty = .inode .u128 →
      (live.filterMap x.kind.image).countP (fun p => decide (p.1 = q.1)) ≤ 7 := by
    intro hu
    obtain ⟨cols, hk⟩ : ∃ cols, x.kind = .mci cols none := by
      rcases hp.cases with ⟨cols, hk, _⟩ | ⟨cols, last, hk, _⟩
      · exact ⟨cols, hk⟩
      · rw [hk] at hu
        exact absurd hu (createUIBT_kind _ _ _)
    have hpk : r.pk.ktype = .u128 := by
      rw [hk] at hu
      exact hr.pk.trans (LKind.inode.inj hu)
    obtain ⟨v, hv⟩ : ∃ v, r.pk = .u128 v := by
      cases hv : r.pk with
      | u128 v => exact ⟨v, rfl⟩
      | int v => rw [hv] at hpk; cases hpk
      | long v => rw [hv] at hpk; cases hpk
      | text v => rw [hv] at hpk; cases hpk
    refine Nat.le_trans ?_ (hs v hv ⟨cols, none, hk⟩)
    rw [List.countP_map]
    rw [List.countP_filterMap]
    refine List.countP_mono_left ?_
    intro p hpl h
    obtain ⟨q', hq'⟩ := image_of_full hp (g.row p hpl).2.1
    rw [hq'] at h
    have heq : q'.1 = q.1 := by simpa using h
    have hcol : columns x.kind p = columns x.kind r := by
      rw [columns_of_image hp hi, columns_of_image hp hq', hk]
      simp only [asTuple, heq]
    simp [hcol]
  obtain ⟨y, hy, hh⟩ := g.holds.rem hm hi (stored hp hr hi hst).1 hg
  exact ⟨y, hy, Ind.delFromIndex_kind hy, hh, fun p hpm => g.row p (List.mem_of_mem_erase hpm)⟩

/-- Every run whose steps are safe goes on. -/
theorem Run.good (hp : Proper ty k) {s : Option Ind} (run : Run ty k (Safe k) live s) :
    ∃ x, s = some x ∧ Good ty k live x := by
  induction run with
  | start => exact ⟨new k, rfl, Good.new hp⟩
  | add _ hr hn hok hs ih =>
      obtain ⟨x, hx, g⟩ := ih
      cases hx
      exact ⟨_, rfl, g.add hp hr hn hok hs⟩
  | rem _ hm hs ih =>
      obtain ⟨x, hx, g⟩ := ih
      cases hx
      exact g.rem hp hm hs

theorem inhabited_of_ok {Inv : Leaf → Prop} : ∀ {d : Nat} {t : Nest}, Nest.Ok Inv d t → Inhabited d t
  | 0, .leaf _, _ => trivial
  | _ + 1, .tree _, o => fun e he => ⟨(o.2 e he).1, inhabited_of_ok (o.2 e he).2⟩

theorem Good.represents (g : Good ty k live x) (hp : Proper ty k) : Represents k live x := by
  obtain rfl := g.kind
  refine ⟨?_, inhabited_of_ok g.holds.ok, ?_⟩
  · refine (g.holds.rows.map _).trans (List.Perm.of_eq ?_)
    rw [List.map_filterMap]
    rw [List.filterMap_eq_map_iff_forall_eq_some]
    intro r hr
    obtain ⟨q, hi⟩ := image_of_full hp (g.row r hr).2.1
    rw [hi, tuple_of_image hp hi]
    rfl
  · intro hl
    subst hl
    by_contra h
    exact g.holds.ok.rows_ne h (List.perm_nil.1 g.holds.rows)

end Multi

end AlchemyDB.Index
