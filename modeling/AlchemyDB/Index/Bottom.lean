/-
# The trees at the bottom — what a row puts there

A row is entered at the bottom under a key: the primary key in a node tree, the
ORDER BY value, or the value of the last column in a unique index.  `Stored` says
that the tree takes the key and the primary key as they are; it fails for keys
that are taken for null pointers and for numbers that do not survive the packing.
-/
import AlchemyDB.Index.Nest

namespace AlchemyDB.Index

open Assoc

/-! ## The types of a table -/

/-- The row has the types of the table; column 0 is the primary key. -/
def Row.Of (ty : Nat → KType) (r : Row) : Prop := ∀ j v, getCol r j = some v → v.ktype = ty j

theorem Row.Of.pk {ty : Nat → KType} {r : Row} (h : r.Of ty) : r.pk.ktype = ty 0 := h 0 r.pk rfl

theorem Row.of_const {t : KType} {r : Row} (hp : r.pk.ktype = t)
    (hc : ∀ c ∈ r.cols, c.all (fun v => v.ktype = t)) : r.Of (fun _ => t) := by
  intro j v h
  unfold getCol at h
  split at h
  · cases h
    exact hp
  · have hj := Option.join_eq_some_iff.1 h
    simpa using hc _ (List.mem_of_getElem? hj)

theorem Aobj.field_self (a : Aobj) : Aobj.field a.ktype (some a) = a := by cases a <;> rfl

/-! ## Entries that are stored as they are -/

/-- The tree takes key and value as they are. -/
def Stored (kd : LKind) (a pk : Aobj) : Prop :=
  createBTKey kd (some a) = some a ∧ createStream kd (some a) pk = (a, pk)

instance (kd : LKind) (a pk : Aobj) : Decidable (Stored kd a pk) := inferInstanceAs (Decidable (_ ∧ _))

/-- A number that is taken for the null pointer. -/
def Aobj.isNull (a : Aobj) : Bool := numPtr a = none

theorem stored_inode {pk : Aobj} (h : pk.isNull = false) : Stored (.inode pk.ktype) pk pk := by
  have hp : numPtr pk ≠ none := by simpa [Aobj.isNull] using h
  refine ⟨?_, ?_⟩
  · rw [createBTKey, Aobj.field_self]
    cases pk with
    | int i => cases i with
      | zero => exact absurd rfl hp
      | succ i => rfl
    | long i => cases i with
      | zero => exact absurd rfl hp
      | succ i => rfl
    | u128 x => rfl
    | text s => rfl
  · rw [createStream, Aobj.field_self]

theorem stored_wide (a pk : Aobj) : Stored (.wide a.ktype) a pk := by
  refine ⟨?_, ?_⟩
  · rw [createBTKey, Aobj.field_self]
  · rw [createStream, Aobj.field_self]

/-- Key and value survive the packing, and the key is found again. -/
def Packs (k v : Nat) : Prop :=
  k ≠ 0 ∧ uuKey (uuPack k 0) = k ∧ uuKey (uuPack k v) = k ∧ uuVal (uuPack k v) = v

instance (k v : Nat) : Decidable (Packs k v) := inferInstanceAs (Decidable (_ ∧ _))

theorem stored_uu {k v : Nat} (h : Packs k v) : Stored .uu (.int k) (.int v) := by
  obtain ⟨h0, h1, h2, h3⟩ := h
  refine ⟨?_, ?_⟩
  · cases k with
    | zero => exact absurd rfl h0
    | succ k => simp only [createBTKey, Aobj.field, h1]
  · simp only [createStream, Aobj.field, h2, h3]

/-- In a unique index only the packed trees make a difference. -/
theorem stored_uniq {a pk : Aobj} (h : ∀ c v, a = .int c → pk = .int v → Packs c v) :
    Stored (createUIBT a.ktype pk.ktype).kind a pk := by
  by_cases hi : a.ktype = .int ∧ pk.ktype = .int
  · obtain ⟨h1, h2⟩ := hi
    cases a with
    | int c =>
        cases pk with
        | int v => exact stored_uu (h c v rfl rfl)
        | _ => cases h2
    | _ => cases h1
  · unfold createUIBT
    rw [if_neg hi]
    exact stored_wide a pk

theorem createUIBT_kind (t p u : KType) : (createUIBT t p).kind ≠ .inode u := by
  unfold createUIBT
  split <;> simp

namespace Leaf

/-- The tree is of kind `kd`, and a key has one value. -/
structure Fits (kd : LKind) (l : Leaf) : Prop where
  kind : l.kind = kd
  one : ∀ e ∈ l.ents, ∀ e' ∈ l.ents, e.1 = e'.1 → e.2 = e'.2

theorem Fits.empty (kd : LKind) : Fits kd ⟨kd, []⟩ := ⟨rfl, fun _ h => absurd h List.not_mem_nil⟩

variable {kd : LKind} {l : Leaf} {a pk : Aobj}

theorem add_stored (h : Stored l.kind a pk) :
    l.add (some a) pk = { l with ents := put a pk l.ents } := by
  unfold add
  rw [h.1, h.2]

/-- A new key, or an old one with its value. -/
theorem Fits.add (f : Fits kd l) (hs : Stored kd a pk) (hn : ∀ e ∈ l.ents, e.1 = a → e.2 = pk) :
    Fits kd (l.add (some a) pk) ∧ (l.add (some a) pk).ents.Perm ((a, pk) :: l.ents) := by
  rw [add_stored (by rw [f.kind]; exact hs)]
  refine ⟨⟨f.kind, ?_⟩, perm_put⟩
  intro e he e' he' heq
  rcases List.mem_cons.1 (perm_put.subset he) with rfl | he
  · rcases List.mem_cons.1 (perm_put.subset he') with rfl | he'
    · rfl
    · exact (hn e' he' heq.symm).symm
  · rcases List.mem_cons.1 (perm_put.subset he') with rfl | he'
    · exact hn e he heq
    · exact f.one e he e' he' heq

/-- An entry that is there is taken out. -/
theorem Fits.del (f : Fits kd l) (hk : createBTKey kd (some a) = some a) (hm : (a, pk) ∈ l.ents)
    (hg : l.Granted) :
    ∃ l', l.del (some a) = some l' ∧ Fits kd l' ∧ l.ents.Perm ((a, pk) :: l'.ents) := by
  cases hget : get? l.ents a with
  | none => exact absurd rfl (get?_eq_none.1 hget _ hm)
  | some v =>
      have hv : v = pk := f.one _ (mem_of_get? hget) _ hm rfl
      subst hv
      have hp := perm_del hget
      refine ⟨{ l with ents := Assoc.del a l.ents }, ?_, ⟨f.kind, ?_⟩, hp⟩
      · unfold Leaf.del
        rw [f.kind, hk]
        simp [hget, hg]
      · intro e he e' he' heq
        exact f.one e (hp.symm.subset (List.mem_cons_of_mem _ he)) e'
          (hp.symm.subset (List.mem_cons_of_mem _ he')) heq

/-- Where a lookup fails, the key is not there, or it is packed with the value 0. -/
theorem Fits.absent (f : Fits kd l) (hk : createBTKey kd (some a) = some a)
    (hd : ∀ t, kd ≠ .inode t) (h : l.find (some a) = false) :
    ∀ e ∈ l.ents, e.1 = a → kd = .uu ∧ e.2 = .int 0 := by
  intro e he heq
  unfold find at h
  rw [f.kind, hk] at h
  cases hget : get? l.ents a with
  | none => exact absurd heq (get?_eq_none.1 hget e he)
  | some v =>
      have hv : e.2 = v := f.one e he _ (mem_of_get? hget) heq
      simp only [hget] at h
      cases kd with
      | inode t => exact absurd rfl (hd t)
      | uu => exact ⟨rfl, by rw [hv]; simpa using h⟩
      | wide t => simp at h

end Leaf

/-! ## What an index holds for a row -/

/-- All values, if none is empty. -/
def whole : List (Option Aobj) → Option (List Aobj)
  | [] => some []
  | none :: _ => none
  | some v :: p => (whole p).map (v :: ·)

theorem whole_eq : ∀ {p : List (Option Aobj)} {ks : List Aobj}, whole p = some ks → p = ks.map some
  | [], _, h => by cases h; rfl
  | some v :: p, ks, h => by
      obtain ⟨ks', h', rfl⟩ := Option.map_eq_some_iff.1 h
      rw [List.map_cons, ← whole_eq h']

namespace Kind

/-- The key at the bottom. -/
def bkey : Kind → Row → Option Aobj
  | silent, _ => none
  | single _ none, r => some r.pk
  | single _ (some o), r => getCol r o
  | uniq col _, r => getCol r col
  | mci _ none, r => some r.pk
  | mci _ (some o), r => getCol r o
  | umci _ last _, r => getCol r last

/-- The keys on the way down and the entry at the bottom, if no column is empty. -/
def image (k : Kind) (r : Row) : Option (List Aobj × (Aobj × Aobj)) :=
  match whole (k.path r), k.bkey r with
  | some ks, some a => some (ks, (a, r.pk))
  | _, _ => none

theorem image_eq {k : Kind} {r : Row} {q : List Aobj × (Aobj × Aobj)} (h : k.image r = some q) :
    k.path r = q.1.map some ∧ k.bkey r = some q.2.1 ∧ q.2.2 = r.pk := by
  unfold image at h
  cases hp : whole (k.path r) with
  | none => simp [hp] at h
  | some ks =>
      cases hb : k.bkey r with
      | none => simp [hp, hb] at h
      | some a =>
          simp only [hp, hb, Option.some.injEq] at h
          subst h
          exact ⟨whole_eq hp, rfl, rfl⟩

/-- What kind of tree is at the bottom, in a table with these types. -/
def leafKind (ty : Nat → KType) : Kind → LKind
  | silent => .inode (ty 0)
  | single _ none => .inode (ty 0)
  | single _ (some o) => (createIndexNode (ty 0) (some (ty o))).kind
  | uniq _ t => (createUIBT t (ty 0)).kind
  | mci _ none => .inode (ty 0)
  | mci _ (some o) => (createIndexNode (ty 0) (some (ty o))).kind
  | umci _ _ t => (createUIBT t (ty 0)).kind

variable {k : Kind} {ty : Nat → KType} {r : Row} {a : Aobj} {l : Leaf}

theorem createIndexNode_ents (p : KType) (o : Option KType) : (createIndexNode p o).ents = [] := by
  unfold createIndexNode
  split
  · rfl
  · split <;> rfl
  · rfl

theorem createUIBT_ents (t p : KType) : (createUIBT t p).ents = [] := by
  unfold createUIBT
  split <;> rfl

theorem newLeaf_ents (k : Kind) (r : Row) : (k.newLeaf r).ents = [] := by
  cases k with
  | silent => rfl
  | single _ o => exact createIndexNode_ents _ _
  | uniq _ t => exact createUIBT_ents _ _
  | mci _ o => exact createIndexNode_ents _ _
  | umci _ _ t => exact createUIBT_ents _ _

theorem newLeaf_kind (h : r.Of ty) (hb : k.bkey r = some a) :
    (k.newLeaf r).kind = k.leafKind ty := by
  cases k with
  | silent => cases hb
  | single c o =>
      cases o with
      | none => simp [newLeaf, leafKind, createIndexNode, h.pk]
      | some o => simp only [newLeaf, leafKind, Option.bind_some, h.pk, show getCol r o = some a from hb,
          Option.map_some, h o a hb]
  | uniq c t => simp only [newLeaf, leafKind, h.pk]
  | mci c o =>
      cases o with
      | none => simp [newLeaf, leafKind, createIndexNode, h.pk]
      | some o => simp only [newLeaf, leafKind, Option.bind_some, h.pk, show getCol r o = some a from hb,
          Option.map_some, h o a hb]
  | umci c _ t => simp only [newLeaf, leafKind, h.pk]

theorem newLeaf_fits (h : r.Of ty) (hb : k.bkey r = some a) :
    Leaf.Fits (k.leafKind ty) (k.newLeaf r) := by
  have h1 := newLeaf_kind h hb
  have h2 := newLeaf_ents k r
  exact ⟨h1, by rw [h2]; exact fun _ h => absurd h List.not_mem_nil⟩

theorem btIndNodeAdd_ok {o : Nat} (ho : getCol r o = some a)
    (h : (btIndNodeAdd (some o) r l).1 = .ok) :
    l.find (some a) = false ∧ (btIndNodeAdd (some o) r l).2 = l.add (some a) r.pk := by
  simp only [btIndNodeAdd, ho] at h ⊢
  split at h
  · cases h
  · rename_i hf
    exact ⟨by simpa using hf, by rw [if_neg hf]⟩

theorem uniqAdd_ok {c : Nat} (hc : getCol r c = some a) (h : (uniqAdd c r l).1 = .ok) :
    l.find (some a) = false ∧ (uniqAdd c r l).2 = l.add (some a) r.pk := by
  simp only [uniqAdd, hc] at h ⊢
  split at h
  · cases h
  · rename_i hf
    exact ⟨by simpa using hf, by rw [if_neg hf]⟩

/-- An accepted row is entered under its key. -/
theorem leafAdd_ok (hb : k.bkey r = some a) (h : (k.leafAdd r l).1 = .ok) :
    (k.leafAdd r l).2 = l.add (some a) r.pk := by
  cases k with
  | silent => cases hb
  | single c o =>
      cases o with
      | none => cases hb; rfl
      | some o => exact (btIndNodeAdd_ok hb h).2
  | uniq c t => exact (uniqAdd_ok hb h).2
  | mci c o =>
      cases o with
      | none => cases hb; rfl
      | some o => exact (btIndNodeAdd_ok hb h).2
  | umci c last t => exact (uniqAdd_ok hb h).2

/-- A row is removed under its key. -/
theorem leafDel_eq (hb : k.bkey r = some a) : k.leafDel r l = l.del (some a) := by
  cases k with
  | silent => cases hb
  | single c o =>
      cases o with
      | none => cases hb; rfl
      | some o => simp only [leafDel, btIndNodeDelete, show getCol r o = some a from hb]
  | uniq c t =>
      have hc : getCol r c = some a := hb
      simp [leafDel, hc]
  | mci c o =>
      cases o with
      | none => cases hb; rfl
      | some o => simp only [leafDel, btIndNodeDelete, show getCol r o = some a from hb]
  | umci c last t => simp only [leafDel, show getCol r last = some a from hb]

end Kind

end AlchemyDB.Index
