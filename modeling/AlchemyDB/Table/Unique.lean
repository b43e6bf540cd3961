/-
# UNIQUE indexes

A unique index enforces its constraint by a lookup before it adds.  As long as
the index is in step with the rows, every row is found through it, so no two rows
hold the same values.  An UPDATE does not look at what the index answers, and a
value that is packed with the primary key 0 is not found.
-/
import AlchemyDB.Table.OrderBy

namespace AlchemyDB.Table

open Assoc Index

/-- `btFind` at the bottom: the primary key, unless it is taken for the null pointer. -/
def leafLookup (l : Leaf) (a : Aobj) : Option Aobj :=
  match createBTKey l.kind (some a) with
  | none => none
  | some k => (get? l.ents k).filter fun v => decide (¬ (l.kind = .uu ∧ v = .int 0))

/-- The row that a unique index gives for its columns. -/
def lookup (x : Ind) (ks : List Aobj) (a : Aobj) : Option Aobj :=
  match Nest.bottom ks x.tree with
  | none => none
  | some l => leafLookup l a

/-- The columns that have to be unique together. -/
def constrained (k : Kind) (r : Row) : List (Option Aobj) := k.path r ++ [k.bkey r]

/-- No two rows hold the same values, unless one of them is empty, and every row without an empty one
is found through the index. -/
structure Enforced (t : Tab) (i : Nat) (k : Kind) : Prop where
  distinct : t.live.Pairwise fun r r' => none ∉ constrained k r → constrained k r ≠ constrained k r'
  found : ∃ x, t.inds[i]? = some x ∧ ∀ r ∈ t.live, ∀ ks a,
    constrained k r = (ks ++ [a]).map some → lookup x ks a = some r.pk

variable {t : Tab} {i : Nat} {k : Kind} {x : Ind} {r : Row} {ks : List Aobj} {a : Aobj}

theorem whole_map_some : ∀ ks : List Aobj, whole (ks.map some) = some ks
  | [] => rfl
  | k :: ks => by simp [whole, whole_map_some ks]

theorem image_of_constrained (h : constrained k r = (ks ++ [a]).map some) :
    k.image r = some (ks, (a, r.pk)) := by
  unfold constrained at h
  rw [List.map_append, List.map_singleton] at h
  obtain ⟨h1, h2⟩ := List.append_inj' h rfl
  have hb : k.bkey r = some a := by simpa using h2
  simp [Kind.image, h1, whole_map_some, hb]

theorem constrained_full : ∀ {p : List (Option Aobj)}, none ∉ p → ∃ ks : List Aobj, p = ks.map some
  | [], _ => ⟨[], rfl⟩
  | none :: _, h => absurd List.mem_cons_self h
  | some v :: p, h => by
      obtain ⟨ks, rfl⟩ := constrained_full fun h' => h (List.mem_cons_of_mem _ h')
      exact ⟨v :: ks, rfl⟩

/-- A row of the index is found. -/
theorem Synced.lookup_row (hs : Synced t.ty t.live x) (hr : r ∈ t.live)
    (hshown : ¬ x.kind.Hidden t.ty r) (hu : x.kind.unique = true)
    (hi : x.kind.image r = some (ks, (a, r.pk))) : lookup x ks a = some r.pk := by
  have hmem : (ks, (a, r.pk)) ∈ Nest.rows x.kind.depth x.tree :=
    hs.holds.rows.symm.subset (List.mem_filterMap.2 ⟨r, hr, hi⟩)
  obtain ⟨l, hl, he⟩ := (Nest.mem_rows hs.holds.ok).1 hmem
  have hfits := Nest.bottom_inv hs.holds.ok hl
  have hget : get? l.ents a = some r.pk := by
    cases hg : get? l.ents a with
    | none => exact absurd rfl (get?_eq_none.1 hg _ he)
    | some v => exact congrArg some (hfits.one _ (mem_of_get? hg) _ he rfl)
  have hpk : ¬ (l.kind = .uu ∧ r.pk = .int 0) := by
    rintro ⟨h1, h2⟩
    apply hshown
    have himg : x.kind.image r ≠ none := by rw [hi]; simp
    cases hk : x.kind with
    | uniq c b => exact ⟨hk ▸ himg, by rw [← hk, ← hfits.kind]; exact h1, h2⟩
    | umci c last b => exact ⟨hk ▸ himg, by rw [← hk, ← hfits.kind]; exact h1, h2⟩
    | silent => rw [hk] at hu; cases hu
    | single c o => rw [hk] at hu; cases hu
    | mci c o => rw [hk] at hu; cases hu
  unfold lookup
  rw [hl]
  simp only [leafLookup]
  rw [hfits.kind, (hs.stored r hr _ hi).1, ← hfits.kind]
  simp only [hget, Option.filter_some, decide_eq_true hpk, if_true]

theorem Steady.enforced (h : Steady t i k) (hu : k.unique = true) : Enforced t i k := by
  obtain ⟨x, hx, rfl, hs⟩ := h.index
  have hfound : ∀ r ∈ t.live, ∀ ks a, constrained x.kind r = (ks ++ [a]).map some →
      lookup x ks a = some r.pk := fun r hr ks a hc =>
    Synced.lookup_row hs hr (h.shown r hr) hu (image_of_constrained hc)
  refine ⟨?_, x, hx, hfound⟩
  have hnd := h.rowed.nodup
  rw [List.Nodup, List.pairwise_map] at hnd
  refine hnd.imp_of_mem fun {r r'} hr hr' hne hfull heq => hne ?_
  obtain ⟨l, hl⟩ := constrained_full hfull
  -- the last column is there
  have hlne : l ≠ [] := by
    rintro rfl
    simp [constrained] at hl
  obtain ⟨ks, a, rfl⟩ : ∃ ks a, l = ks ++ [a] :=
    ⟨l.dropLast, l.getLast hlne, (List.dropLast_append_getLast hlne).symm⟩
  have h1 := hfound r hr ks a hl
  have h2 := hfound r' hr' ks a (heq ▸ hl)
  exact Option.some.inj (h1.symm.trans h2)

end AlchemyDB.Table
