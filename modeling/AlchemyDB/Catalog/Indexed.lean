/-
# Indexes that are there already

CREATE INDEX on several columns goes through all indexes of the table and is refused when
it meets one on the same columns.  The comparison `icol_cmp` answers 0 for columns that are
equal, and `ICommit` takes the 0 for a difference: what it meets is a list that differs
from the new one everywhere.
-/
import AlchemyDB.Catalog.Model

namespace AlchemyDB.Catalog

/-- A live index of the table on just these columns, with their paths, in this order. -/
def Ind.on (t : Nat) (cl : List Icol) (ri : Ind) : Bool :=
  ri.name.isSome && decide (ri.tmatch = some t) && decide (ri.clist = some cl)

/-- Columns with the same path are compared by it alone, and a new column without a path is compared
by its number. -/
theorem icolCmp_eq_false {a b : Icol} :
    icolCmp a b = false ↔ if a.lo = [] then a.cmatch = b.cmatch else a.lo = b.lo := by
  unfold icolCmp
  split <;> simp

namespace Cat

/-- The columns that CREATE INDEX looks for, once its other checks are passed. -/
def sought (c : Cat) (t : Nat) (a : CreateIndex) : Option (List Icol) :=
  match a.target with
  | .cols r₁ r₂ rs =>
      if a.uniq && (decide ((c.tbl t).nmci ≠ 0) || !(c.tbl t).numCol 0) then none
      else
        match c.mciColumns t (r₁ :: r₂ :: rs) with
        | some (ic :: l) =>
            if a.uniq && !(c.tbl t).numCol ((ic :: l).getLast (List.cons_ne_nil _ _)).cmatch then none
            else some (ic :: l)
        | _ => none
  | _ => none

/-- There is an index on these columns. -/
def Indexed (c : Cat) (t : Nat) (cl : List Icol) : Prop :=
  ∃ i < c.ipool.num, (c.index i).on t cl = true

/-- There is an index on as many columns that agrees with them nowhere. -/
def Countered (c : Cat) (t : Nat) (cl : List Icol) : Prop :=
  ∃ i < c.ipool.num, sameMci t cl (c.index i) = true

/-! ## The search -/

/-- A command that is no cursor is refused by the first index that passes the test. -/
theorem alreadyIndexed_none {c : Cat} {iname : Sds} {same : Ind → Bool} : ∀ {m : Nat},
    c.alreadyIndexed iname false same m = none ↔ ∃ i < m, same (c.index i) = true
  | 0 => by simp [alreadyIndexed]
  | m + 1 => by
      have ih : c.alreadyIndexed iname false same m = none ↔ ∃ i < m, same (c.index i) = true :=
        alreadyIndexed_none
      rw [alreadyIndexed]
      constructor
      · intro h
        cases hr : c.alreadyIndexed iname false same m with
        | none =>
            obtain ⟨i, hi, hs⟩ := ih.1 hr
            exact ⟨i, by omega, hs⟩
        | some new =>
            rw [hr] at h
            by_cases hs : same (c.index m) = true
            · exact ⟨m, by omega, hs⟩
            · simp only [if_neg hs] at h
              cases h
      · rintro ⟨i, hi, hs⟩
        cases hr : c.alreadyIndexed iname false same m with
        | none => rfl
        | some new =>
            have him : i = m := by
              by_contra hne
              have : c.alreadyIndexed iname false same m = none := ih.2 ⟨i, by omega, hs⟩
              rw [hr] at this
              cases this
            subst him
            simp only [if_pos hs, meets, Bool.false_and, Bool.false_eq_true, if_false]

/-- A command whose other checks are passed is refused when it meets a list that differs everywhere. -/
theorem indexOn_none_iff {c : Cat} {t : Nat} {a : CreateIndex} {cl : List Icol}
    (h : c.sought t a = some cl) (hp : a.prtl = false) :
    c.indexOn t a = none ↔ c.Countered t cl := by
  have hsearch : c.alreadyIndexed a.iname a.prtl (sameMci t cl) c.ipool.num = none ↔
      c.Countered t cl := by
    rw [hp]
    exact alreadyIndexed_none
  unfold sought at h
  unfold indexOn
  split at h
  · rename_i r₁ r₂ rs htarget
    rw [htarget]
    split at h
    · cases h
    rename_i hu
    simp only [if_neg hu]
    split at h
    · rename_i ic l hcols
      rw [hcols]
      split at h
      · cases h
      rename_i hlast
      cases h
      simp only [if_neg hlast, Option.map_eq_none_iff]
      exact hsearch
    · cases h
  · cases h

/-! ## The refusal -/

/-- CREATE INDEX is refused just when the columns are indexed, if and only if there is an index on
the columns together with one that agrees with them nowhere, or neither. -/
theorem refused_iff {c : Cat} {t : Nat} {a : CreateIndex} {cl : List Icol}
    (h : c.sought t a = some cl) (hp : a.prtl = false) :
    (c.indexOn t a = none ↔ c.Indexed t cl) ↔
      (¬ c.Indexed t cl ∧ ¬ c.Countered t cl) ∨ (c.Indexed t cl ∧ c.Countered t cl) := by
  rw [indexOn_none_iff h hp]
  tauto

/-- A table of three columns with an index on the first two. -/
def indexedPair : List Cmd :=
  [.createTable ['t'] [(['i'], .int), (['a'], .int), (['b'], .int), (['c'], .int)] ⟨true, true, true⟩,
    .createIndex ⟨['x'], ['t'], false, .cols (['a'], []) (['b'], []) [], none, false⟩
      ⟨true, true, true⟩ .more]

/-- An index on columns of a table. -/
def onColumns (r₁ r₂ : Char) : CreateIndex :=
  ⟨['y'], ['t'], false, .cols ([r₁], []) ([r₂], []) [], none, false⟩

theorem refused_iff_pair : ∃ c, (init 1 1).run indexedPair = .ok c ∧
    ((c.indexOn 0 (onColumns 'a' 'c') = none ↔ c.Indexed 0 [⟨1, []⟩, ⟨3, []⟩]) ↔
      (¬ c.Indexed 0 [⟨1, []⟩, ⟨3, []⟩] ∧ ¬ c.Countered 0 [⟨1, []⟩, ⟨3, []⟩]) ∨
        (c.Indexed 0 [⟨1, []⟩, ⟨3, []⟩] ∧ c.Countered 0 [⟨1, []⟩, ⟨3, []⟩])) :=
  ⟨_, rfl, refused_iff (by decide) rfl⟩

/-- The index on the same columns is made a second time, and one on the two in turn is refused. -/
theorem same_index_made : ∃ c, (init 1 1).run indexedPair = .ok c ∧
    (c.Indexed 0 [⟨1, []⟩, ⟨2, []⟩] ∧ c.indexOn 0 (onColumns 'a' 'b') ≠ none) ∧
      ¬ c.Indexed 0 [⟨2, []⟩, ⟨1, []⟩] ∧ c.indexOn 0 (onColumns 'b' 'a') = none :=
  ⟨_, rfl, ⟨⟨1, by decide, by decide⟩, by decide⟩, by simp [Indexed]; decide, by decide⟩

end Cat

end AlchemyDB.Catalog
