/-
# ORDER BY indexes

An index on a column with an ORDER BY column keeps, under each value, the rows
with that value in the order of the other column.  Neither the list of the
indexes that an UPDATE redoes nor the flag that forbids to overwrite a row in
place looks at the ORDER BY column, so the index falls behind when that column
alone is updated.
-/
import AlchemyDB.Table.Session

namespace AlchemyDB.Table

open Assoc Index

/-- The node tree under each value holds the pairs of ORDER BY value and primary key of the rows with
that value, in the order of the ORDER BY values. -/
def InOrder (t : Tab) (i c o : Nat) : Prop :=
  ∃ x, t.inds[i]? = some x ∧ ∀ v,
    ((Nest.under [v] x.tree).map fun e => (some e.1, e.2)).Perm
      ((t.live.filter fun r => getCol r c = some v).map fun r => (getCol r o, r.pk)) ∧
    (Nest.under [v] x.tree).Pairwise fun e e' => ¬ e'.1 < e.1

variable {t : Tab} {i c o : Nat} {x : Ind} {v : Aobj}

/-- The rows with a value are those with an image under it. -/
theorem filter_image : ∀ {l : List Row}, (∀ r ∈ l, ¬ (Kind.single c (some o)).Hidden t.ty r) →
    (((l.filterMap (Kind.single c (some o)).image).filter fun q => decide (q.1 = [v])).map
      fun q => (some q.2.1, q.2.2)) =
    (l.filter fun r => decide (getCol r c = some v)).map fun r => (getCol r o, r.pk)
  | [], _ => rfl
  | r :: l, h => by
      have ih := filter_image fun p hp => h p (List.mem_cons_of_mem _ hp)
      have hr := h r List.mem_cons_self
      cases hc : getCol r c with
      | none =>
          have hi : (Kind.single c (some o)).image r = none := by
            simp [Kind.image, Kind.path, hc, whole]
          rw [List.filterMap_cons_none hi, ih, List.filter_cons_of_neg (by simp [hc])]
      | some w =>
          cases ho : getCol r o with
          | none => exact absurd ⟨by simp [Kind.path, hc, whole], ho⟩ hr
          | some a =>
              have hi : (Kind.single c (some o)).image r = some ([w], (a, r.pk)) := by
                simp [Kind.image, Kind.path, hc, whole, Kind.bkey, ho]
              rw [List.filterMap_cons_some hi]
              by_cases hw : w = v
              · rw [List.filter_cons_of_pos (by simp [hw]), List.filter_cons_of_pos (by simp [hc, hw]),
                  List.map_cons, List.map_cons, ih, ho]
              · rw [List.filter_cons_of_neg (by simp [hw]),
                  List.filter_cons_of_neg (by simp [hc, hw]), ih]

theorem under_sorted (hs : x.Shaped) (ks : List Aobj) :
    (Nest.under ks x.tree).Pairwise fun e e' => ¬ e'.1 < e.1 := by
  have h : ((Nest.bottom ks x.tree).getD ⟨.uu, []⟩).Sorted :=
    Ind.bottom_sorted hs List.Pairwise.nil
  unfold Nest.under
  cases hb : Nest.bottom ks x.tree with
  | none => exact List.Pairwise.nil
  | some l =>
      rw [hb] at h
      exact h

theorem Steady.inOrder (h : Steady t i (.single c (some o))) : InOrder t i c o := by
  obtain ⟨x, hx, hk, hs⟩ := h.index
  refine ⟨x, hx, fun v => ⟨?_, under_sorted hs.shaped [v]⟩⟩
  have hok := hs.holds.ok
  have hrows := hs.holds.rows
  rw [hk] at hok hrows
  have hfil := (hrows.filter fun q => decide (q.1 = [v])).map fun q => (some q.2.1, q.2.2)
  rw [Nest.rows_filter hok, filter_image h.shown, List.map_map] at hfil
  exact hfil

/-- SET a column of numbers to a number. -/
def setCol (j v : Nat) : Sets :=
  ⟨none, fun j' => if j' = j then some (fun _ => some (some (.int v))) else none⟩

theorem setCol_of (j v : Nat) : (setCol j v).Of (fun _ => .int) := by
  refine ⟨fun e h => (nomatch h), fun j' e he r w hw => ?_⟩
  simp only [setCol] at he
  split at he
  · cases he
    cases hw
    rfl
  · cases he

end AlchemyDB.Table
