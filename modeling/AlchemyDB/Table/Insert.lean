/-
# INSERT — a row that an index rejects

The row is taken out again of the indexes before the one that rejects it.  The
table is as it was exactly when each of those indexes is restored by that, and the
destroy pass of a multi column index that rejects takes nothing that was there.
-/
import AlchemyDB.Index.Undo
import AlchemyDB.Table.Model

namespace AlchemyDB.Table

open Index

/-- A run over the indexes that is rejected by the index `x`. -/
theorem runInsertIndexes_false {r : Row} {x : Ind} {post : List Ind}
    (hx : (x.addToIndex r).1 = false) :
    ∀ {pre : List Ind} {e : Bool × List Ind}, (∀ y ∈ pre, (y.addToIndex r).1 = true) →
      runInsertIndexes r (pre ++ x :: post) = some e → e.1 = false
  | [], e, _, he => by
      simp only [List.nil_append, runInsertIndexes, hx, Bool.false_eq_true, if_false,
        Option.some.injEq] at he
      rw [← he]
  | y :: pre, e, hy, he => by
      simp only [List.cons_append, runInsertIndexes, hy y List.mem_cons_self, if_true] at he
      cases hr : runInsertIndexes r (pre ++ x :: post) with
      | none => simp [hr] at he
      | some e' =>
          obtain ⟨b, l⟩ := e'
          obtain rfl : b = false :=
            runInsertIndexes_false hx (fun w hw => hy w (List.mem_cons_of_mem _ hw)) hr
          rw [hr] at he
          obtain ⟨w, _, rfl⟩ := Option.map_eq_some_iff.1 he
          rfl

/-- When such a run leaves the indexes as they were. -/
theorem runInsertIndexes_rejected {r : Row} {x : Ind} {post : List Ind}
    (hx : (x.addToIndex r).1 = false) :
    ∀ {pre : List Ind}, (∀ y ∈ pre, y.Shaped) → (∀ y ∈ pre, (y.addToIndex r).1 = true) →
      (runInsertIndexes r (pre ++ x :: post) = some (false, pre ++ x :: post) ↔
        (∀ y ∈ pre, y.Undone r) ∧ x.Spared r)
  | [], _, _ => by
      have hrun : runInsertIndexes r (x :: post) = some (false, (x.addToIndex r).2 :: post) := by
        simp [runInsertIndexes, hx]
      rw [List.nil_append, hrun, ← Ind.spared_iff hx]
      simp
  | y :: pre, hs, hpre => by
      have hpre' : ∀ z ∈ pre, (z.addToIndex r).1 = true :=
        fun z hz => hpre z (List.mem_cons_of_mem _ hz)
      have ih : runInsertIndexes r (pre ++ x :: post) = some (false, pre ++ x :: post) ↔
          (∀ y ∈ pre, y.Undone r) ∧ x.Spared r :=
        runInsertIndexes_rejected hx (fun z hz => hs z (List.mem_cons_of_mem _ hz)) hpre'
      have hundo := Ind.undone_iff (hs y List.mem_cons_self) (hpre y List.mem_cons_self)
      simp only [List.cons_append, runInsertIndexes, hpre y List.mem_cons_self, if_true]
      cases hr : runInsertIndexes r (pre ++ x :: post) with
      | none =>
          rw [hr] at ih
          simp only [reduceCtorEq, false_iff] at ih ⊢
          exact fun h => ih ⟨fun z hz => h.1 z (List.mem_cons_of_mem _ hz), h.2⟩
      | some e =>
          obtain ⟨b, rest⟩ := e
          obtain rfl : b = false := runInsertIndexes_false hx hpre' hr
          rw [hr] at ih
          simp only [Option.map_eq_some_iff, Prod.mk.injEq, true_and, List.cons.injEq,
            Option.some.injEq] at ih ⊢
          constructor
          · rintro ⟨z, hz, rfl, hrest⟩
            obtain ⟨h1, h2⟩ := ih.1 hrest
            refine ⟨fun w hw => ?_, h2⟩
            rcases List.mem_cons.1 hw with rfl | hw
            · exact hundo.1 hz
            · exact h1 w hw
          · rintro ⟨h1, h2⟩
            exact ⟨y, hundo.2 (h1 y List.mem_cons_self), rfl,
              ih.2 ⟨fun w hw => h1 w (List.mem_cons_of_mem _ hw), h2⟩⟩

end AlchemyDB.Table
