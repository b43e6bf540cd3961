/-
# The `UpdateQueue` of a client

A range UPDATE queues the rows that are written anew in a list that belongs to the
client.  `iupdateAction` runs the queue or abandons it at its end, but the exit
that follows a failure in `opUpdateSort` does neither.  A client keeps an empty
queue exactly as long as no UPDATE under ORDER BY has a row that fails behind one
that was queued.
-/
import AlchemyDB.Table.Range

namespace AlchemyDB.Table

open Assoc Index

/-! ## Rows that fail -/

/-- One of the rows fails, and those before it pass. -/
def Fails (u : Sets) : Tab → List Aobj → Prop
  | _, [] => False
  | t, pk :: pks =>
      match t.store.find pk with
      | none => False
      | some cols =>
          match planRow t u ⟨pk, cols⟩ with
          | .failed => True
          | .overwrite c =>
              match t.store.replace pk c with
              | none => False
              | some s => Fails u { t with store := s } pks
          | .newRow _ => t.store.kind ≠ .uu ∧ Fails u t pks
          | .misread => False

/-- One of the rows fails behind one that is to be written anew. -/
def Strands (u : Sets) : Tab → List Aobj → Prop
  | _, [] => False
  | t, pk :: pks =>
      match t.store.find pk with
      | none => False
      | some cols =>
          match planRow t u ⟨pk, cols⟩ with
          | .failed => False
          | .overwrite c =>
              match t.store.replace pk c with
              | none => False
              | some s => Strands u { t with store := s } pks
          | .newRow _ => t.store.kind ≠ .uu ∧ Fails u t pks
          | .misread => False

variable {t : Tab} {u : Sets}

theorem fails_iff : ∀ {pks : List Aobj} {t : Tab},
    Fails u t pks ↔ ∃ t' q, updateRows u t pks = some (false, t', q)
  | [], t => by simp [Fails, updateRows]
  | pk :: pks, t => by
      simp only [Fails, updateRows]
      cases hf : t.store.find pk with
      | none => simp
      | some cols =>
          simp only
          cases hp : planRow t u ⟨pk, cols⟩ with
          | failed => simp
          | overwrite c =>
              simp only
              cases hr : t.store.replace pk c with
              | none => simp
              | some s => exact fails_iff
          | newRow new =>
              simp only
              by_cases hk : t.store.kind = .uu
              · simp [hk]
              · simp only [ne_eq, hk, not_false_eq_true, true_and, if_false]
                rw [fails_iff ]
                constructor
                · rintro ⟨t', q, h⟩
                  exact ⟨t', (⟨pk, cols⟩, new) :: q, by rw [h]; rfl⟩
                · rintro ⟨t', q, h⟩
                  obtain ⟨⟨b, t₁, q₁⟩, h₁, he⟩ := Option.map_eq_some_iff.1 h
                  cases he
                  exact ⟨t₁, q₁, h₁⟩
          | misread => simp

theorem fails_of_strands : ∀ {pks : List Aobj} {t : Tab}, Strands u t pks → Fails u t pks
  | [], _, h => h
  | pk :: pks, t, h => by
      simp only [Strands] at h
      simp only [Fails]
      cases hf : t.store.find pk with
      | none => simp [hf] at h
      | some cols =>
          simp only [hf] at h ⊢
          cases hp : planRow t u ⟨pk, cols⟩ with
          | failed => simp
          | overwrite c =>
              simp only [hp] at h ⊢
              cases hr : t.store.replace pk c with
              | none => simp [hr] at h
              | some s =>
                  simp only [hr] at h ⊢
                  exact fails_of_strands h
          | newRow new =>
              simp only [hp] at h ⊢
              exact h
          | misread => simp [hp] at h

/-- The rows that a failing command has queued. -/
theorem strands_iff : ∀ {pks : List Aobj} {t t' : Tab} {q : Queue},
    updateRows u t pks = some (false, t', q) → (Strands u t pks ↔ q ≠ [])
  | [], t, t', q, h => by simp [updateRows] at h
  | pk :: pks, t, t', q, h => by
      simp only [updateRows] at h
      simp only [Strands]
      cases hf : t.store.find pk with
      | none => simp [hf] at h
      | some cols =>
          simp only [hf] at h ⊢
          cases hp : planRow t u ⟨pk, cols⟩ with
          | failed =>
              simp only [hp, Option.some.injEq, Prod.mk.injEq] at h
              simp [← h.2.2]
          | overwrite c =>
              simp only [hp] at h ⊢
              cases hr : t.store.replace pk c with
              | none => simp [hr] at h
              | some s =>
                  simp only [hr] at h ⊢
                  exact strands_iff h
          | newRow new =>
              simp only [hp] at h ⊢
              obtain ⟨hk, h⟩ := Option.ite_none_left_eq_some.1 h
              obtain ⟨⟨b, t₁, q₁⟩, h₁, he⟩ := Option.map_eq_some_iff.1 h
              cases he
              exact ⟨fun _ => List.cons_ne_nil _ _, fun _ => ⟨hk, fails_iff.2 ⟨_, _, h₁⟩⟩⟩
          | misread => simp [hp] at h

/-! ## Commands -/

/-- An UPDATE, of one row or of a range. -/
inductive Upd where
  | one (pk : Aobj)
  | range (sc : Scan)

/-- An UPDATE of a client with the queue `q`. -/
def Upd.exec (t : Tab) (u : Sets) (q : Queue) : Upd → Option (Bool × Tab × Queue)
  | .one pk => (updateSingle t u pk).map fun e => (e.1, e.2, q)
  | .range sc => updateRange t u q sc

/-- The command leaves no row behind: it is not sorted, it is refused, or no row of it fails behind
one that was queued. -/
def Upd.Clears (t : Tab) (u : Sets) : Upd → Prop
  | .one _ => True
  | .range sc => sc.sorted = false ∨ rangeRefused t u = true ∨ ¬ Strands u t sc.visited

/-- A range without rows has none to go through. -/
theorem Scan.visited_nil {sc : Scan} (h : sc.rows = []) : sc.visited = [] := by
  unfold Scan.visited
  rw [h]
  split
  · split <;> simp
  · rfl

/-- A command that begins with an empty queue. -/
theorem exec_queue {c : Upd} {b : Bool} {t' : Tab} {q : Queue} (h : c.exec t u [] = some (b, t', q)) :
    q = [] ↔ c.Clears t u := by
  cases c with
  | one pk =>
      obtain ⟨e, _, he⟩ := Option.map_eq_some_iff.1 h
      cases he
      exact ⟨fun _ => trivial, fun _ => rfl⟩
  | range sc =>
      simp only [Upd.exec, updateRange] at h
      simp only [Upd.Clears]
      cases hr : rangeRefused t u with
      | true =>
          rw [hr, if_pos rfl] at h
          cases h
          exact ⟨fun _ => .inr (.inl rfl), fun _ => rfl⟩
      | false =>
          rw [hr] at h
          simp only [Bool.false_eq_true, if_false] at h
          by_cases hrows : sc.rows = []
          · rw [if_pos hrows] at h
            cases h
            refine ⟨fun _ => .inr (.inr ?_), fun _ => rfl⟩
            rw [Scan.visited_nil hrows]
            exact id
          · rw [if_neg hrows] at h
            cases hrun : updateRows u t sc.visited with
            | none => simp [hrun] at h
            | some e =>
                obtain ⟨ok, t₁, q₁⟩ := e
                simp only [hrun] at h
                cases ok with
                | true =>
                    simp only [if_true] at h
                    obtain ⟨_, _, he⟩ := Option.map_eq_some_iff.1 h
                    cases he
                    refine ⟨fun _ => .inr (.inr fun hst => ?_), fun _ => rfl⟩
                    have hpass : ¬ Fails u t sc.visited := by
                      rw [fails_iff, hrun]
                      simp
                    exact hpass (fails_of_strands hst)
                | false =>
                    have hst := strands_iff hrun
                    simp only [List.nil_append, Option.some.injEq, Prod.mk.injEq] at h
                    obtain ⟨rfl, rfl, rfl⟩ := h
                    cases hs : sc.sorted with
                    | false => simp
                    | true => simp [hst]

/-! ## Runs -/

/-- A command with the table that it finds, and the queue before it. -/
structure Issue where
  tab : Tab
  sets : Sets
  upd : Upd
  queue : Queue

/-- The UPDATEs of one client, the last one first, and the queue behind them.  What happens to the
tables in between is not said. -/
inductive Issued : List Issue → Queue → Prop where
  | start : Issued [] []
  | step {l : List Issue} {q q' : Queue} {t t' : Tab} {u : Sets} {c : Upd} {b : Bool} :
      Issued l q → c.exec t u q = some (b, t', q') → Issued (⟨t, u, c, q⟩ :: l) q'

/-- A table with two rows of one INT; the second one is empty. -/
def halfEmpty : Tab :=
  ⟨fun _ => .int, 1, ⟨.norm, [(.int 1, [some (.int 127)]), (.int 2, [none])]⟩, []⟩

end AlchemyDB.Table
