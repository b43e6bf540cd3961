/-
# One index among the indexes of a table

The functions that go through the indexes of a table, followed at one place of
the list: what becomes of the index there, and what the indexes before it have to
do with it.
-/
import AlchemyDB.Table.Range

namespace AlchemyDB.Table

open Index

/-- The index accepts the row. -/
def accepts (r : Row) (x : Ind) : Bool := (x.addToIndex r).1

/-- What `__runInsertIndexes` makes of an index behind the indexes `pre`. -/
inductive Inserted (r : Row) (pre : List Ind) (x : Ind) : Bool → Ind → Prop where
  | taken (h : accepts r x = true) : Inserted r pre x true (x.addToIndex r).2
  /-- An index before it rejects the row. -/
  | before (h : ∃ y ∈ pre, accepts r y = false) : Inserted r pre x false x
  | rejected (hp : ∀ y ∈ pre, accepts r y = true) (h : accepts r x = false) :
      Inserted r pre x false (x.addToIndex r).2
  /-- An index behind it rejects the row. -/
  | undone {y : Ind} (hp : ∀ y ∈ pre, accepts r y = true) (h : accepts r x = true)
      (hd : (x.addToIndex r).2.delFromIndex r = some y) : Inserted r pre x false y

/-- What `upEffectedFailableIndexes` makes of an index behind the indexes `pre`. -/
inductive Redone (u : Sets) (old new : Row) (pre : List Ind) (x : Ind) : Bool → Ind → Prop where
  | idle {b : Bool} (h : effected u x.kind = false) : Redone u old new pre x b x
  | moved {y : Ind} (he : effected u x.kind = true) (h : accepts new x = true)
      (hd : (x.addToIndex new).2.delFromIndex old = some y) : Redone u old new pre x true y
  /-- An index before it rejects the row. -/
  | before (h : ∃ y ∈ pre, effected u y.kind = true ∧ accepts new y = false) :
      Redone u old new pre x false x
  | rejected (hp : ∀ y ∈ pre, effected u y.kind = true → accepts new y = true)
      (he : effected u x.kind = true) (h : accepts new x = false) :
      Redone u old new pre x false (x.addToIndex new).2
  /-- An index behind it rejects the row: only the addition is undone. -/
  | undone {y z : Ind} (hp : ∀ y ∈ pre, effected u y.kind = true → accepts new y = true)
      (he : effected u x.kind = true) (h : accepts new x = true)
      (hd : (x.addToIndex new).2.delFromIndex old = some y) (hd' : y.delFromIndex new = some z) :
      Redone u old new pre x false z

variable {r old new : Row} {u : Sets} {x y : Ind} {pre : List Ind} {b : Bool}

theorem Inserted.cons (h : Inserted r pre x b y) {a : Ind} (ha : accepts r a = true) :
    Inserted r (a :: pre) x b y := by
  have hcons : (∀ y ∈ pre, accepts r y = true) → ∀ y ∈ a :: pre, accepts r y = true := by
    intro hp y hy
    rcases List.mem_cons.1 hy with rfl | hy
    · exact ha
    · exact hp y hy
  cases h with
  | taken h => exact .taken h
  | before h =>
      obtain ⟨y, hy, h⟩ := h
      exact .before ⟨y, List.mem_cons_of_mem _ hy, h⟩
  | rejected hp h => exact .rejected (hcons hp) h
  | undone hp h hd => exact .undone (hcons hp) h hd

/-- The indexes accept the row when all of them do. -/
theorem runInsertIndexes_fst : ∀ {l l' : List Ind} {b : Bool},
    runInsertIndexes r l = some (b, l') → b = l.all (accepts r)
  | [], l', b, h => by
      cases h
      rfl
  | a :: l, l', b, h => by
      simp only [runInsertIndexes] at h
      rw [List.all_cons]
      cases ha : (a.addToIndex r).1 with
      | false =>
          simp only [ha, Bool.false_eq_true, if_false, Option.some.injEq, Prod.mk.injEq] at h
          simp [accepts, ha, ← h.1]
      | true =>
          simp only [ha, if_true] at h
          cases hr : runInsertIndexes r l with
          | none => simp [hr] at h
          | some e =>
              obtain ⟨b', l₁⟩ := e
              have ih := runInsertIndexes_fst hr
              rw [hr] at h
              cases b' with
              | true =>
                  cases h
                  rw [← ih]
                  simp [accepts, ha]
              | false =>
                  obtain ⟨w, _, he⟩ := Option.map_eq_some_iff.1 h
                  cases he
                  rw [← ih]
                  simp

theorem runInsertIndexes_at_place : ∀ {l l' : List Ind} {b : Bool} {i : Nat} {x : Ind},
    runInsertIndexes r l = some (b, l') → l[i]? = some x →
      ∃ y, l'[i]? = some y ∧ Inserted r (l.take i) x b y
  | a :: l, l', b, i, x, h, hx => by
      simp only [runInsertIndexes] at h
      cases ha : (a.addToIndex r).1 with
      | false =>
          simp only [ha, Bool.false_eq_true, if_false, Option.some.injEq, Prod.mk.injEq] at h
          obtain ⟨rfl, rfl⟩ := h
          cases i with
          | zero =>
              obtain rfl := Option.some.inj hx
              exact ⟨_, rfl, .rejected (fun y hy => absurd hy List.not_mem_nil) ha⟩
          | succ i => exact ⟨x, hx, .before ⟨a, List.mem_cons_self, ha⟩⟩
      | true =>
          simp only [ha, if_true] at h
          cases hr : runInsertIndexes r l with
          | none => simp [hr] at h
          | some e =>
              obtain ⟨b', l₁⟩ := e
              rw [hr] at h
              cases b' with
              | true =>
                  cases h
                  cases i with
                  | zero =>
                      obtain rfl := Option.some.inj hx
                      exact ⟨_, rfl, .taken ha⟩
                  | succ i =>
                      obtain ⟨y, hy, hi⟩ := runInsertIndexes_at_place hr hx
                      exact ⟨y, hy, hi.cons ha⟩
              | false =>
                  obtain ⟨w, hw, he⟩ := Option.map_eq_some_iff.1 h
                  cases he
                  cases i with
                  | zero =>
                      obtain rfl := Option.some.inj hx
                      exact ⟨w, rfl, .undone (fun y hy => absurd hy List.not_mem_nil) ha hw⟩
                  | succ i =>
                      obtain ⟨y, hy, hi⟩ := runInsertIndexes_at_place hr hx
                      exact ⟨y, hy, hi.cons ha⟩

theorem runDeleteIndexes_at_place : ∀ {l l' : List Ind} {i : Nat} {x : Ind},
    runDeleteIndexes r l = some l' → l[i]? = some x →
      ∃ y, l'[i]? = some y ∧ x.delFromIndex r = some y
  | a :: l, l', i, x, h, hx => by
      simp only [runDeleteIndexes] at h
      split at h
      · rename_i y rest hy hrest
        cases h
        cases i with
        | zero =>
            obtain rfl := Option.some.inj hx
            exact ⟨y, rfl, hy⟩
        | succ i =>
            obtain ⟨z, hz, hd⟩ := runDeleteIndexes_at_place hrest hx
            exact ⟨z, hz, hd⟩
      · cases h

theorem Redone.cons (h : Redone u old new pre x b y) {a : Ind}
    (ha : effected u a.kind = true → accepts new a = true) :
    Redone u old new (a :: pre) x b y := by
  have hcons : (∀ y ∈ pre, effected u y.kind = true → accepts new y = true) →
      ∀ y ∈ a :: pre, effected u y.kind = true → accepts new y = true := by
    intro hp y hy
    rcases List.mem_cons.1 hy with rfl | hy
    · exact ha
    · exact hp y hy
  cases h with
  | idle h => exact .idle h
  | moved he h hd => exact .moved he h hd
  | before h =>
      obtain ⟨y, hy, h⟩ := h
      exact .before ⟨y, List.mem_cons_of_mem _ hy, h⟩
  | rejected hp he h => exact .rejected (hcons hp) he h
  | undone hp he h hd hd' => exact .undone (hcons hp) he h hd hd'

theorem upEffected_fst : ∀ {l l' : List Ind} {b : Bool},
    upEffectedFailableIndexes u old new l = some (b, l') →
      b = l.all fun x => !effected u x.kind || accepts new x
  | [], l', b, h => by
      cases h
      rfl
  | a :: l, l', b, h => by
      simp only [upEffectedFailableIndexes] at h
      rw [List.all_cons]
      cases he : effected u a.kind with
      | false =>
          simp only [he, Bool.false_eq_true, if_false] at h
          obtain ⟨⟨b', l₁⟩, hr, hl⟩ := Option.map_eq_some_iff.1 h
          cases hl
          have ih := upEffected_fst hr
          simpa using ih
      | true =>
          simp only [he, if_true] at h
          cases ha : (a.addToIndex new).1 with
          | false =>
              simp only [ha, Bool.false_eq_true, if_false, Option.some.injEq, Prod.mk.injEq] at h
              simp [accepts, ha, ← h.1]
          | true =>
              simp only [ha, if_true] at h
              split at h
              · cases h
              · cases hr : upEffectedFailableIndexes u old new l with
                | none => simp [hr] at h
                | some e =>
                    obtain ⟨b', l₁⟩ := e
                    have ih := upEffected_fst hr
                    rw [hr] at h
                    cases b' with
                    | true =>
                        cases h
                        rw [← ih]
                        simp [accepts, ha]
                    | false =>
                        obtain ⟨w, _, hl⟩ := Option.map_eq_some_iff.1 h
                        cases hl
                        rw [← ih]
                        simp

theorem upEffected_at_place : ∀ {l l' : List Ind} {b : Bool} {i : Nat} {x : Ind},
    upEffectedFailableIndexes u old new l = some (b, l') → l[i]? = some x →
      ∃ y, l'[i]? = some y ∧ Redone u old new (l.take i) x b y
  | a :: l, l', b, i, x, h, hx => by
      simp only [upEffectedFailableIndexes] at h
      cases he : effected u a.kind with
      | false =>
          simp only [he, Bool.false_eq_true, if_false] at h
          obtain ⟨⟨b', l₁⟩, hr, hl⟩ := Option.map_eq_some_iff.1 h
          cases hl
          cases i with
          | zero =>
              obtain rfl := Option.some.inj hx
              exact ⟨a, rfl, .idle he⟩
          | succ i =>
              obtain ⟨y, hy, hi⟩ := upEffected_at_place hr hx
              exact ⟨y, hy, hi.cons (fun h => by rw [he] at h; cases h)⟩
      | true =>
          simp only [he, if_true] at h
          cases ha : (a.addToIndex new).1 with
          | false =>
              simp only [ha, Bool.false_eq_true, if_false, Option.some.injEq, Prod.mk.injEq] at h
              obtain ⟨rfl, rfl⟩ := h
              cases i with
              | zero =>
                  obtain rfl := Option.some.inj hx
                  exact ⟨_, rfl, .rejected (fun y hy => absurd hy List.not_mem_nil) he ha⟩
              | succ i => exact ⟨x, hx, .before ⟨a, List.mem_cons_self, he, ha⟩⟩
          | true =>
              simp only [ha, if_true] at h
              split at h
              · cases h
              · rename_i w hw
                cases hr : upEffectedFailableIndexes u old new l with
                | none => simp [hr] at h
                | some e =>
                    obtain ⟨b', l₁⟩ := e
                    rw [hr] at h
                    cases b' with
                    | true =>
                        cases h
                        cases i with
                        | zero =>
                            obtain rfl := Option.some.inj hx
                            exact ⟨w, rfl, .moved he ha hw⟩
                        | succ i =>
                            obtain ⟨y, hy, hi⟩ := upEffected_at_place hr hx
                            exact ⟨y, hy, hi.cons (fun _ => ha)⟩
                    | false =>
                        obtain ⟨z, hz, hl⟩ := Option.map_eq_some_iff.1 h
                        cases hl
                        cases i with
                        | zero =>
                            obtain rfl := Option.some.inj hx
                            exact ⟨z, rfl,
                              .undone (fun y hy => absurd hy List.not_mem_nil) he ha hw hz⟩
                        | succ i =>
                            obtain ⟨y, hy, hi⟩ := upEffected_at_place hr hx
                            exact ⟨y, hy, hi.cons (fun _ => ha)⟩

end AlchemyDB.Table
