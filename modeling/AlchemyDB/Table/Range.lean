/-
# Range UPDATE — rows overwritten, rows queued

A range UPDATE goes through the rows that match.  A row that is overwritten in
place is written at once; a new row is queued, and the queue is run when every
row has passed.  When a row fails, the queue is dropped, but the rows that were
overwritten before it stay overwritten.
-/
import AlchemyDB.Table.Update

namespace AlchemyDB.Table

open Assoc Index

/-! ## The command -/

/-- The rows that match, and what ORDER BY, LIMIT and OFFSET make of them.  Without ORDER BY the
rows have been counted off in the scan. -/
structure Scan where
  rows : List Aobj
  sorted : Bool
  ofst : Nat
  lim : Option Nat

/-- The rows that are updated. -/
def Scan.visited (sc : Scan) : List Aobj :=
  if sc.sorted then
    match sc.lim with
    | none => sc.rows.drop sc.ofst
    | some n => (sc.rows.drop sc.ofst).take n
  else sc.rows

/-- `UpdateQueue`: the old rows and the new ones. -/
abbrev Queue := List (Row × Row)

/-- The loop of `iupdateAction` and of `opUpdateSort`, with `updateRow` for each row. -/
def updateRows (u : Sets) : Tab → List Aobj → Option (Bool × Tab × Queue)
  | t, [] => some (true, t, [])
  | t, pk :: pks =>
      match t.store.find pk with
      | none => none
      | some cols =>
          match planRow t u ⟨pk, cols⟩ with
          | .failed => some (false, t, [])
          | .overwrite c =>
              match t.store.replace pk c with
              | none => none
              | some s => updateRows u { t with store := s } pks
          | .newRow new =>
              -- `queueUpdate` follows the number of a packed tree as the address of a row
              if t.store.kind = .uu then none
              else (updateRows u t pks).map fun e => (e.1, e.2.1, (⟨pk, cols⟩, new) :: e.2.2)
          | .misread => none

/-- The rows of the tables that hold one U128 for each key share one buffer. -/
def sharedRows (t : Tab) (q : Queue) : Queue :=
  match q.getLast? with
  | some e =>
      if t.store.kind = .wide ∧ t.ty 1 = .u128 then q.map fun p => (p.1, ⟨p.2.pk, e.2.cols⟩) else q
  | none => q

/-- `runUpdateQueue`. -/
def runUpdateQueue (u : Sets) : Tab → Queue → Option Tab
  | t, [] => some t
  | t, e :: q =>
      match runUpdate t u e.1 e.2 with
      | none => none
      | some t => runUpdateQueue u t q

/-- A range UPDATE may not set the primary key nor a column of a unique index (`isUpdatingIndex`). -/
def rangeRefused (t : Tab) (u : Sets) : Bool :=
  u.pk.isSome || t.inds.any (fun x => x.kind.unique && effected u x.kind)

/-- `iupdateAction` of a client with the queue `q`: whether the command succeeds, the table after it,
and the queue.  A failure under ORDER BY leaves the queue as it is, and what is run of it by a later
command refers to a frame that is gone. -/
def updateRange (t : Tab) (u : Sets) (q : Queue) (sc : Scan) : Option (Bool × Tab × Queue) :=
  if rangeRefused t u then some (false, t, q)
  else if sc.rows = [] then some (true, t, q)
  else
    match updateRows u t sc.visited with
    | none => none
    | some (true, t, q') =>
        if q = [] then (runUpdateQueue u t (sharedRows t q')).map fun t => (true, t, []) else none
    | some (false, t, q') => some (false, t, if sc.sorted then q ++ q' else [])

/-! ## A row that fails -/

/-- Up to the first row that fails, no row is overwritten with something else than it holds. -/
def Untouched (t : Tab) (u : Sets) : List Aobj → Prop
  | [] => True
  | pk :: pks =>
      match t.store.find pk with
      | none => True
      | some cols =>
          match planRow t u ⟨pk, cols⟩ with
          | .failed => True
          | .overwrite c => c = cols ∧ Untouched t u pks
          | .newRow _ => Untouched t u pks
          | .misread => True

variable {t t' : Tab} {u : Sets} {pk : Aobj} {pks : List Aobj}

theorem planRow_overwrite {r : Row} {c : Cols} (h : planRow t u r = .overwrite c) :
    t.store.kind = .norm := by
  unfold planRow at h
  split at h
  · cases h
  · split at h
    · rename_i ho
      unfold overwrites at ho
      exact of_decide_eq_true (Bool.and_eq_true_iff.1 ho).1
    · exact absurd h handRow_ne_overwrite

/-- A row that is overwritten with what it holds. -/
theorem overwrite_same {cols : Cols} (hf : t.store.find pk = some cols)
    (hk : t.store.kind = .norm) : t.store.replace pk cols = some t.store := by
  refine replace_same hf ?_
  rw [hk]
  intro k hkey
  cases hkey
  rfl

theorem updateRows_untouched : ∀ {pks : List Aobj} {e : Bool × Tab × Queue}, Untouched t u pks →
    updateRows u t pks = some e → e.2.1 = t
  | [], e, _, h => by
      cases h
      rfl
  | pk :: pks, e, hun, h => by
      simp only [updateRows] at h
      simp only [Untouched] at hun
      cases hf : t.store.find pk with
      | none => simp [hf] at h
      | some cols =>
          simp only [hf] at h hun
          cases hp : planRow t u ⟨pk, cols⟩ with
          | failed =>
              simp only [hp, Option.some.injEq] at h
              rw [← h]
          | overwrite c =>
              simp only [hp] at h hun
              obtain ⟨rfl, hun⟩ := hun
              rw [overwrite_same hf (planRow_overwrite hp)] at h
              exact updateRows_untouched hun h
          | newRow new =>
              simp only [hp] at h hun
              obtain ⟨_, h⟩ := Option.ite_none_left_eq_some.1 h
              obtain ⟨e', he, rfl⟩ := Option.map_eq_some_iff.1 h
              have ih := updateRows_untouched hun he
              exact ih
          | misread => simp [hp] at h

/-- The rows that are not gone through stay as they are. -/
theorem updateRows_frame : ∀ {pks : List Aobj} {t : Tab} {e : Bool × Tab × Queue},
    updateRows u t pks = some e → pk ∉ pks → get? e.2.1.store.ents pk = get? t.store.ents pk
  | [], t, e, h, _ => by
      cases h
      rfl
  | a :: pks, t, e, h, hn => by
      rw [List.mem_cons, not_or] at hn
      simp only [updateRows] at h
      cases hf : t.store.find a with
      | none => simp [hf] at h
      | some cols =>
          simp only [hf] at h
          cases hp : planRow t u ⟨a, cols⟩ with
          | failed =>
              simp only [hp, Option.some.injEq] at h
              rw [← h]
          | overwrite c =>
              have hk : t.store.kind ≠ .uu := by rw [planRow_overwrite hp]; simp
              have hget : get? t.store.ents a = some cols := (find_plain hk a).symm.trans hf
              simp only [hp, replace_plain hk hget] at h
              rw [updateRows_frame h hn.2, get?_set hget, if_neg hn.1]
          | newRow new =>
              simp only [hp] at h
              obtain ⟨_, h⟩ := Option.ite_none_left_eq_some.1 h
              obtain ⟨e', he, rfl⟩ := Option.map_eq_some_iff.1 h
              have ih := updateRows_frame he hn.2
              exact ih
          | misread => simp [hp] at h

/-- What was overwritten with something else stays so. -/
theorem untouched_of_updateRows : ∀ {pks : List Aobj} {e : Bool × Tab × Queue}, pks.Nodup →
    updateRows u t pks = some e → e.2.1.store = t.store → Untouched t u pks
  | [], _, _, _, _ => trivial
  | a :: pks, e, hnd, h, hs => by
      obtain ⟨hn, hnd⟩ := List.nodup_cons.1 hnd
      simp only [updateRows] at h
      simp only [Untouched]
      cases hf : t.store.find a with
      | none => trivial
      | some cols =>
          simp only [hf] at h ⊢
          cases hp : planRow t u ⟨a, cols⟩ with
          | failed => trivial
          | overwrite c =>
              simp only [hp] at h ⊢
              have hk : t.store.kind ≠ .uu := by rw [planRow_overwrite hp]; simp
              have hget : get? t.store.ents a = some cols := (find_plain hk a).symm.trans hf
              obtain rfl : c = cols := by
                rw [replace_plain hk hget] at h
                have hfr := updateRows_frame h hn
                rw [hs, hget, get?_set hget, if_pos rfl] at hfr
                exact (Option.some.inj hfr).symm
              rw [overwrite_same hf (planRow_overwrite hp)] at h
              exact ⟨rfl, untouched_of_updateRows hnd h hs⟩
          | newRow new =>
              simp only [hp] at h ⊢
              obtain ⟨_, h⟩ := Option.ite_none_left_eq_some.1 h
              obtain ⟨e', he, rfl⟩ := Option.map_eq_some_iff.1 h
              exact untouched_of_updateRows hnd he hs
          | misread => trivial

/-- What a range UPDATE that replies an error has done. -/
theorem updateRange_failed {q q' : Queue} {sc : Scan}
    (h : updateRange t u q sc = some (false, t', q')) :
    (rangeRefused t u = true ∧ t' = t) ∨
      (rangeRefused t u = false ∧ ∃ q', updateRows u t sc.visited = some (false, t', q')) := by
  unfold updateRange at h
  cases hr : rangeRefused t u with
  | true =>
      rw [hr, if_pos rfl] at h
      cases h
      exact .inl ⟨rfl, rfl⟩
  | false =>
      rw [hr] at h
      simp only [Bool.false_eq_true, if_false] at h
      split at h
      · cases h
      · split at h
        · cases h
        · split at h
          · obtain ⟨_, _, he⟩ := Option.map_eq_some_iff.1 h
            cases he
          · cases h
        · rename_i t₁ q₁ hrun
          cases h
          exact .inr ⟨rfl, q₁, hrun⟩

/-- A range UPDATE that replies an error has changed no row if no row before the one that failed was
overwritten with something else, and, where no row is gone through twice, only then. -/
theorem updateRange_failed_iff (t t' : Tab) (u : Sets) (q q' : Queue) (sc : Scan)
    (h : updateRange t u q sc = some (false, t', q')) :
    (rangeRefused t u = true ∨ Untouched t u sc.visited → t'.store = t.store) ∧
      (sc.rows.Nodup → t'.store = t.store →
        rangeRefused t u = true ∨ Untouched t u sc.visited) := by
  rcases updateRange_failed h with ⟨hr, rfl⟩ | ⟨hr, q₁, hrun⟩
  · exact ⟨fun _ => rfl, fun _ _ => .inl hr⟩
  · constructor
    · rintro (h' | h')
      · rw [hr] at h'
        cases h'
      · rw [show t' = t from updateRows_untouched h' hrun]
    · intro hnd hs
      refine .inr (untouched_of_updateRows ?_ hrun hs)
      unfold Scan.visited
      split
      · split
        · exact hnd.sublist (List.drop_sublist _ _)
        · exact hnd.sublist ((List.take_sublist _ _).trans (List.drop_sublist _ _))
      · exact hnd

/-- `SET column1 = column1 + 1`, which fails on an empty column and above 32 bits. -/
def incrFirst : Sets where
  pk := none
  col := fun j => if j = 1 then
      some (fun r => match getCol r 1 with
        | some (.int i) => if i + 1 < 4294967296 then some (some (.int (i + 1))) else none
        | _ => none)
    else none

/-- The first row is to get a longer number and is queued, the second one is empty. -/
theorem updateRange_failed_queued :
    let t : Tab := ⟨fun _ => .int, 1, ⟨.norm, [(.int 1, [some (.int 127)]), (.int 2, [none])]⟩, []⟩
    let sc : Scan := ⟨[.int 1, .int 2], false, 0, none⟩
    ∃ t', updateRange t incrFirst [] sc = some (false, t', []) ∧ t'.store = t.store := by
  intro t sc
  exact ⟨t, rfl, (updateRange_failed_iff t t incrFirst [] [] sc rfl).1 (.inr trivial)⟩

/-- The first row is overwritten in place, the second one is empty. -/
theorem updateRange_failed_overwritten : ¬ ∀ (t t' : Tab) (u : Sets) (q q' : Queue) (sc : Scan),
    updateRange t u q sc = some (false, t', q') → t'.store = t.store := by
  intro h
  let t : Tab := ⟨fun _ => .int, 1, ⟨.norm, [(.int 1, [some (.int 5)]), (.int 2, [none])]⟩, []⟩
  let t' : Tab := ⟨fun _ => .int, 1, ⟨.norm, [(.int 1, [some (.int 6)]), (.int 2, [none])]⟩, []⟩
  have hs := h t t' incrFirst [] [] ⟨[.int 1, .int 2], false, 0, none⟩ rfl
  revert hs
  decide

end AlchemyDB.Table
