/-
# UPDATE — a row that an index rejects

The single row UPDATE goes on when an index rejects the new row: the row is
replaced all the same.  So the command leaves everything as it was only when it
changes nothing to begin with: no new primary key, the new row is the old one,
and the indexes redone before the one that rejects hold nothing for the row.
-/
import AlchemyDB.Index.Idle
import AlchemyDB.Table.Insert

namespace AlchemyDB.Table

open Assoc Index

/-- The command comes as far as to write a new row: the row is there, the new primary key is not
taken for one that is, and the new row is not written in place. -/
structure Reaches (t : Tab) (u : Sets) (old new : Row) : Prop where
  check : u.pk.any (fun e => (t.store.find e.checked).isSome) = false
  found : t.store.find old.pk = some old.cols
  plan : planRow t u old = .newRow new

/-- The indexes that are redone. -/
def redone (u : Sets) (k : Kind) : Prop := u.pk.isSome = true ∨ effected u k = true

/-- The index `x` is the first to report a violation. -/
structure Violated (t : Tab) (u : Sets) (new : Row) (pre : List Ind) (x : Ind) (post : List Ind) :
    Prop where
  inds : t.inds = pre ++ x :: post
  before : ∀ y ∈ pre, redone u y.kind → (y.addToIndex new).1 = true
  here : redone u x.kind
  rejects : (x.addToIndex new).1 = false

/-- What it takes for the command to change nothing. -/
structure Harmless (t : Tab) (u : Sets) (old new : Row) (pre : List Ind) (x : Ind) : Prop where
  pk : u.pk = none
  same : new = old
  packed : ∀ k, Store.key t.store.kind old.pk = some k →
    Store.stream t.store.kind old.pk old.cols = (k, old.cols)
  before : ∀ y ∈ pre, effected u y.kind = true → y.Idle old
  here : x.Spared old

variable {t : Tab} {u : Sets} {old new r : Row} {pre post : List Ind} {x : Ind}

/-! ## The indexes -/

theorem upEffected_false (hx : (x.addToIndex new).1 = false) (he : effected u x.kind = true) :
    ∀ {pre : List Ind} {e : Bool × List Ind},
      (∀ y ∈ pre, effected u y.kind = true → (y.addToIndex new).1 = true) →
      upEffectedFailableIndexes u old new (pre ++ x :: post) = some e → e.1 = false
  | [], e, _, h => by
      simp only [List.nil_append, upEffectedFailableIndexes, he, hx, if_true, Bool.false_eq_true,
        if_false, Option.some.injEq] at h
      rw [← h]
  | y :: pre, e, hy, h => by
      have hy' := fun z hz => hy z (List.mem_cons_of_mem _ hz)
      simp only [List.cons_append, upEffectedFailableIndexes] at h
      by_cases hey : effected u y.kind = true
      · rw [if_pos hey, if_pos (hy y List.mem_cons_self hey)] at h
        split at h
        · cases h
        · cases hr : upEffectedFailableIndexes u old new (pre ++ x :: post) with
          | none => simp [hr] at h
          | some e' =>
              obtain ⟨b, l⟩ := e'
              obtain rfl : b = false := upEffected_false hx he hy' hr
              rw [hr] at h
              obtain ⟨w, _, rfl⟩ := Option.map_eq_some_iff.1 h
              rfl
      · rw [if_neg hey] at h
        obtain ⟨e', hr, rfl⟩ := Option.map_eq_some_iff.1 h
        have ih := upEffected_false hx he hy' hr
        exact ih

/-- Where the new row is the old one: when the indexes are as they were. -/
theorem upEffected_rejected (hx : (x.addToIndex r).1 = false) (he : effected u x.kind = true) :
    ∀ {pre : List Ind}, (∀ y ∈ pre, y.Shaped) →
      (∀ y ∈ pre, effected u y.kind = true → (y.addToIndex r).1 = true) →
      (upEffectedFailableIndexes u r r (pre ++ x :: post) = some (false, pre ++ x :: post) ↔
        (∀ y ∈ pre, effected u y.kind = true → y.Idle r) ∧ x.Spared r)
  | [], _, _ => by
      have hrun : upEffectedFailableIndexes u r r (x :: post) =
          some (false, (x.addToIndex r).2 :: post) := by
        simp [upEffectedFailableIndexes, he, hx]
      rw [List.nil_append, hrun, ← Ind.spared_iff hx]
      simp
  | y :: pre, hs, hpre => by
      have hpre' := fun z hz => hpre z (List.mem_cons_of_mem _ hz)
      have ih : upEffectedFailableIndexes u r r (pre ++ x :: post) = some (false, pre ++ x :: post) ↔
          (∀ y ∈ pre, effected u y.kind = true → y.Idle r) ∧ x.Spared r :=
        upEffected_rejected hx he (fun z hz => hs z (List.mem_cons_of_mem _ hz)) hpre'
      simp only [List.cons_append, upEffectedFailableIndexes]
      by_cases hey : effected u y.kind = true
      · have hacc := hpre y List.mem_cons_self hey
        have hidle := Ind.idle_iff (hs y List.mem_cons_self) hacc
        rw [if_pos hey, if_pos hacc]
        have hall : (∀ z ∈ y :: pre, effected u z.kind = true → z.Idle r) ∧ x.Spared r ↔
            y.Idle r ∧ upEffectedFailableIndexes u r r (pre ++ x :: post) =
              some (false, pre ++ x :: post) := by
          rw [ih, List.forall_mem_cons, and_assoc]
          exact and_congr_left' ⟨fun h => h hey, fun h _ => h⟩
        rw [hall, ← hidle]
        cases hd : (y.addToIndex r).2.delFromIndex r with
        | none => simp
        | some z =>
            cases hr : upEffectedFailableIndexes u r r (pre ++ x :: post) with
            | none => simp
            | some e =>
                obtain ⟨b, rest⟩ := e
                obtain rfl : b = false := upEffected_false hx he hpre' hr
                simp only [Option.map_eq_some_iff, Option.some.injEq, Prod.mk.injEq, true_and,
                  List.cons.injEq, exists_eq_left']
                constructor
                · rintro ⟨w, hw, rfl, hrest⟩
                  exact ⟨hw, hrest⟩
                · rintro ⟨hw, hrest⟩
                  exact ⟨y, hw, rfl, hrest⟩
      · rw [if_neg hey]
        have hall : (∀ z ∈ y :: pre, effected u z.kind = true → z.Idle r) ∧ x.Spared r ↔
            upEffectedFailableIndexes u r r (pre ++ x :: post) = some (false, pre ++ x :: post) := by
          rw [ih, List.forall_mem_cons, and_assoc]
          exact ⟨And.right, fun h => ⟨fun h' => absurd h' hey, h⟩⟩
        rw [hall]
        cases upEffectedFailableIndexes u r r (pre ++ x :: post) with
        | none => simp
        | some e =>
            obtain ⟨b, rest⟩ := e
            simp

/-- What a rejected run leaves of the index that rejects. -/
theorem runInsertIndexes_at (hx : (x.addToIndex r).1 = false) :
    ∀ {pre : List Ind} {e : Bool × List Ind}, (∀ y ∈ pre, (y.addToIndex r).1 = true) →
      runInsertIndexes r (pre ++ x :: post) = some e →
      ∃ pre', pre'.length = pre.length ∧ e.2 = pre' ++ (x.addToIndex r).2 :: post
  | [], e, _, h => by
      simp only [List.nil_append, runInsertIndexes, hx, Bool.false_eq_true, if_false,
        Option.some.injEq] at h
      exact ⟨[], rfl, by rw [← h]; rfl⟩
  | y :: pre, e, hy, h => by
      have hy' := fun z hz => hy z (List.mem_cons_of_mem _ hz)
      simp only [List.cons_append, runInsertIndexes, hy y List.mem_cons_self, if_true] at h
      cases hr : runInsertIndexes r (pre ++ x :: post) with
      | none => simp [hr] at h
      | some e' =>
          obtain ⟨pre', hlen, he⟩ := runInsertIndexes_at hx hy' hr
          obtain ⟨b, l⟩ := e'
          obtain rfl : b = false := runInsertIndexes_false hx hy' hr
          rw [hr] at h
          obtain ⟨w, _, rfl⟩ := Option.map_eq_some_iff.1 h
          simp only at he
          exact ⟨w :: pre', by simp [hlen], by rw [he]; rfl⟩

theorem runDeleteIndexes_at {y : Ind} {post' : List Ind} :
    ∀ {pre' pre : List Ind}, pre'.length = pre.length →
      runDeleteIndexes r (pre' ++ y :: post) = some (pre ++ x :: post') →
      y.delFromIndex r = some x
  | [], [], _, h => by
      simp only [List.nil_append, runDeleteIndexes] at h
      split at h
      · rename_i z rest hz _
        simp only [Option.some.injEq, List.cons.injEq] at h
        rw [hz, h.1]
      · cases h
  | a :: pre', b :: pre, hlen, h => by
      simp only [List.cons_append, runDeleteIndexes] at h
      split at h
      · rename_i z rest _ hrest
        simp only [Option.some.injEq, List.cons.injEq] at h
        rw [h.2] at hrest
        exact runDeleteIndexes_at (Nat.succ.inj hlen) hrest
      · cases h

/-! ## The row -/

/-- A row that is handed over is the one that was built. -/
theorem handRow_newRow (h : handRow t r = .newRow new) : new = r := by
  unfold handRow at h
  split at h
  · cases h
    rfl
  · split at h
    · cases h
    · cases h
      rfl
  · split at h
    · split at h
      · cases h
        rfl
      · cases h
    · split at h
      · cases h
      · cases h
    · cases h

theorem handRow_ne_overwrite {c : Cols} : handRow t r ≠ .overwrite c := by
  unfold handRow
  intro h
  split at h
  · cases h
  · split at h <;> cases h
  · split at h
    · split at h <;> cases h
    · split at h <;> cases h
    · cases h

theorem Reaches.pk (h : Reaches t u old new) (hu : u.pk = none) : new.pk = old.pk := by
  have hp := h.plan
  unfold planRow at hp
  cases he : u.evalRow t.ncols old with
  | none => simp [he] at hp
  | some n =>
      simp only [he] at hp
      split at hp
      · cases hp
      · obtain rfl := handRow_newRow hp
        unfold Sets.evalRow at he
        rw [hu] at he
        obtain ⟨c, _, rfl⟩ := Option.map_eq_some_iff.1 he
        rfl

theorem Reaches.run (h : Reaches t u old new) :
    updateSingle t u old.pk = (runUpdate t u old new).map fun t => (true, t) := by
  unfold updateSingle
  rw [h.check, h.found]
  simp only [Bool.false_eq_true, if_false]
  rw [show (⟨old.pk, old.cols⟩ : Row) = old from rfl, h.plan]

/-- Apart from packed trees a table reads as it is. -/
theorem find_plain {s : Store} (hk : s.kind ≠ .uu) (pk : Aobj) : s.find pk = get? s.ents pk := by
  unfold Store.find
  cases hs : s.kind with
  | uu => exact absurd hs hk
  | norm => cases hg : get? s.ents pk <;> simp [Store.key, hg]
  | wide => cases hg : get? s.ents pk <;> simp [Store.key, hg]

theorem replace_plain {s : Store} {pk : Aobj} {c : Cols} (hk : s.kind ≠ .uu)
    (hg : get? s.ents pk = some c) (c' : Cols) :
    s.replace pk c' = some { s with ents := Assoc.set pk c' s.ents } := by
  unfold Store.replace
  cases hs : s.kind with
  | uu => exact absurd hs hk
  | norm => simp [Store.key, Store.stream, hg]
  | wide => simp [Store.key, Store.stream, hg]

theorem key_plain {s : Store} (hk : s.kind ≠ .uu) (pk : Aobj) : Store.key s.kind pk = some pk := by
  cases hs : s.kind with
  | uu => exact absurd hs hk
  | norm => rfl
  | wide => rfl

theorem stream_plain {s : Store} (hk : s.kind ≠ .uu) (pk : Aobj) (c : Cols) :
    Store.stream s.kind pk c = (pk, c) := by
  cases hs : s.kind with
  | uu => exact absurd hs hk
  | norm => rfl
  | wide => rfl

/-- The row that is there, written again. -/
theorem replace_same {s : Store} {pk : Aobj} {c : Cols} (hf : s.find pk = some c)
    (hp : ∀ k, Store.key s.kind pk = some k → Store.stream s.kind pk c = (k, c)) :
    s.replace pk c = some s := by
  unfold Store.find at hf
  unfold Store.replace
  cases hk : Store.key s.kind pk with
  | none => simp [hk] at hf
  | some k =>
      rw [hk] at hf
      obtain ⟨hg, _⟩ := Option.filter_eq_some_iff.1 hf
      simp only [hp k hk, hg, if_true, set_same hg]

/-! ## The command -/

theorem Harmless.unchanged (h : Reaches t u old new) (v : Violated t u new pre x post)
    (hs : ∀ y ∈ t.inds, y.Shaped) (hh : Harmless t u old new pre x) :
    (updateSingle t u old.pk).map Prod.snd = some t := by
  obtain rfl := hh.same
  have heff : effected u x.kind = true := by
    rcases v.here with h' | h'
    · rw [hh.pk] at h'
      cases h'
    · exact h'
  have hinds : upEffectedFailableIndexes u new new t.inds = some (false, t.inds) := by
    rw [v.inds]
    refine (upEffected_rejected v.rejects heff (fun y hy => ?_) (fun y hy he => ?_)).2
      ⟨hh.before, hh.here⟩
    · exact hs y (by rw [v.inds]; exact List.mem_append_left _ hy)
    · exact v.before y hy (.inr he)
  rw [h.run]
  unfold runUpdate
  rw [hh.pk, hinds, replace_same h.found hh.packed]
  rfl

theorem Violated.harmless (h : Reaches t u old new) (v : Violated t u new pre x post)
    (hs : ∀ y ∈ t.inds, y.Shaped) (hk : t.store.kind ≠ .uu)
    (hun : (updateSingle t u old.pk).map Prod.snd = some t) : Harmless t u old new pre x := by
  have hrun : runUpdate t u old new = some t := by
    rw [h.run] at hun
    cases hr : runUpdate t u old new with
    | none => simp [hr] at hun
    | some t' =>
        rw [hr] at hun
        exact hun
  have hget : get? t.store.ents old.pk = some old.cols := (find_plain hk _).symm.trans h.found
  have hsx : x.Shaped := hs x (by rw [v.inds]; exact List.mem_append_right _ List.mem_cons_self)
  unfold runUpdate at hrun
  cases hu : u.pk with
  | some e =>
      -- the rejecting index loses what the old row has there
      exfalso
      rw [hu, if_pos (by rfl)] at hrun
      obtain ⟨⟨b, inds₁⟩, h1, hrun⟩ := Option.bind_eq_some_iff.1 hrun
      obtain ⟨inds₂, h2, hrun⟩ := Option.bind_eq_some_iff.1 hrun
      obtain ⟨s, h3, hrun⟩ := Option.bind_eq_some_iff.1 hrun
      have ht := Option.some.inj hrun
      have hinds : inds₂ = t.inds := congrArg Tab.inds ht
      have hstore : s.add new.pk new.cols = t.store := congrArg Tab.store ht
      have hdel : s = { t.store with ents := Assoc.del old.pk t.store.ents } := by
        unfold Store.del at h3
        rw [key_plain hk] at h3
        simp only [hget, Option.isSome_some, if_true, Option.some.injEq] at h3
        exact h3.symm
      have hents : put new.pk new.cols (Assoc.del old.pk t.store.ents) = t.store.ents := by
        subst hdel
        unfold Store.add at hstore
        rw [key_plain hk] at hstore
        simp only [stream_plain hk] at hstore
        exact congrArg Store.ents hstore
      have hsame : (new.pk, new.cols) = (old.pk, old.cols) := by
        have hp := perm_put.symm.trans ((List.Perm.of_eq hents).trans (perm_del hget))
        exact Leaf.eq_of_perm_cons hp
      have hnew : new = old := by
        cases new
        cases old
        simp only [Prod.mk.injEq] at hsame
        rw [hsame.1, hsame.2]
      subst hnew
      rw [v.inds] at h1
      obtain ⟨pre', hlen, hat⟩ := runInsertIndexes_at v.rejects
        (fun y hy => v.before y hy (.inl (by rw [hu]; rfl))) h1
      simp only at hat
      rw [hinds, v.inds, hat] at h2
      exact Ind.rejected_del_ne hsx v.rejects (runDeleteIndexes_at hlen h2)
  | none =>
      have heff : effected u x.kind = true := by
        rcases v.here with h' | h'
        · rw [hu] at h'
          cases h'
        · exact h'
      rw [hu, if_neg (by simp)] at hrun
      obtain ⟨⟨b, inds₁⟩, h1, hrun⟩ := Option.bind_eq_some_iff.1 hrun
      obtain ⟨s, h2, hrun⟩ := Option.bind_eq_some_iff.1 hrun
      have ht := Option.some.inj hrun
      have hinds : inds₁ = t.inds := congrArg Tab.inds ht
      have hstore : s = t.store := congrArg Tab.store ht
      have hcols : new.cols = old.cols := by
        rw [replace_plain hk hget, Option.some.injEq] at h2
        have hents : Assoc.set old.pk new.cols t.store.ents = t.store.ents :=
          congrArg Store.ents (h2.trans hstore)
        have hgs : get? (Assoc.set old.pk new.cols t.store.ents) old.pk = some new.cols := by
          rw [get?_set hget, if_pos rfl]
        rw [hents, hget] at hgs
        exact (Option.some.inj hgs).symm
      have hnew : new = old := by
        have hpk := h.pk hu
        cases new
        cases old
        simp only at hpk hcols
        rw [hpk, hcols]
      subst hnew
      rw [v.inds] at h1
      have hb : b = false :=
        upEffected_false v.rejects heff (fun y hy he => v.before y hy (.inr he)) h1
      rw [hinds, v.inds, hb] at h1
      have hres := (upEffected_rejected v.rejects heff
        (fun y hy => hs y (by rw [v.inds]; exact List.mem_append_left _ hy))
        (fun y hy he => v.before y hy (.inr he))).1 h1
      refine ⟨hu, rfl, ?_, hres.1, hres.2⟩
      intro k hkey
      rw [key_plain hk] at hkey
      cases hkey
      exact stream_plain hk _ _

end AlchemyDB.Table
