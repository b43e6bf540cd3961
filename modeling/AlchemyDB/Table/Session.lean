/-
# Sessions — runs of commands against one table

A client sends INSERT, REPLACE, UPDATE of one row or of a range, and DELETE.  A
run whose commands are safe for one index keeps that index in step with the rows
of the table.
-/
import AlchemyDB.Table.Sync

namespace AlchemyDB.Table

open Assoc Index

/-! ## Commands -/

inductive Cmd where
  | insert (mode : Mode) (r : Row)
  | update (u : Sets) (pk : Aobj)
  | range (u : Sets) (sc : Scan)
  | delete (pk : Aobj)

/-- The table and the `UpdateQueue` of the client. -/
structure Sess where
  tab : Tab
  queue : Queue

def Sess.exec (s : Sess) : Cmd → Option (Bool × Sess)
  | .insert mode r => (insertCommit s.tab mode r).map fun e => (e.1, ⟨e.2, s.queue⟩)
  | .update u pk => (updateSingle s.tab u pk).map fun e => (e.1, ⟨e.2, s.queue⟩)
  | .range u sc => (updateRange s.tab u s.queue sc).map fun e => (e.1, ⟨e.2.1, e.2.2⟩)
  | .delete pk => (deleteRow s.tab pk).map fun e => (e.1, ⟨e.2, s.queue⟩)

/-- The values of the command have the types of the table. -/
def Cmd.Of (t : Tab) : Cmd → Prop
  | .insert mode r => Fit t r ∧ ∀ u, mode = .upd u → u.Of t.ty
  | .update u _ => u.Of t.ty
  | .range u _ => u.Of t.ty
  | .delete _ => True

/-- A new table with its indexes. -/
def Tab.fresh (ty : Nat → KType) (ncols : Nat) (kind : SKind) (kinds : List Kind) : Tab :=
  ⟨ty, ncols, ⟨kind, []⟩, kinds.map (Ind.new (ty 0))⟩

/-- The runs from a table on. -/
inductive Run (safe : Sess → Cmd → Prop) (t : Tab) : Sess → Prop where
  | start : Run safe t ⟨t, []⟩
  | step {s s' : Sess} {c : Cmd} {b : Bool} : Run safe t s → c.Of s.tab → safe s c →
      s.exec c = some (b, s') → Run safe t s'

/-! ## Range UPDATE -/

section Conditions

variable (u : Sets) (i : Nat)

/-- What the rows of a range UPDATE ask of an index, in the order in which they are gone through. -/
def RowsSafe : Tab → List Aobj → Prop
  | _, [] => True
  | t, pk :: pks =>
      ∀ cols, t.store.find pk = some cols → Names t pk ∧
        match planRow t u ⟨pk, cols⟩ with
        | .failed => True
        | .overwrite c =>
            (∀ x, t.inds[i]? = some x → Same t x ⟨pk, cols⟩ ⟨pk, c⟩) ∧
              ∀ s, t.store.replace pk c = some s → RowsSafe { t with store := s } pks
        | .newRow new => Keeps t.store.kind new ∧ RowsSafe t pks
        | .misread => True

/-- What the queued rows ask of an index. -/
def QueueSafe : Tab → Queue → Prop
  | _, [] => True
  | t, e :: q =>
      (∀ x, t.inds[i]? = some x → RedoSafe t u i x e.1 e.2) ∧
        ∀ t', runUpdate t u e.1 e.2 = some t' → QueueSafe t' q

/-- A range UPDATE that is refused, or that goes through different rows and, if it fails, leaves
nothing in the queue. -/
def RangeSafe (t : Tab) (sc : Scan) : Prop :=
  rangeRefused t u = true ∨
    (sc.rows.Nodup ∧ RowsSafe u i t sc.visited ∧
      (∀ t' q, updateRows u t sc.visited = some (true, t', q) → QueueSafe u i t' (sharedRows t' q)) ∧
      ∀ t' q, updateRows u t sc.visited = some (false, t', q) → sc.sorted = true → q = [])

end Conditions

/-- What a command asks of the index `i`. -/
def Safe (i : Nat) (t : Tab) (c : Cmd) : Prop :=
  ∀ x, t.inds[i]? = some x →
    match c with
    | .insert mode r => InsertCommitSafe t i x mode r
    | .update u pk => UpdateSafe t u i x pk
    | .range u sc => RangeSafe u i t sc
    | .delete pk => DeleteSafe t x pk

variable {t t' : Tab} {u : Sets} {i : Nat} {k : Kind} {pk : Aobj} {pks : List Aobj} {q : Queue}
  {b : Bool}

/-- The rows of a queue are there as they were when they were queued. -/
structure Queued (t : Tab) (q : Queue) : Prop where
  found : ∀ e ∈ q, Names t e.1.pk ∧ t.store.find e.1.pk = some e.1.cols
  fit : ∀ e ∈ q, RowOk t e.2 ∧ e.2.pk = e.1.pk
  nodup : (q.map fun e => e.1.pk).Nodup

theorem updateRows_kind : ∀ {pks : List Aobj} {t : Tab} {e : Bool × Tab × Queue},
    updateRows u t pks = some e → e.2.1.ty = t.ty ∧ e.2.1.ncols = t.ncols ∧
      e.2.1.store.kind = t.store.kind ∧ (t.store.kind ≠ .norm → e.2.1.store = t.store)
  | [], t, e, h => by
      cases h
      exact ⟨rfl, rfl, rfl, fun _ => rfl⟩
  | pk :: pks, t, e, h => by
      simp only [updateRows] at h
      cases hf : t.store.find pk with
      | none => simp [hf] at h
      | some cols =>
          simp only [hf] at h
          cases hp : planRow t u ⟨pk, cols⟩ with
          | failed =>
              simp only [hp, Option.some.injEq] at h
              rw [← h]
              exact ⟨rfl, rfl, rfl, fun _ => rfl⟩
          | overwrite c =>
              have hnorm := planRow_overwrite hp
              have hk : t.store.kind ≠ .uu := by rw [hnorm]; simp
              have hget := (find_plain hk pk).symm.trans hf
              simp only [hp, replace_plain hk hget] at h
              obtain ⟨h1, h2, h3, _⟩ := updateRows_kind h
              exact ⟨h1, h2, h3, fun hn => absurd hnorm hn⟩
          | newRow new =>
              simp only [hp] at h
              obtain ⟨_, h⟩ := Option.ite_none_left_eq_some.1 h
              obtain ⟨e', he, rfl⟩ := Option.map_eq_some_iff.1 h
              have ih := updateRows_kind he
              exact ih
          | misread => simp [hp] at h

/-- The rows that are not gone through are found as before. -/
theorem updateRows_find {e : Bool × Tab × Queue} (h : updateRows u t pks = some e) (hn : pk ∉ pks) :
    e.2.1.store.find pk = t.store.find pk := by
  obtain ⟨_, _, hk, hs⟩ := updateRows_kind h
  by_cases hnorm : t.store.kind = .norm
  · have h1 : t.store.kind ≠ .uu := by rw [hnorm]; simp
    rw [find_plain h1, find_plain (by rw [hk]; exact h1), updateRows_frame h hn]
  · rw [hs hnorm]

/-- The loop over the rows of a range. -/
theorem updateRows_steady (hu : u.pk = none) : ∀ {pks : List Aobj} {t : Tab} {e : Bool × Tab × Queue},
    u.Of t.ty → Steady t i k → RowsSafe u i t pks → pks.Nodup → updateRows u t pks = some e →
      Steady e.2.1 i k ∧ Queued e.2.1 e.2.2 ∧ ∀ p ∈ e.2.2, p.1.pk ∈ pks
  | [], t, e, _, hst, _, _, h => by
      cases h
      exact ⟨hst, ⟨fun e he => absurd he List.not_mem_nil, fun e he => absurd he List.not_mem_nil,
        List.nodup_nil⟩, fun p hp => absurd hp List.not_mem_nil⟩
  | pk :: pks, t, e, ho, hst, hsafe, hnd, h => by
      obtain ⟨hn, hnd⟩ := List.nodup_cons.1 hnd
      simp only [updateRows] at h
      cases hf : t.store.find pk with
      | none => simp [hf] at h
      | some cols =>
          obtain ⟨hname, hsafe⟩ := hsafe cols hf
          have hold := hst.rowed.found hname hf
          simp only [hf] at h
          cases hp : planRow t u ⟨pk, cols⟩ with
          | failed =>
              simp only [hp, Option.some.injEq] at h
              rw [← h]
              exact ⟨hst, ⟨fun e he => absurd he List.not_mem_nil,
                fun e he => absurd he List.not_mem_nil, List.nodup_nil⟩,
                fun p hp => absurd hp List.not_mem_nil⟩
          | overwrite c =>
              simp only [hp] at h hsafe
              cases hr : t.store.replace pk c with
              | none => simp [hr] at h
              | some s =>
                  rw [hr] at h
                  obtain ⟨x, hx, _, _⟩ := hst.index
                  have hst' := overwrite_steady hst hx ho hf hold hp (hsafe.1 x hx) hr
                  have ho' : u.Of ({ t with store := s } : Tab).ty := ho
                  obtain ⟨h1, h2, h3⟩ := updateRows_steady hu ho' hst' (hsafe.2 s hr) hnd h
                  exact ⟨h1, h2, fun p hp => List.mem_cons_of_mem _ (h3 p hp)⟩
          | newRow new =>
              simp only [hp] at h hsafe
              obtain ⟨_, h⟩ := Option.ite_none_left_eq_some.1 h
              obtain ⟨e', he, rfl⟩ := Option.map_eq_some_iff.1 h
              obtain ⟨h1, h2, h3⟩ := updateRows_steady hu ho hst hsafe.2 hnd he
              obtain ⟨hty, hnc, hk, _⟩ := updateRows_kind he
              obtain ⟨hfit, hw⟩ := newRow_fit hst.rowed.packed ho hold.toFit hp
              have hnew : RowOk t new := ⟨hfit, hw, hsafe.1⟩
              refine ⟨h1, ⟨?_, ?_, ?_⟩, ?_⟩
              · intro p hp'
                rcases List.mem_cons.1 hp' with rfl | hp'
                · refine ⟨?_, (updateRows_find he hn).trans hf⟩
                  show Store.key e'.2.1.store.kind pk = some pk
                  rw [hk]
                  exact hname
                · exact h2.found p hp'
              · intro p hp'
                rcases List.mem_cons.1 hp' with rfl | hp'
                · exact ⟨hnew.congr hty hnc hk, newRow_pk hp hu⟩
                · exact h2.fit p hp'
              · rw [List.map_cons, List.nodup_cons]
                refine ⟨fun hmem => ?_, h2.nodup⟩
                obtain ⟨p, hp', hpk⟩ := List.mem_map.1 hmem
                have hin := h3 p hp'
                rw [show p.1.pk = pk from hpk] at hin
                exact hn hin
              · intro p hp'
                rcases List.mem_cons.1 hp' with rfl | hp'
                · exact List.mem_cons_self
                · exact List.mem_cons_of_mem _ (h3 p hp')
          | misread => simp [hp] at h

theorem runUpdate_store {old new : Row} (hu : u.pk = none) (h : runUpdate t u old new = some t') :
    t'.ty = t.ty ∧ t'.ncols = t.ncols ∧ t.store.replace old.pk new.cols = some t'.store := by
  unfold runUpdate at h
  rw [hu, if_neg (by simp)] at h
  obtain ⟨e, _, h⟩ := Option.bind_eq_some_iff.1 h
  obtain ⟨s, hs, h⟩ := Option.bind_eq_some_iff.1 h
  cases h
  exact ⟨rfl, rfl, hs⟩

/-- The other rows are found as before. -/
theorem replace_find {s s' : Store} {new : Row} {cols : Cols} (hk : Keeps s.kind new)
    (hf : s.find new.pk = some cols) (h : s.replace new.pk new.cols = some s')
    (hn : Store.key s.kind pk = some pk) (hne : pk ≠ new.pk) :
    s'.kind = s.kind ∧ s'.find pk = s.find pk := by
  have hg := find_get hk.1 hf
  unfold Store.replace at h
  rw [hk.1, hk.2.1] at h
  simp only [hg, if_true, Option.some.injEq] at h
  subst h
  refine ⟨rfl, ?_⟩
  unfold Store.find
  simp only [hn, get?_set hg, if_neg hne]

/-- The run over the queue. -/
theorem runUpdateQueue_steady (hu : u.pk = none) : ∀ {q : Queue} {t t' : Tab}, Steady t i k →
    Queued t q → QueueSafe u i t q → runUpdateQueue u t q = some t' → Steady t' i k
  | [], t, t', hst, _, _, h => by
      cases h
      exact hst
  | e :: q, t, t', hst, hq, hsafe, h => by
      obtain ⟨old, new⟩ := e
      simp only [runUpdateQueue] at h
      cases hr : runUpdate t u old new with
      | none => simp [hr] at h
      | some t₁ =>
          rw [hr] at h
          obtain ⟨x, hx, _, _⟩ := hst.index
          obtain ⟨hname, hf⟩ := hq.found _ List.mem_cons_self
          obtain ⟨hnew, hpk⟩ := hq.fit _ List.mem_cons_self
          have hst' := runUpdate_redo hst hx hu hf hnew hpk (hsafe.1 x hx) hr
          obtain ⟨hty, hnc, hrep⟩ := runUpdate_store hu hr
          have hnd := hq.nodup
          rw [List.map_cons, List.nodup_cons] at hnd
          simp only at hpk hf
          rw [← hpk] at hf hrep
          have hframe : ∀ p ∈ q, t₁.store.kind = t.store.kind ∧
              t₁.store.find p.1.pk = t.store.find p.1.pk := by
            intro p hp
            refine replace_find hnew.keeps hf hrep (hq.found p (List.mem_cons_of_mem _ hp)).1 ?_
            intro heq
            rw [hpk] at heq
            exact hnd.1 (List.mem_map.2 ⟨p, hp, heq⟩)
          refine runUpdateQueue_steady hu hst' ⟨?_, ?_, hnd.2⟩ (hsafe.2 t₁ hr) h
          · intro p hp
            obtain ⟨h1, h2⟩ := hq.found p (List.mem_cons_of_mem _ hp)
            obtain ⟨h3, h4⟩ := hframe p hp
            refine ⟨?_, h4.trans h2⟩
            unfold Names
            rw [h3]
            exact h1
          · intro p hp
            obtain ⟨h1, h2⟩ := hq.fit p (List.mem_cons_of_mem _ hp)
            exact ⟨h1.congr hty hnc (hframe p hp).1, h2⟩

theorem Queued.shared (h : Queued t q) : Queued t (sharedRows t q) := by
  unfold sharedRows
  split
  · rename_i last hlast
    split
    · rename_i hk
      have hl := (h.fit last (List.mem_of_getLast? hlast)).1
      refine ⟨?_, ?_, ?_⟩
      · intro e he
        obtain ⟨p, hp, rfl⟩ := List.mem_map.1 he
        exact h.found p hp
      · intro e he
        obtain ⟨p, hp, rfl⟩ := List.mem_map.1 he
        obtain ⟨h1, h2⟩ := h.fit p hp
        refine ⟨⟨⟨?_, hl.full⟩, ?_, keeps_plain (by rw [hk.1]; simp) _⟩, h2⟩
        · intro j v hv
          cases j with
          | zero =>
              cases hv
              exact h1.typed.pk
          | succ j => exact hl.typed (j + 1) v hv
        · have hw := congrArg Row.cols hl.written
          show (⟨p.2.pk, t.asStored last.2.cols⟩ : Row) = _
          rw [show t.asStored last.2.cols = last.2.cols from hw]
      · rw [List.map_map]
        exact h.nodup
    · exact h
  · exact h

theorem updateRange_steady {sc : Scan} {e : Bool × Tab × Queue} (ho : u.Of t.ty) (hst : Steady t i k)
    (hsafe : RangeSafe u i t sc) (h : updateRange t u [] sc = some e) :
    Steady e.2.1 i k ∧ e.2.2 = [] := by
  unfold updateRange at h
  cases hr : rangeRefused t u with
  | true =>
      rw [hr, if_pos rfl] at h
      cases h
      exact ⟨hst, rfl⟩
  | false =>
      obtain ⟨hnd, hrows, hqueue, hleft⟩ := hsafe.resolve_left (by rw [hr]; simp)
      have hu : u.pk = none := by
        have := (Bool.or_eq_false_iff.1 hr).1
        simpa using this
      rw [hr] at h
      simp only [Bool.false_eq_true, if_false] at h
      split at h
      · cases h
        exact ⟨hst, rfl⟩
      · have hnd' : sc.visited.Nodup := by
          unfold Scan.visited
          split
          · split
            · exact hnd.sublist (List.drop_sublist _ _)
            · exact hnd.sublist ((List.take_sublist _ _).trans (List.drop_sublist _ _))
          · exact hnd
        split at h
        · cases h
        · rename_i t₁ q₁ hrun
          obtain ⟨h1, h2, _⟩ := updateRows_steady hu ho hst hrows hnd' hrun
          obtain ⟨t₂, ht, rfl⟩ := Option.map_eq_some_iff.1 h
          exact ⟨runUpdateQueue_steady hu h1 h2.shared (hqueue t₁ q₁ hrun) ht, rfl⟩
        · rename_i t₁ q₁ hrun
          obtain ⟨h1, _, _⟩ := updateRows_steady hu ho hst hrows hnd' hrun
          cases h
          refine ⟨h1, ?_⟩
          show (if sc.sorted = true then [] ++ q₁ else []) = []
          split
          · rename_i hs
            rw [hleft t₁ q₁ hrun hs]
            rfl
          · rfl

/-! ## Runs -/

theorem exec_steady {s s' : Sess} {c : Cmd} (hst : Steady s.tab i k) (hq : s.queue = [])
    (ho : c.Of s.tab) (hsafe : Safe i s.tab c) (h : s.exec c = some (b, s')) :
    Steady s'.tab i k ∧ s'.queue = [] := by
  obtain ⟨x, hx, _, _⟩ := hst.index
  have hsafe := hsafe x hx
  cases c with
  | insert mode r =>
      obtain ⟨⟨b', t'⟩, hrun, he⟩ := Option.map_eq_some_iff.1 h
      cases he
      exact ⟨insertCommit_steady hst hx ho.1 ho.2 hsafe hrun, hq⟩
  | update u pk =>
      obtain ⟨⟨b', t'⟩, hrun, he⟩ := Option.map_eq_some_iff.1 h
      cases he
      exact ⟨updateSingle_steady hst hx ho hsafe hrun, hq⟩
  | range u sc =>
      obtain ⟨e, hrun, he⟩ := Option.map_eq_some_iff.1 h
      cases he
      rw [hq] at hrun
      exact updateRange_steady ho hst hsafe hrun
  | delete pk =>
      obtain ⟨⟨b', t'⟩, hrun, he⟩ := Option.map_eq_some_iff.1 h
      cases he
      exact ⟨deleteRow_steady hst hx hsafe hrun, hq⟩

theorem fresh_steady {ty : Nat → KType} {ncols : Nat} {kind : SKind} {kinds : List Kind}
    (hp : kind ≠ .norm → ncols = 1) (hk : kinds[i]? = some k) (hm : k.multi = true → k.depth ≠ 0) :
    Steady (Tab.fresh ty ncols kind kinds) i k := by
  refine ⟨⟨hp, fun r hr => absurd hr List.not_mem_nil, List.nodup_nil⟩,
    fun r hr => absurd hr List.not_mem_nil, Ind.new (ty 0) k, ?_, rfl, Synced.new k hm⟩
  show (kinds.map (Ind.new (ty 0)))[i]? = _
  rw [List.getElem?_map, hk]
  rfl

/-- In a run whose commands are safe the index is in step with the rows. -/
theorem run_steady {safe : Sess → Cmd → Prop} (hsafe : ∀ s c, safe s c → Safe i s.tab c)
    (hst : Steady t i k) {s : Sess} (run : Run safe t s) : Steady s.tab i k ∧ s.queue = [] := by
  induction run with
  | start => exact ⟨hst, rfl⟩
  | step _ ho hs h ih => exact exec_steady ih.1 ih.2 ho (hsafe _ _ hs) h

end AlchemyDB.Table
