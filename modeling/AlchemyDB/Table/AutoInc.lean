/-
# Automatic primary keys

An INSERT without a primary key takes the next number of the table's counter
`ainc`, which the parser advances before anything can fail.  An INSERT and an
UPDATE that store a row under a key above the counter raise it
(`UPDATE_AUTO_INC`).  So the counter is above every key that was ever stored, as
far as a row is stored under the key that was given: a packed tree (`UU`) may read
a greater one.
-/
import AlchemyDB.Table.Session

namespace AlchemyDB.Table

open Assoc Index

/-! ## The counter -/

/-- A primary key as a number. -/
def num : Aobj → Nat
  | .int i => i
  | .long l => l
  | .u128 x => x
  | .text _ => 0

/-- `UPDATE_AUTO_INC`. -/
def updateAutoInc (pk : Aobj) (ainc : Nat) : Nat := if num pk > ainc then num pk else ainc

/-- `rt->ainc++`, for a primary key that is a number. -/
def advance (ty : KType) (ainc : Nat) : Nat :=
  if ty = .text then ainc else (ainc + 1) % 340282366920938463463374607431768211456

/-- The key that `insertCommit` reads in the text of `assign_auto_inc_pk`; an INT above 32 bits is
an error. -/
def assignAutoIncPk (ty : KType) (ainc : Nat) : Option Aobj :=
  match ty with
  | .int =>
      if ainc % 18446744073709551616 < 4294967296 then
        some (.int (ainc % 18446744073709551616))
      else none
  | .long => some (.long (ainc % 18446744073709551616))
  | .u128 => some (.u128 ainc)
  | .text => none

/-- The counter is printed as a LONG, unless the key is a U128. -/
def counterLimit : KType → Nat
  | .u128 => 340282366920938463463374607431768211456
  | _ => 18446744073709551616

/-! ## Commands -/

/-- The commands of a client.  A key that is not given is assigned; `bad` is an INSERT that is
refused while its values are parsed. -/
inductive AiCmd where
  | insert (mode : Mode) (pk : Option Aobj) (cols : Cols)
  | bad (auto : Bool)
  | update (u : Sets) (pk : Aobj)
  | range (u : Sets) (sc : Scan)
  | delete (pk : Aobj)

/-- A client and its table, with the keys that were ever stored there, and those that were assigned
with what had been stored before them. -/
structure AiSess where
  sess : Sess
  ainc : Nat
  ever : List Nat
  autos : List (Nat × List Nat)

namespace AiSess

def ty (s : AiSess) : KType := s.sess.tab.ty 0

end AiSess

/-- The primary keys of the table. -/
def keys (t : Tab) : List Aobj := t.store.ents.map Prod.fst

/-- The row that an UPDATE stores under a new primary key. -/
def movedTo (t : Tab) (u : Sets) (pk : Aobj) : Option Row :=
  if u.pk.any (fun e => (t.store.find e.checked).isSome) then none
  else
    match t.store.find pk with
    | none => none
    | some cols =>
        match planRow t u ⟨pk, cols⟩ with
        | .newRow new => if u.pk.isSome then some new else none
        | _ => none

/-- The row that an INSERT stores, if it goes through. -/
def storedBy (t : Tab) (mode : Mode) (r : Row) : Option Row :=
  match mode, t.store.find r.pk with
  | .upd u, some _ => movedTo t u r.pk
  | _, _ => some (t.asRow r)

/-- The counter after a row was stored. -/
def raised (stored : Option Row) (ainc : Nat) : Nat :=
  match stored with
  | some r => updateAutoInc r.pk ainc
  | none => ainc

namespace AiSess

/-- The state after a command, with the keys of its table noted down. -/
def note (s : AiSess) (sess : Sess) (ainc : Nat) : AiSess :=
  ⟨sess, ainc, s.ever ++ (keys sess.tab).map num, s.autos⟩

/-- The INSERT of a row under the key `k`. -/
def insertKey (s : AiSess) (mode : Mode) (k : Aobj) (cols : Cols) : Option AiSess :=
  (insertCommit s.sess.tab mode ⟨k, cols⟩).map fun e =>
    s.note ⟨e.2, s.sess.queue⟩
      (if e.1 then raised (storedBy s.sess.tab mode ⟨k, cols⟩) s.ainc else s.ainc)

/-- The counter is advanced and its key is noted down. -/
def assign (s : AiSess) : AiSess :=
  { s with
    ainc := advance s.ty s.ainc
    autos := match assignAutoIncPk s.ty (advance s.ty s.ainc) with
      | some k => s.autos ++ [(num k, s.ever)]
      | none => s.autos }

def exec (s : AiSess) : AiCmd → Option AiSess
  | .insert mode (some k) cols => s.insertKey mode k cols
  | .insert mode none cols =>
      match assignAutoIncPk s.ty (advance s.ty s.ainc) with
      | some k => s.assign.insertKey mode k cols
      | none => some s.assign
  | .bad auto => some (if auto then s.assign else s)
  | .update u pk =>
      (updateSingle s.sess.tab u pk).map fun e =>
        s.note ⟨e.2, s.sess.queue⟩ (if e.1 then raised (movedTo s.sess.tab u pk) s.ainc else s.ainc)
  | .range u sc =>
      (updateRange s.sess.tab u s.sess.queue sc).map fun e => s.note ⟨e.2.1, e.2.2⟩ s.ainc
  | .delete pk => (deleteRow s.sess.tab pk).map fun e => s.note ⟨e.2, s.sess.queue⟩ s.ainc

/-- A table that has just been created. -/
def fresh (t : Tab) : AiSess := ⟨⟨t, []⟩, 0, [], []⟩

end AiSess

/-! ## Conditions -/

/-- The row is not read under a greater key than its own. -/
def Packs (t : Tab) (r : Row) : Prop := num (Store.stream t.store.kind r.pk r.cols).1 ≤ num r.pk

instance (t : Tab) (r : Row) : Decidable (Packs t r) := inferInstanceAs (Decidable (_ ≤ _))

/-- The rows a command stores are read under their keys, and the counter has not run out. -/
def AiSafe (s : AiSess) : AiCmd → Prop
  | .insert mode (some k) cols =>
      ∀ r, storedBy s.sess.tab mode ⟨k, cols⟩ = some r → Packs s.sess.tab r
  | .insert mode none cols =>
      s.ainc + 1 < counterLimit s.ty ∧
        ∀ k, assignAutoIncPk s.ty (advance s.ty s.ainc) = some k →
          ∀ r, storedBy s.sess.tab mode ⟨k, cols⟩ = some r → Packs s.sess.tab r
  | .bad auto => auto = true → s.ainc + 1 < counterLimit s.ty
  | .update u pk => ∀ r, movedTo s.sess.tab u pk = some r → Packs s.sess.tab r
  | .range _ _ | .delete _ => True

/-- The runs from a table on. -/
inductive AiRun (safe : AiSess → AiCmd → Prop) (t : Tab) : AiSess → Prop where
  | start : AiRun safe t (.fresh t)
  | step {s s' : AiSess} {c : AiCmd} : AiRun safe t s → safe s c → s.exec c = some s' →
      AiRun safe t s'

/-! ## The keys of the table -/

variable {t t' : Tab} {u : Sets} {s s' : AiSess} {r old new : Row} {pk : Aobj} {b : Bool}

/-- The keys are the old ones, and that of the row that was stored. -/
def KeysFrom (t t' : Tab) (r : Option Row) : Prop :=
  t'.store.kind = t.store.kind ∧ ∀ a ∈ keys t', a ∈ keys t ∨
    ∃ x, r = some x ∧ a = (Store.stream t.store.kind x.pk x.cols).1

theorem KeysFrom.refl (r : Option Row) : KeysFrom t t r := ⟨rfl, fun _ ha => .inl ha⟩

theorem KeysFrom.of_none {o : Option Row} (h : KeysFrom t t' none) : KeysFrom t t' o := by
  refine ⟨h.1, fun a ha => ?_⟩
  rcases h.2 a ha with h' | ⟨x, hx, _⟩
  · exact .inl h'
  · cases hx

theorem KeysFrom.trans {t'' : Tab} (h : KeysFrom t t' none) (h' : KeysFrom t' t'' none) :
    KeysFrom t t'' none := by
  refine ⟨h'.1.trans h.1, fun a ha => ?_⟩
  rcases h'.2 a ha with ha' | ⟨x, hx, _⟩
  · exact h.2 a ha'
  · cases hx

theorem store_add {st : Store} {c : Cols} :
    (st.add pk c).kind = st.kind ∧ ∀ e ∈ (st.add pk c).ents, e ∈ st.ents ∨
      e = Store.stream st.kind pk c := by
  unfold Store.add
  cases Store.key st.kind pk with
  | none => exact ⟨rfl, fun e he => .inl he⟩
  | some k =>
      refine ⟨rfl, fun e he => ?_⟩
      rcases List.mem_cons.1 (perm_put.subset he) with rfl | he
      · exact .inr rfl
      · exact .inl he

theorem store_del {st st' : Store} (h : st.del pk = some st') :
    st'.kind = st.kind ∧ ∀ e ∈ st'.ents, e ∈ st.ents := by
  unfold Store.del at h
  cases hk : Store.key st.kind pk with
  | none =>
      simp only [hk, Option.some.injEq] at h
      rw [← h]
      exact ⟨rfl, fun _ he => he⟩
  | some k =>
      simp only [hk] at h
      split at h
      · cases h
        exact ⟨rfl, fun _ he => mem_of_mem_del he⟩
      · cases h

/-- A row is replaced in its place. -/
theorem store_replace {st st' : Store} {c : Cols} (h : st.replace pk c = some st') :
    st'.kind = st.kind ∧ ∀ e ∈ st'.ents, e.1 ∈ st.ents.map Prod.fst := by
  have keep : ∀ e ∈ st.ents, e.1 ∈ st.ents.map Prod.fst := fun e he => List.mem_map_of_mem he
  unfold Store.replace at h
  cases hk : Store.key st.kind pk with
  | none =>
      simp only [hk, Option.some.injEq] at h
      rw [← h]
      exact ⟨rfl, keep⟩
  | some k =>
      simp only [hk] at h
      cases hg : get? st.ents k with
      | none =>
          simp only [hg] at h
          split at h
          · cases h
          · cases h
            exact ⟨rfl, keep⟩
      | some old =>
          simp only [hg] at h
          split at h
          · cases h
            refine ⟨rfl, fun e he => ?_⟩
            rcases List.mem_cons.1 ((perm_set hg).subset he) with rfl | he
            · exact List.mem_map.2 ⟨_, mem_of_get? hg, rfl⟩
            · exact keep e (mem_of_mem_del he)
          · cases h

theorem insertRow_keys {repl : Bool} (h : insertRow t repl r = some (b, t')) :
    KeysFrom t t' (if b then some r else none) := by
  unfold insertRow at h
  obtain ⟨⟨ok, inds⟩, _, h⟩ := Option.bind_eq_some_iff.1 h
  cases ok with
  | false =>
      simp only [Bool.false_eq_true, if_false, Option.some.injEq, Prod.mk.injEq] at h
      obtain ⟨rfl, rfl⟩ := h
      exact ⟨rfl, fun _ ha => .inl ha⟩
  | true =>
      simp only [if_true] at h
      obtain ⟨inds', _, h⟩ := Option.bind_eq_some_iff.1 h
      cases repl with
      | true =>
          obtain ⟨st, hst, h⟩ := Option.bind_eq_some_iff.1 h
          cases h
          obtain ⟨hk, hs⟩ := store_replace hst
          refine ⟨hk, fun a ha => .inl ?_⟩
          obtain ⟨e, he, rfl⟩ := List.mem_map.1 ha
          exact hs e he
      | false =>
          cases h
          obtain ⟨hk, hs⟩ := @store_add r.pk t.store r.cols
          refine ⟨hk, fun a ha => ?_⟩
          obtain ⟨e, he, rfl⟩ := List.mem_map.1 ha
          rcases hs e he with he | rfl
          · exact .inl (List.mem_map_of_mem he)
          · exact .inr ⟨r, rfl, rfl⟩

theorem insertNew_keys {repl : Bool} (h : insertNew t repl r = some (b, t')) :
    KeysFrom t t' (if b then some r else none) := by
  unfold insertNew at h
  split at h
  · cases h
    exact .refl _
  · exact insertRow_keys h

theorem runUpdate_keys (h : runUpdate t u old new = some t') :
    KeysFrom t t' (if u.pk.isSome then some new else none) := by
  unfold runUpdate at h
  split at h
  · rename_i hu
    rw [if_pos hu]
    obtain ⟨⟨_, inds⟩, _, h⟩ := Option.bind_eq_some_iff.1 h
    obtain ⟨inds', _, h⟩ := Option.bind_eq_some_iff.1 h
    obtain ⟨st, hst, h⟩ := Option.bind_eq_some_iff.1 h
    cases h
    obtain ⟨hk, hs⟩ := store_del hst
    obtain ⟨hk', hs'⟩ := @store_add new.pk st new.cols
    refine ⟨hk'.trans hk, fun a ha => ?_⟩
    obtain ⟨e, he, rfl⟩ := List.mem_map.1 ha
    rcases hs' e he with he | rfl
    · exact .inl (List.mem_map_of_mem (hs e he))
    · exact .inr ⟨new, rfl, by rw [hk]⟩
  · rename_i hu
    rw [if_neg hu]
    obtain ⟨⟨_, inds⟩, _, h⟩ := Option.bind_eq_some_iff.1 h
    obtain ⟨st, hst, h⟩ := Option.bind_eq_some_iff.1 h
    cases h
    obtain ⟨hk, hs⟩ := store_replace hst
    refine ⟨hk, fun a ha => .inl ?_⟩
    obtain ⟨e, he, rfl⟩ := List.mem_map.1 ha
    exact hs e he

theorem overwrite_keys {c : Cols} {st : Store} (h : t.store.replace pk c = some st) :
    KeysFrom t { t with store := st } none := by
  obtain ⟨hk, hs⟩ := store_replace h
  refine ⟨hk, fun a ha => .inl ?_⟩
  obtain ⟨e, he, rfl⟩ := List.mem_map.1 ha
  exact hs e he

theorem updateSingle_keys (h : updateSingle t u pk = some (b, t')) :
    KeysFrom t t' (if b then movedTo t u pk else none) := by
  unfold updateSingle at h
  unfold movedTo
  split at h
  · cases h
    exact .refl _
  · rename_i hc
    rw [if_neg hc]
    cases hf : t.store.find pk with
    | none =>
        simp only [hf] at h
        cases h
        exact .refl _
    | some cols =>
        simp only [hf] at h ⊢
        cases hp : planRow t u ⟨pk, cols⟩ with
        | failed =>
            simp only [hp] at h
            cases h
            exact .refl _
        | overwrite c =>
            simp only [hp] at h
            obtain ⟨st, hst, he⟩ := Option.map_eq_some_iff.1 h
            cases he
            exact (overwrite_keys hst).of_none
        | newRow new =>
            simp only [hp] at h
            obtain ⟨t₁, hrun, he⟩ := Option.map_eq_some_iff.1 h
            cases he
            exact runUpdate_keys hrun
        | misread => simp [hp] at h

theorem insertCommit_keys {mode : Mode} (h : insertCommit t mode r = some (b, t')) :
    KeysFrom t t' (if b then storedBy t mode r else none) := by
  unfold insertCommit at h
  unfold storedBy
  cases hf : t.store.find r.pk with
  | none =>
      cases mode <;>
        · simp only [hf] at h
          exact insertNew_keys h
  | some cols =>
      cases mode with
      | insert =>
          simp only [hf] at h
          cases h
          exact .refl _
      | repl => exact insertNew_keys h
      | upd u =>
          simp only [hf] at h
          exact updateSingle_keys h

theorem deleteRow_keys (h : deleteRow t pk = some (b, t')) : KeysFrom t t' none := by
  unfold deleteRow at h
  cases hf : t.store.find pk with
  | none =>
      simp only [hf] at h
      cases h
      exact .refl _
  | some cols =>
      simp only [hf] at h
      obtain ⟨inds, _, h⟩ := Option.bind_eq_some_iff.1 h
      obtain ⟨st, hst, h⟩ := Option.bind_eq_some_iff.1 h
      cases h
      obtain ⟨hk, hs⟩ := store_del hst
      refine ⟨hk, fun a ha => .inl ?_⟩
      obtain ⟨e, he, rfl⟩ := List.mem_map.1 ha
      exact List.mem_map_of_mem (hs e he)

theorem updateRows_keys : ∀ {pks : List Aobj} {t : Tab} {e : Bool × Tab × Queue},
    updateRows u t pks = some e → KeysFrom t e.2.1 none
  | [], t, e, h => by
      cases h
      exact .refl _
  | pk :: pks, t, e, h => by
      simp only [updateRows] at h
      cases hf : t.store.find pk with
      | none => simp [hf] at h
      | some cols =>
          simp only [hf] at h
          cases hp : planRow t u ⟨pk, cols⟩ with
          | failed =>
              simp only [hp, Option.some.injEq] at h
              rw [← h]
              exact .refl _
          | overwrite c =>
              simp only [hp] at h
              cases hr : t.store.replace pk c with
              | none => simp [hr] at h
              | some st =>
                  rw [hr] at h
                  exact (overwrite_keys hr).trans (updateRows_keys h)
          | newRow new =>
              simp only [hp] at h
              obtain ⟨_, h⟩ := Option.ite_none_left_eq_some.1 h
              obtain ⟨e', he, rfl⟩ := Option.map_eq_some_iff.1 h
              have ih := updateRows_keys he
              exact ih
          | misread => simp [hp] at h

theorem runUpdateQueue_keys (hu : u.pk = none) : ∀ {q : Queue} {t : Tab},
    runUpdateQueue u t q = some t' → KeysFrom t t' none
  | [], t, h => by
      cases h
      exact .refl _
  | e :: q, t, h => by
      simp only [runUpdateQueue] at h
      cases hr : runUpdate t u e.1 e.2 with
      | none => simp [hr] at h
      | some t₁ =>
          simp only [hr] at h
          have hk := runUpdate_keys hr
          rw [hu] at hk
          exact hk.trans (runUpdateQueue_keys hu h)

/-- A range UPDATE does not set the primary key. -/
theorem updateRange_keys {q : Queue} {sc : Scan} {e : Bool × Tab × Queue}
    (h : updateRange t u q sc = some e) : KeysFrom t e.2.1 none := by
  unfold updateRange at h
  split at h
  · cases h
    exact .refl _
  · rename_i hr
    have hu : u.pk = none := by
      unfold rangeRefused at hr
      simp only [Bool.or_eq_true, not_or] at hr
      simpa using hr.1
    split at h
    · cases h
      exact .refl _
    · split at h
      · cases h
      · rename_i t₁ q' hrows
        split at h
        · obtain ⟨t₂, hq, he⟩ := Option.map_eq_some_iff.1 h
          cases he
          exact (updateRows_keys hrows).trans (runUpdateQueue_keys hu hq)
        · cases h
      · rename_i t₁ q' hrows
        cases h
        have hk := updateRows_keys hrows
        exact hk

/-! ## The counter is above the keys -/

/-- The counter is at least every key of the table, every key that was ever stored and every key
that was assigned; the assigned ones grow, and are above what was stored before. -/
structure Fresh (s : AiSess) : Prop where
  here : ∀ a ∈ keys s.sess.tab, num a ≤ s.ainc
  ever : ∀ n ∈ s.ever, n ≤ s.ainc
  autos : ∀ e ∈ s.autos, e.1 ≤ s.ainc
  above : ∀ e ∈ s.autos, ∀ n ∈ e.2, n < e.1
  rising : (s.autos.map Prod.fst).Pairwise (· < ·)

theorem le_raised {o : Option Row} {n : Nat} : n ≤ raised o n := by
  cases o with
  | none => exact Nat.le_refl n
  | some r =>
      unfold raised updateAutoInc
      dsimp only
      split
      · omega
      · exact Nat.le_refl n

theorem num_le_raised {n : Nat} : num r.pk ≤ raised (some r) n := by
  unfold raised updateAutoInc
  dsimp only
  split
  · exact Nat.le_refl _
  · omega

/-- A command that stores a row at most, read under a key that is not above its own. -/
theorem Fresh.note {o : Option Row} {q : Queue} (h : Fresh s) (hk : KeysFrom s.sess.tab t' o)
    (hp : ∀ r, o = some r → Packs s.sess.tab r) :
    Fresh (s.note ⟨t', q⟩ (raised o s.ainc)) := by
  have hle : s.ainc ≤ raised o s.ainc := le_raised
  have hkeys : ∀ a ∈ keys t', num a ≤ raised o s.ainc := by
    intro a ha
    rcases hk.2 a ha with ha | ⟨r, rfl, rfl⟩
    · exact Nat.le_trans (h.here a ha) hle
    · exact Nat.le_trans (hp r rfl) num_le_raised
  refine ⟨hkeys, ?_, fun e he => Nat.le_trans (h.autos e he) hle, h.above, h.rising⟩
  intro n hn
  rcases List.mem_append.1 hn with hn | hn
  · exact Nat.le_trans (h.ever n hn) hle
  · obtain ⟨a, ha, rfl⟩ := List.mem_map.1 hn
    exact hkeys a ha

theorem advance_eq {ty : KType} {n : Nat} (hn : n + 1 < counterLimit ty) (ht : ty ≠ .text) :
    advance ty n = n + 1 := by
  rw [advance, if_neg ht]
  refine Nat.mod_eq_of_lt ?_
  cases ty <;> simp only [counterLimit] at hn <;> omega

/-- The key that is assigned is the counter. -/
theorem num_assigned {ty : KType} {n : Nat} {k : Aobj} (hn : n < counterLimit ty)
    (h : assignAutoIncPk ty n = some k) : num k = n := by
  cases ty with
  | int =>
      unfold assignAutoIncPk at h
      dsimp only at h
      split at h
      · cases h
        exact Nat.mod_eq_of_lt hn
      · cases h
  | long =>
      cases h
      exact Nat.mod_eq_of_lt hn
  | u128 =>
      cases h
      rfl
  | text => cases h

theorem Fresh.assign (h : Fresh s) (hn : s.ainc + 1 < counterLimit s.ty) : Fresh s.assign := by
  by_cases ht : s.ty = .text
  · have ha : s.assign = s := by
      unfold AiSess.assign
      rw [ht]
      rfl
    rw [ha]
    exact h
  · have hadv := advance_eq hn ht
    have hle : s.ainc ≤ s.assign.ainc := by
      show s.ainc ≤ advance s.ty s.ainc
      omega
    have hainc : s.assign.ainc = s.ainc + 1 := hadv
    have hhere : ∀ a ∈ keys s.assign.sess.tab, num a ≤ s.assign.ainc :=
      fun a ha => Nat.le_trans (h.here a ha) hle
    have hever : ∀ n ∈ s.assign.ever, n ≤ s.assign.ainc := fun n hn => Nat.le_trans (h.ever n hn) hle
    cases hk : assignAutoIncPk s.ty (advance s.ty s.ainc) with
    | none =>
        have ha : s.assign.autos = s.autos := by simp only [AiSess.assign, hk]
        refine ⟨hhere, hever, fun e he => ?_, ?_, ?_⟩
        · exact Nat.le_trans (h.autos e (ha ▸ he)) hle
        · rw [ha]
          exact h.above
        · rw [ha]
          exact h.rising
    | some k =>
        have ha : s.assign.autos = s.autos ++ [(s.ainc + 1, s.ever)] := by
          have hnum : num k = s.ainc + 1 := num_assigned hn (hadv ▸ hk)
          simp only [AiSess.assign, hk, hnum]
        refine ⟨hhere, hever, fun e he => ?_, fun e he n hn => ?_, ?_⟩
        · rw [ha] at he
          rcases List.mem_append.1 he with he | he
          · exact Nat.le_trans (h.autos e he) hle
          · rw [List.mem_singleton.1 he]
            exact Nat.le_of_eq hainc.symm
        · rw [ha] at he
          rcases List.mem_append.1 he with he | he
          · exact h.above e he n hn
          · rw [List.mem_singleton.1 he] at hn ⊢
            exact Nat.lt_succ_of_le (h.ever n hn)
        · rw [ha, List.map_append, List.pairwise_append]
          refine ⟨h.rising, List.pairwise_singleton _ _, fun a hm b hb => ?_⟩
          obtain ⟨e, he, rfl⟩ := List.mem_map.1 hm
          obtain rfl := List.mem_singleton.1 hb
          exact Nat.lt_succ_of_le (h.autos e he)

theorem Fresh.insertKey {mode : Mode} {k : Aobj} {cols : Cols} (h : Fresh s)
    (hp : ∀ r, storedBy s.sess.tab mode ⟨k, cols⟩ = some r → Packs s.sess.tab r)
    (he : s.insertKey mode k cols = some s') : Fresh s' := by
  obtain ⟨⟨b, t₁⟩, hrun, rfl⟩ := Option.map_eq_some_iff.1 he
  have hk := insertCommit_keys hrun
  cases b with
  | true => exact h.note hk hp
  | false => exact h.note hk (fun r hr => nomatch hr)

/-- What one command keeps. -/
theorem Fresh.exec {c : AiCmd} (h : Fresh s) (hs : AiSafe s c) (he : s.exec c = some s') :
    Fresh s' := by
  cases c with
  | insert mode pk cols =>
      cases pk with
      | some k => exact h.insertKey hs he
      | none =>
          have ha := h.assign hs.1
          simp only [AiSess.exec] at he
          cases hk : assignAutoIncPk s.ty (advance s.ty s.ainc) with
          | none =>
              simp only [hk, Option.some.injEq] at he
              rw [← he]
              exact ha
          | some k =>
              simp only [hk] at he
              exact ha.insertKey (hs.2 k hk) he
  | bad auto =>
      cases auto with
      | true =>
          cases he
          exact h.assign (hs rfl)
      | false =>
          cases he
          exact h
  | update u pk =>
      obtain ⟨⟨b, t₁⟩, hrun, rfl⟩ := Option.map_eq_some_iff.1 he
      have hk := updateSingle_keys hrun
      cases b with
      | true => exact h.note hk hs
      | false => exact h.note hk (fun r hr => nomatch hr)
  | range u sc =>
      obtain ⟨⟨b, t₁, q⟩, hrun, rfl⟩ := Option.map_eq_some_iff.1 he
      exact h.note (updateRange_keys hrun) (fun r hr => nomatch hr)
  | delete pk =>
      obtain ⟨⟨b, t₁⟩, hrun, rfl⟩ := Option.map_eq_some_iff.1 he
      exact h.note (deleteRow_keys hrun) (fun r hr => nomatch hr)

/-- In every run of safe commands the counter is at least every key that was ever stored, an
assigned key is above all that were stored before it, and the assigned keys grow. -/
theorem autoInc_run (ty : Nat → KType) (ncols : Nat) (kind : SKind) (kinds : List Kind)
    (s : AiSess) (h : AiRun AiSafe (.fresh ty ncols kind kinds) s) :
    (∀ n ∈ s.ever, n ≤ s.ainc) ∧ (∀ e ∈ s.autos, ∀ n ∈ e.2, n < e.1) ∧
      (s.autos.map Prod.fst).Pairwise (· < ·) := by
  have hfresh : Fresh s := by
    induction h with
    | start =>
        refine ⟨fun a ha => ?_, fun n hn => ?_, fun e he => ?_, fun e he => ?_, List.Pairwise.nil⟩
        · cases ha
        · cases hn
        · cases he
        · cases he
    | step _ hs he ih => exact ih.exec hs he
  exact ⟨hfresh.ever, hfresh.above, hfresh.rising⟩

/-- A key is given, the next one is assigned. -/
theorem autoInc_run_two :
    ∃ s, AiRun AiSafe (.fresh (fun _ => .int) 1 .uu []) s ∧ s.autos.map Prod.fst = [8] ∧
      (∀ n ∈ s.ever, n ≤ s.ainc) := by
  let s₁ : AiSess := ⟨⟨⟨fun _ => .int, 1, ⟨.uu, [(.int 7, [some (.int 5)])]⟩, []⟩, []⟩, 7, [7], []⟩
  have h₁ : AiRun AiSafe (.fresh (fun _ => .int) 1 .uu []) s₁ := by
    refine .step (c := .insert .insert (some (.int 7)) [some (.int 5)]) .start ?_ rfl
    intro r hr
    cases hr
    decide
  let s₂ : AiSess := ⟨⟨⟨fun _ => .int, 1,
    ⟨.uu, [(.int 7, [some (.int 5)]), (.int 8, [some (.int 6)])]⟩, []⟩, []⟩, 8, [7, 7, 8],
    [(8, [7])]⟩
  have h₂ : AiRun AiSafe (.fresh (fun _ => .int) 1 .uu []) s₂ := by
    have hk : assignAutoIncPk s₁.ty (advance s₁.ty s₁.ainc) = some (.int 8) := by decide
    have he : s₁.exec (.insert .insert none [some (.int 6)]) = some s₂ := by
      simp only [AiSess.exec, hk]
      rfl
    refine .step (c := .insert .insert none [some (.int 6)]) h₁ ⟨by decide, ?_⟩ he
    intro k hk' r hr
    cases hk.symm.trans hk'
    cases hr
    decide
  exact ⟨s₂, h₂, rfl, (autoInc_run _ _ _ _ _ h₂).1⟩

/-- The value `2^32 - 1` moves the row of key 7 to key 8, and 8 is assigned once more. -/
theorem autoInc_reused : ¬ ∀ (ty : Nat → KType) (ncols : Nat) (kind : SKind) (kinds : List Kind)
    (s : AiSess), AiRun (fun s c => match c with
        | .insert _ none _ => s.ainc + 1 < counterLimit s.ty
        | _ => True) (.fresh ty ncols kind kinds) s →
      (∀ n ∈ s.ever, n ≤ s.ainc) ∧ (∀ e ∈ s.autos, ∀ n ∈ e.2, n < e.1) ∧
        (s.autos.map Prod.fst).Pairwise (· < ·) := by
  intro h
  have h₁ := h (fun _ => .int) 1 .uu [] _
    (.step (c := .insert .insert (some (.int 7)) [some (.int 4294967295)]) .start trivial rfl)
  revert h₁
  decide

end AlchemyDB.Table
