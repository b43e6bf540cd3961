/-
# REPLACE — a row put in the place of another

Every REPLACE goes through `abt_replace`.  In a tree of rows the slot of the old
row is looked up and followed; in the packed trees the entry is exchanged during
the search, and a search that ends without an entry changes nothing, although the
command replies OK.
-/
import AlchemyDB.Table.Rows
import AlchemyDB.Row.Packed

namespace AlchemyDB.Table

open Assoc Index

/-- `abt_replace`: the entry is written over, whatever key the new one has. -/
def Store.overwrite (s : Store) (pk : Aobj) (c : Cols) : Option Store :=
  match key s.kind pk with
  | none => some s
  | some k =>
      match get? s.ents k with
      | none => if s.kind = .norm then none else some s
      | some _ =>
          some { s with ents := s.ents.map fun e => if e.1 = k then stream s.kind pk c else e }

/-- REPLACE of a row: `insertCommit` with `repl`. -/
def replaceCommit (t : Tab) (r : Row) : Option (Bool × Tab) :=
  let r := t.asRow r
  if t.null r then some (false, t)
  else do
    let (ok, inds) ← runInsertIndexes r t.inds
    if ok then
      let inds ← (match t.store.find r.pk with
        | some orow => runDeleteIndexes ⟨r.pk, orow⟩ inds
        | none => some inds)
      let s ← t.store.overwrite r.pk r.cols
      some (true, { t with store := s, inds := inds })
    else some (false, { t with inds := inds })

variable {t t' : Tab} {s : Store} {pk : Aobj} {c : Cols} {r : Row}

/-! ## The tree -/

/-- The keys of the tree are different. -/
def Store.Keyed (s : Store) : Prop := (s.ents.map Prod.fst).Nodup

theorem map_absent {l : List (Aobj × Cols)} {k : Aobj} {e' : Aobj × Cols}
    (h : ∀ e ∈ l, e.1 ≠ k) : (l.map fun e => if e.1 = k then e' else e) = l := by
  refine (List.map_congr_left fun e he => ?_).trans (List.map_id l)
  rw [if_neg (h e he)]
  rfl

/-- A key that stands once is written over as in `btReplace`. -/
theorem map_set {k : Aobj} : ∀ {l : List (Aobj × Cols)}, (l.map Prod.fst).Nodup →
    (l.map fun e => if e.1 = k then (k, c) else e) = Assoc.set k c l
  | [], _ => rfl
  | e :: l, h => by
      obtain ⟨hn, h⟩ := List.nodup_cons.1 h
      rw [List.map_cons, Assoc.set]
      by_cases he : e.1 = k
      · rw [if_pos he, if_pos he, map_absent]
        intro a ha heq
        exact hn (List.mem_map.2 ⟨a, ha, heq.trans he.symm⟩)
      · rw [if_neg he, if_neg he, map_set h]

/-- Where `btReplace` goes on, the entry has kept its key. -/
theorem overwrite_of_replace {s' : Store} (hk : s.Keyed) (h : s.replace pk c = some s') :
    s.overwrite pk c = some s' := by
  unfold Store.replace at h
  unfold Store.overwrite
  cases hkey : Store.key s.kind pk with
  | none => simpa [hkey] using h
  | some k =>
      simp only [hkey] at h ⊢
      cases hg : get? s.ents k with
      | none => simpa [hg] using h
      | some old =>
          simp only [hg] at h ⊢
          obtain ⟨hstream, h⟩ := Option.ite_none_right_eq_some.1 h
          cases h
          have he : Store.stream s.kind pk c = (k, (Store.stream s.kind pk c).2) := by
            rw [← hstream]
          rw [he, map_set hk]

/-- The command in terms of `insertCommit`. -/
theorem replaceCommit_of_insertCommit {e : Bool × Tab} (hk : t.store.Keyed)
    (h : insertCommit t .repl r = some e) : replaceCommit t r = some e := by
  have h : insertNew t true (t.asRow r) = some e := by
    unfold insertCommit at h
    cases hf : t.store.find r.pk <;> simpa [hf] using h
  unfold insertNew at h
  unfold replaceCommit
  cases hz : t.null (t.asRow r) with
  | true => simpa [hz] using h
  | false =>
      simp only [hz, Bool.false_eq_true, if_false] at h ⊢
      unfold insertRow at h
      cases hr : runInsertIndexes (t.asRow r) t.inds with
      | none => simp [hr] at h
      | some a =>
          obtain ⟨ok, inds⟩ := a
          rw [hr] at h
          cases ok with
          | false => simpa using h
          | true =>
              simp only [Option.bind_eq_bind, Option.bind_some, if_true] at h ⊢
              obtain ⟨inds', hi, h⟩ := Option.bind_eq_some_iff.1 h
              obtain ⟨s', hs, h⟩ := Option.bind_eq_some_iff.1 h
              have hi' : (match t.store.find (t.asRow r).pk with
                  | some orow => runDeleteIndexes ⟨(t.asRow r).pk, orow⟩ inds
                  | none => some inds) = some inds' := by
                cases hf : t.store.find (t.asRow r).pk <;> simpa [hf] using hi
              rw [hi', Option.bind_some, overwrite_of_replace hk hs]
              exact h

/-! ## The row that is found afterwards -/

/-- An INT is a number of 32 bits. -/
def Word : Aobj → Prop
  | .int i => i < 4294967296
  | _ => True

/-- The key is there, a packed entry is stored as it is, and no other primary key is packed into the
same key, unless the row is the one that was there. -/
def Replaceable (s : Store) (pk : Aobj) (c : Cols) : Prop :=
  ∃ k old, Store.key s.kind pk = some k ∧ get? s.ents k = some old ∧
    Store.stream s.kind pk c = (k, c) ∧
      ∀ p, Word p → p ≠ pk → Store.key s.kind p = some k → old = c

/-- `pk` leads to the row, and the others lead where they led. -/
def Upserted (s s' : Store) (pk : Aobj) (c : Cols) : Prop :=
  s'.find pk = some c ∧ ∀ p, Word p → p ≠ pk → s'.find p = s.find p

theorem get?_overwrite {k : Aobj} {old : Cols} {e : Aobj × Cols} {l : List (Aobj × Cols)}
    (hk : (l.map Prod.fst).Nodup) (hg : get? l k = some old) :
    get? (l.map fun x => if x.1 = k then e else x) k = if e.1 = k then some e.2 else none := by
  induction l with
  | nil => simp at hg
  | cons x l ih =>
      obtain ⟨hn, hk⟩ := List.nodup_cons.1 hk
      rw [get?_cons] at hg
      rw [List.map_cons, get?_cons]
      by_cases hx : x.1 = k
      · rw [if_pos hx]
        have habs : ∀ y ∈ l, y.1 ≠ k := fun y hy h => hn (List.mem_map.2 ⟨y, hy, h.trans hx.symm⟩)
        rw [map_absent habs, get?_eq_none.2 habs]
      · rw [if_neg hx] at hg ⊢
        rw [if_neg hx, ih hk hg]

theorem upserted_iff {s' : Store} (hk : s.Keyed) (hz : ¬ (s.kind = .uu ∧ c = [some (.int 0)]))
    (h : s.overwrite pk c = some s') : Upserted s s' pk c ↔ Replaceable s pk c := by
  have hfind (s : Store) {k : Aobj} (p : Aobj) (hp : Store.key s.kind p = some k) : s.find p =
      (get? s.ents k).filter (fun c => decide (¬ (s.kind = .uu ∧ c = [some (.int 0)]))) := by
    simp only [Store.find, hp]
  unfold Store.overwrite at h
  cases hkey : Store.key s.kind pk with
  | none =>
      simp only [hkey, Option.some.injEq] at h
      subst h
      have h1 : ¬ Upserted s s pk c := by
        rintro ⟨h, -⟩
        simp [Store.find, hkey] at h
      have h2 : ¬ Replaceable s pk c := by
        rintro ⟨k, old, h, -⟩
        rw [hkey] at h
        cases h
      exact iff_of_false h1 h2
  | some k =>
      simp only [hkey] at h
      cases hg : get? s.ents k with
      | none =>
          simp only [hg] at h
          obtain ⟨-, h⟩ := Option.ite_none_left_eq_some.1 h
          cases h
          have h1 : ¬ Upserted s s pk c := by
            rintro ⟨h, -⟩
            rw [hfind s pk hkey, hg] at h
            cases h
          have h2 : ¬ Replaceable s pk c := by
            rintro ⟨k', old, h, h', -⟩
            rw [hkey] at h
            cases h
            rw [hg] at h'
            cases h'
          exact iff_of_false h1 h2
      | some old =>
          simp only [hg, Option.some.injEq] at h
          subst h
          set e := Store.stream s.kind pk c with he
          set s' : Store := { s with ents := s.ents.map fun x => if x.1 = k then e else x } with hs'
          have hfk : s'.find pk = (if e.1 = k then some e.2 else none).filter
              (fun c => decide (¬ (s.kind = .uu ∧ c = [some (.int 0)]))) := by
            rw [hfind s' pk (k := k) hkey, hs', get?_overwrite hk hg]
          constructor
          · rintro ⟨h1, h2⟩
            rw [hfk] at h1
            obtain ⟨h1, -⟩ := Option.filter_eq_some_iff.1 h1
            obtain ⟨hek, h1⟩ := Option.ite_none_right_eq_some.1 h1
            have hec : e = (k, c) := by
              rw [← hek, ← Option.some.inj h1]
            refine ⟨k, old, hkey, hg, hec, fun p hw hp hpk => ?_⟩
            have h3 := h2 p hw hp
            rw [hfind s' p (k := k) hpk, hfind s p hpk, hs', get?_overwrite hk hg, hec, if_pos rfl, hg]
              at h3
            rw [Option.filter_some_pos (by simpa [Classical.or_iff_not_imp_left] using hz)] at h3
            exact Option.some.inj (Option.filter_eq_some_iff.1 h3.symm).1
          · rintro ⟨k', old', h1, h2, hec, h4⟩
            rw [hkey] at h1
            cases h1
            rw [hg] at h2
            cases h2
            rw [← he] at hec
            refine ⟨?_, fun p hw hp => ?_⟩
            · rw [hfk, hec, if_pos rfl]
              exact Option.filter_some_pos (by simpa [Classical.or_iff_not_imp_left] using hz)
            · cases hpk : Store.key s.kind p with
              | none => simp [Store.find, hs', hpk]
              | some j =>
                  rw [hfind s' p (k := j) hpk, hfind s p hpk, hs', hec, map_set hk, get?_set hg]
                  by_cases hj : j = k
                  · subst hj
                    rw [if_pos rfl, hg, h4 p hw hp hpk]
                  · rw [if_neg hj]

end AlchemyDB.Table
