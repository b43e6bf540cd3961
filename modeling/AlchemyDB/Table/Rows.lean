/-
# The rows of a table — what a command writes

Rows have the types and the number of columns of their table, and are stored as
they are (`Keeps`): this fails for keys and values of a packed table that are
taken for null pointers or do not survive the packing.
-/
import AlchemyDB.Index.Take
import AlchemyDB.Table.Range

namespace AlchemyDB.Table

open Assoc Index

/-! ## The tree of the rows -/

/-- The row is found again under its key, as it is. -/
def Keeps (kind : SKind) (r : Row) : Prop :=
  Store.key kind r.pk = some r.pk ∧ Store.stream kind r.pk r.cols = (r.pk, r.cols) ∧
    ¬ (kind = .uu ∧ r.cols = [some (.int 0)])

instance (kind : SKind) (r : Row) : Decidable (Keeps kind r) := inferInstanceAs (Decidable (_ ∧ _))

theorem keeps_plain {kind : SKind} (h : kind ≠ .uu) (r : Row) : Keeps kind r := by
  cases kind with
  | uu => exact absurd rfl h
  | norm => exact ⟨rfl, rfl, fun h => nomatch h.1⟩
  | wide => exact ⟨rfl, rfl, fun h => nomatch h.1⟩

variable {t : Tab} {u : Sets} {s s' : Store} {pk : Aobj} {cols : Cols} {r old new : Row}

def asLive (e : Aobj × Cols) : Row := ⟨e.1, e.2⟩

theorem live_eq (t : Tab) : t.live = t.store.ents.map asLive := rfl

theorem find_get (hk : Store.key s.kind pk = some pk) (hf : s.find pk = some cols) :
    get? s.ents pk = some cols := by
  unfold Store.find at hf
  rw [hk] at hf
  exact (Option.filter_eq_some_iff.1 hf).1

theorem find_mem (hk : Store.key s.kind pk = some pk) (hf : s.find pk = some cols) :
    (⟨pk, cols⟩ : Row) ∈ s.ents.map asLive :=
  List.mem_map.2 ⟨(pk, cols), mem_of_get? (find_get hk hf), rfl⟩

theorem add_live (hk : Keeps s.kind r) :
    (s.add r.pk r.cols).kind = s.kind ∧
      ((s.add r.pk r.cols).ents.map asLive).Perm (r :: s.ents.map asLive) := by
  unfold Store.add
  rw [hk.1, hk.2.1]
  exact ⟨rfl, perm_put.map asLive⟩

theorem del_live (hk : Store.key s.kind pk = some pk) (hf : s.find pk = some cols) :
    ∃ s', s.del pk = some s' ∧ s'.kind = s.kind ∧
      (s.ents.map asLive).Perm (⟨pk, cols⟩ :: s'.ents.map asLive) := by
  have hg := find_get hk hf
  refine ⟨{ s with ents := Assoc.del pk s.ents }, ?_, rfl, (perm_del hg).map asLive⟩
  unfold Store.del
  rw [hk]
  simp [hg]

theorem replace_live (hk : Keeps s.kind new) (hf : s.find new.pk = some cols) :
    ∃ s', s.replace new.pk new.cols = some s' ∧ s'.kind = s.kind ∧
      ∃ rest, (s.ents.map asLive).Perm (⟨new.pk, cols⟩ :: rest) ∧
        (s'.ents.map asLive).Perm (new :: rest) := by
  have hg := find_get hk.1 hf
  refine ⟨{ s with ents := Assoc.set new.pk new.cols s.ents }, ?_, rfl,
    (Assoc.del new.pk s.ents).map asLive, (perm_del hg).map asLive, (perm_set hg).map asLive⟩
  unfold Store.replace
  rw [hk.1, hk.2.1]
  simp [hg]

/-! ## Rows of the table -/

/-- The row has the types and the columns of the table. -/
structure Fit (t : Tab) (r : Row) : Prop where
  typed : r.Of t.ty
  full : r.cols.length = t.ncols

/-- The row is one the table can hold. -/
structure RowOk (t : Tab) (r : Row) : Prop extends Fit t r where
  written : t.asRow r = r
  keeps : Keeps t.store.kind r

/-- The rows of a table, under different primary keys. -/
structure Rowed (t : Tab) : Prop where
  /-- A table with one number for each key has one column behind the key. -/
  packed : t.store.kind ≠ .norm → t.ncols = 1
  row : ∀ r ∈ t.live, RowOk t r
  nodup : (t.live.map Row.pk).Nodup

/-- The values of an UPDATE have the types of the table. -/
structure Sets.Of (u : Sets) (ty : Nat → KType) : Prop where
  pk : ∀ e, u.pk = some e → ∀ r v, e.eval r = some v → v.ktype = ty 0
  col : ∀ j e, u.col j = some e → ∀ r v, e r = some (some v) → v.ktype = ty j

theorem getCol_succ (r : Row) (j : Nat) : getCol r (j + 1) = (r.cols[j]?).join := by
  simp [getCol]

theorem asRow_norm (h : t.store.kind = .norm) (r : Row) : t.asRow r = r := by
  simp [Tab.asRow, Tab.asStored, h]

theorem insertNew_norm (h : t.store.kind = .norm) (repl : Bool) (r : Row) :
    insertNew t repl r = insertRow t repl r := by
  simp [insertNew, Tab.null, h]

theorem asRow_other (h : t.store.kind ≠ .norm) (r : Row) :
    t.asRow r = ⟨r.pk, r.cols.map fun v => some (Aobj.field (t.ty 1) v)⟩ := by
  unfold Tab.asRow Tab.asStored
  cases hk : t.store.kind with
  | norm => exact absurd hk h
  | uu => rfl
  | wide => rfl

/-- What is written of a row of an INSERT. -/
theorem Fit.asRow (hp : t.store.kind ≠ .norm → t.ncols = 1) (h : Fit t r) :
    Fit t (t.asRow r) ∧ t.asRow (t.asRow r) = t.asRow r := by
  by_cases hk : t.store.kind = .norm
  · rw [asRow_norm hk, asRow_norm hk]
    exact ⟨h, rfl⟩
  · have hlen := h.full
    rw [hp hk] at hlen
    obtain ⟨v, hv⟩ := List.length_eq_one_iff.1 hlen
    have hr : t.asRow r = ⟨r.pk, [some (Aobj.field (t.ty 1) v)]⟩ := by
      rw [asRow_other hk, hv]
      rfl
    rw [hr]
    refine ⟨⟨?_, by rw [hp hk]; rfl⟩, ?_⟩
    · intro j w hw
      match j, hw with
      | 0, hw =>
          cases hw
          exact h.typed.pk
      | 1, hw =>
          cases hw
          exact Aobj.field_ktype _ _
    · rw [asRow_other hk]
      have hf := Aobj.field_self (Aobj.field (t.ty 1) v)
      rw [Aobj.field_ktype] at hf
      simp [hf]

/-- The column of a written row depends on that column only. -/
theorem getCol_asRow {r r' : Row} (hlen : r.cols.length = r'.cols.length) {j : Nat}
    (h : getCol r j = getCol r' j) : getCol (t.asRow r) j = getCol (t.asRow r') j := by
  by_cases hk : t.store.kind = .norm
  · rw [asRow_norm hk, asRow_norm hk, h]
  · rw [asRow_other hk, asRow_other hk]
    cases j with
    | zero => exact h
    | succ j =>
        rw [getCol_succ, getCol_succ] at h ⊢
        simp only [List.getElem?_map]
        by_cases hj : j < r.cols.length
        · rw [List.getElem?_eq_getElem hj, List.getElem?_eq_getElem (hlen ▸ hj)] at h ⊢
          simp only [Option.join_some] at h
          rw [h]
        · rw [List.getElem?_eq_none (Nat.le_of_not_lt hj),
            List.getElem?_eq_none (by rw [← hlen]; exact Nat.le_of_not_lt hj)]

/-! ## The new row of an UPDATE -/

theorem mapM_some {A B : Type} {f : A → Option B} : ∀ {l : List A} {cs : List B},
    l.mapM f = some cs → cs.length = l.length ∧
      ∀ (i : Nat) (a : A), l[i]? = some a → ∃ c, cs[i]? = some c ∧ f a = some c
  | [], cs, h => by
      cases h
      exact ⟨rfl, fun i a h => by simp at h⟩
  | a :: l, cs, h => by
      rw [List.mapM_cons] at h
      obtain ⟨c, hc, h⟩ := Option.bind_eq_some_iff.1 h
      obtain ⟨cs', hcs, h⟩ := Option.bind_eq_some_iff.1 h
      obtain rfl := Option.some.inj h
      obtain ⟨hlen, hget⟩ := mapM_some hcs
      refine ⟨by simp [hlen], fun i b hb => ?_⟩
      cases i with
      | zero =>
          obtain rfl := Option.some.inj hb
          exact ⟨c, rfl, hc⟩
      | succ i => exact hget i b hb

/-- The value a column gets. -/
def Sets.value (u : Sets) (r : Row) (j : Nat) : Option (Option Aobj) :=
  match u.col j with
  | none => some (getCol r j)
  | some e => e r

theorem evalRow_some {n : Nat} (h : u.evalRow n old = some new) :
    (match u.pk with
      | none => new.pk = old.pk
      | some e => e.eval old = some new.pk) ∧
    new.cols.length = n ∧ ∀ j, j < n → u.value old (j + 1) = some (getCol new (j + 1)) := by
  unfold Sets.evalRow at h
  split at h
  · cases h
  · rename_i pk hpk
    obtain ⟨cs, hcs, rfl⟩ := Option.map_eq_some_iff.1 h
    obtain ⟨hlen, hget⟩ := mapM_some hcs
    refine ⟨?_, by simpa using hlen, fun j hj => ?_⟩
    · cases hu : u.pk with
      | none =>
          rw [hu] at hpk
          exact (Option.some.inj hpk).symm
      | some e =>
          rw [hu] at hpk
          exact hpk
    · obtain ⟨c, hc, hf⟩ := hget j j (by simp [hj])
      rw [getCol_succ]
      simp only [hc, Option.join_some]
      exact hf

theorem evalRow_fit (ho : u.Of t.ty) (hold : Fit t old) (h : u.evalRow t.ncols old = some new) :
    Fit t new := by
  obtain ⟨hpk, hlen, hcol⟩ := evalRow_some h
  refine ⟨?_, hlen⟩
  intro j v hv
  cases j with
  | zero =>
      cases hv
      cases hu : u.pk with
      | none =>
          rw [hu] at hpk
          rw [hpk]
          exact hold.typed.pk
      | some e =>
          rw [hu] at hpk
          exact ho.pk e hu _ _ hpk
  | succ j =>
      have hj : j < t.ncols := by
        by_contra hj
        rw [getCol_succ, List.getElem?_eq_none (by omega)] at hv
        cases hv
      have hval := hcol j hj
      rw [hv] at hval
      unfold Sets.value at hval
      split at hval
      · exact hold.typed _ _ (Option.some.inj hval)
      · rename_i e he
        exact ho.col _ _ he _ _ hval

/-- A column that is not hit stays as it is. -/
theorem evalRow_keep (hold : old.cols.length = t.ncols) (h : u.evalRow t.ncols old = some new) {j : Nat}
    (hj : u.hit j = false) : getCol new j = getCol old j := by
  obtain ⟨hpk, hlen, hcol⟩ := evalRow_some h
  unfold Sets.hit at hj
  cases j with
  | zero =>
      have hu : u.pk = none := by simpa using hj
      rw [hu] at hpk
      show some new.pk = some old.pk
      rw [hpk]
  | succ j =>
      have hu : u.col (j + 1) = none := by simpa using hj
      by_cases hlt : j < t.ncols
      · have hval := hcol j hlt
        simp only [Sets.value, hu, Option.some.injEq] at hval
        exact hval.symm
      · rw [getCol_succ, getCol_succ, List.getElem?_eq_none (by omega),
          List.getElem?_eq_none (by omega)]

/-! ## Planned rows -/

theorem planRow_newRow (h : planRow t u old = .newRow new) :
    ∃ r, u.evalRow t.ncols old = some r ∧ new = t.asRow r := by
  unfold planRow at h
  split at h
  · cases h
  · rename_i r hr
    split at h
    · cases h
    · exact ⟨r, hr, handRow_newRow h⟩

/-- The rows of a table of rows are read as they are handed over. -/
theorem planRow_ne_misread (h : t.store.kind = .norm) : planRow t u old ≠ .misread := by
  intro hp
  unfold planRow at hp
  split at hp
  · cases hp
  · split at hp
    · cases hp
    · simp [handRow, h] at hp

theorem planRow_overwritten {c : Cols} (h : planRow t u old = .overwrite c) :
    ∃ r, u.evalRow t.ncols old = some r ∧ overwrites t u old r = true ∧
      c = updateOverwrite t u old r := by
  unfold planRow at h
  split at h
  · cases h
  · rename_i r hr
    split at h
    · rename_i ho
      cases h
      exact ⟨r, hr, ho, rfl⟩
    · exact absurd h handRow_ne_overwrite

theorem newRow_fit (hp : t.store.kind ≠ .norm → t.ncols = 1) (ho : u.Of t.ty) (hold : Fit t old)
    (h : planRow t u old = .newRow new) : Fit t new ∧ t.asRow new = new := by
  obtain ⟨r, hr, rfl⟩ := planRow_newRow h
  exact (evalRow_fit ho hold hr).asRow hp

theorem newRow_keep (hold : Fit t old) (hs : t.asRow old = old)
    (h : planRow t u old = .newRow new) {j : Nat} (hj : u.hit j = false) :
    getCol new j = getCol old j := by
  obtain ⟨r, hr, rfl⟩ := planRow_newRow h
  have hlen := (evalRow_some hr).2.1
  rw [getCol_asRow (hlen.trans hold.full.symm) (evalRow_keep hold.full hr hj), hs]

theorem newRow_pk (h : planRow t u old = .newRow new) (hu : u.pk = none) : new.pk = old.pk := by
  obtain ⟨r, hr, rfl⟩ := planRow_newRow h
  have hpk := (evalRow_some hr).1
  rw [hu] at hpk
  exact hpk

/-- A column of a row that is overwritten in place. -/
theorem overwrite_col {c : Cols} (h : planRow t u old = .overwrite c) {j : Nat} (hj : j < t.ncols) :
    ∃ r, u.evalRow t.ncols old = some r ∧
      getCol ⟨old.pk, c⟩ (j + 1) = match getCol old (j + 1) with
        | some a => if u.hit (j + 1) ∧ sflag a ≠ 0 then getCol r (j + 1) else some a
        | none => none := by
  obtain ⟨r, hr, _, rfl⟩ := planRow_overwritten h
  refine ⟨r, hr, ?_⟩
  rw [getCol_succ]
  cases hc : getCol old (j + 1) <;> simp [updateOverwrite, hj, hc]

theorem overwrite_length {c : Cols} (h : planRow t u old = .overwrite c) : c.length = t.ncols := by
  obtain ⟨r, _, _, rfl⟩ := planRow_overwritten h
  simp [updateOverwrite]

theorem overwrite_fit (ho : u.Of t.ty) (hold : Fit t old) {c : Cols}
    (h : planRow t u old = .overwrite c) : Fit t ⟨old.pk, c⟩ := by
  have hlen := overwrite_length h
  refine ⟨?_, hlen⟩
  intro j v hv
  cases j with
  | zero =>
      cases hv
      exact hold.typed.pk
  | succ j =>
      have hj : j < t.ncols := by
        by_contra hj
        rw [getCol_succ, List.getElem?_eq_none (by simp only; omega)] at hv
        cases hv
      obtain ⟨r, hr, hcol⟩ := overwrite_col h hj
      rw [hcol] at hv
      split at hv
      · rename_i a ha
        split at hv
        · exact (evalRow_fit ho hold hr).typed _ _ hv
        · cases hv
          exact hold.typed _ _ ha
      · cases hv

/-- A column that is not hit, or that is indexed, stays as it is. -/
theorem overwrite_keep (hold : old.cols.length = t.ncols) {c : Cols}
    (h : planRow t u old = .overwrite c) {j : Nat} (hj : u.hit j = false ∨ t.indxd j = true) :
    getCol ⟨old.pk, c⟩ j = getCol old j := by
  cases j with
  | zero => rfl
  | succ j =>
      by_cases hlt : j < t.ncols
      · have hnot : u.hit (j + 1) = false := by
          rcases hj with hj | hj
          · exact hj
          · obtain ⟨r, _, ho, _⟩ := planRow_overwritten h
            have hall := List.all_eq_true.1 (Bool.and_eq_true_iff.1 ho).2 (j + 1)
              (List.mem_range.2 (by omega))
            cases hh : u.hit (j + 1) with
            | false => rfl
            | true => simp [overwritesCol, hh, hj] at hall
        obtain ⟨r, hr, hcol⟩ := overwrite_col h hlt
        rw [hcol, hnot]
        cases getCol old (j + 1) <;> simp
      · have hlen := overwrite_length h
        rw [getCol_succ, getCol_succ, List.getElem?_eq_none (by simp only; omega),
          List.getElem?_eq_none (by omega)]

/-! ## Images -/

/-- The columns an index reads. -/
def readCols : Kind → List Nat
  | .silent => []
  | .single col obc => col :: obc.toList
  | .uniq col _ => [col]
  | .mci cols obc => cols ++ obc.toList
  | .umci cols last _ => cols ++ [last]

theorem image_congr {k : Kind} (hpk : new.pk = old.pk)
    (h : ∀ j ∈ readCols k, getCol new j = getCol old j) : k.image new = k.image old := by
  have hpath : k.path new = k.path old ∧ k.bkey new = k.bkey old := by
    cases k with
    | silent => exact ⟨rfl, rfl⟩
    | single c o =>
        refine ⟨by simp [Kind.path, h c (by simp [readCols])], ?_⟩
        cases o with
        | none => simp [Kind.bkey, hpk]
        | some o => exact h o (by simp [readCols])
    | uniq c a => exact ⟨rfl, h c (by simp [readCols])⟩
    | mci cols o =>
        refine ⟨List.map_congr_left fun j hj => h j (List.mem_append_left _ hj), ?_⟩
        cases o with
        | none => simp [Kind.bkey, hpk]
        | some o => exact h o (by simp [readCols])
    | umci cols last a =>
        exact ⟨List.map_congr_left fun j hj => h j (List.mem_append_left _ hj),
          h last (by simp [readCols])⟩
  unfold Kind.image
  rw [hpath.1, hpath.2, hpk]

end AlchemyDB.Table
