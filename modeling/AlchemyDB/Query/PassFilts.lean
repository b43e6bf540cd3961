/-
# `passFilts` — the filters of one table, with Lua functions among them

One variable holds the result of the last filter.  A filter that compares leaves the loop
when it fails; a filter that runs a Lua function does not, so the next one writes over its
result.  IN over no keys writes nothing.
-/
import AlchemyDB.Query.Filter

namespace AlchemyDB.Query.Flist

open Index

variable {L : Type}

/-- What a filter tests: the value of its column, or a Lua function. -/
inductive Test (L : Type) where
  | col (t : KType) (f : Flt t)
  | lfunc (le : L)

/-- `f_t`, as far as `passFilts` reads it. -/
structure Filter (L : Type) where
  tmatch : Nat
  ic : Nat
  test : Test L

/-- One filter on a column; over no keys the variable keeps what it holds. -/
def passCol {t : KType} (ret : Bool) (f : Flt t) (c : Cell t) : Option Bool :=
  match f with
  | .inl keys => passInl ret keys c
  | f => passFilt f c

/-- What a query has at hand: the columns of the row, and what `runLuaFilter` returns, with
the flag of a failed call. -/
structure Given (L : Type) where
  getCol : Nat → (t : KType) → Cell t
  runLuaFilter : L → Bool × Bool

variable (g : Given L) (tmatch : Nat)

/-- The loop of `passFilts`, from a result and a flag. -/
def filtLoop : Bool → Bool → List (Filter L) → Option (Bool × Bool)
  | ret, hf, [] => some (ret, hf)
  | ret, hf, flt :: fs =>
      if flt.tmatch ≠ tmatch then filtLoop ret hf fs
      else
        match flt.test with
        | .col t f =>
            match passCol ret f (g.getCol flt.ic t) with
            | some true => filtLoop true hf fs
            | some false => some (false, hf)
            | none => none
        | .lfunc le => filtLoop (g.runLuaFilter le).1 (hf || (g.runLuaFilter le).2) fs

/-- `passFilts`: no list of filters passes. -/
def passFilts : Option (List (Filter L)) → Option (Bool × Bool)
  | none => some (true, false)
  | some flist => filtLoop g tmatch true false flist

/-! ## What the filters say -/

/-- A filter accepts the row: its column stands in the relation, or the Lua function says so. -/
def accepts (flt : Filter L) : Bool :=
  match flt.test with
  | .col t f => passCol false f (g.getCol flt.ic t) == some true
  | .lfunc le => (g.runLuaFilter le).1

/-- The filters of the table. -/
def own (flist : Option (List (Filter L))) : List (Filter L) :=
  (flist.getD []).filter fun flt => flt.tmatch = tmatch

/-- The row passes just when all the filters of the table accept it. -/
def PassesRight (flist : Option (List (Filter L))) : Prop :=
  (∃ hf, passFilts g tmatch flist = some (true, hf)) ↔
    ∀ flt ∈ flist.getD [], flt.tmatch = tmatch → accepts g flt = true

def Filter.isLua (flt : Filter L) : Bool :=
  match flt.test with
  | .col _ _ => false
  | .lfunc _ => true

/-- IN over no keys. -/
def Filter.noKeys (flt : Filter L) : Bool :=
  match flt.test with
  | .col _ (.inl []) => true
  | _ => false

/-- A filter whose result is not written over by the next one. -/
def Seen (flt : Filter L) (fs : List (Filter L)) : Prop :=
  [flt] <:+ fs ∨ ∃ h, [flt, h] <:+: fs ∧ h.noKeys = true

/-! ## One round -/

theorem passCol_keys {t : KType} (ret : Bool) (f : Flt t) (c : Cell t) (h : f ≠ .inl []) :
    passCol ret f c = passCol false f c := by
  cases f with
  | cmp op key => rfl
  | between low high => rfl
  | inl keys =>
    cases keys with
    | nil => exact absurd rfl h
    | cons k ks => rfl

/-- The filters of other tables are passed by. -/
theorem filtLoop_own (ret hf : Bool) (fs : List (Filter L)) :
    filtLoop g tmatch ret hf fs =
      filtLoop g tmatch ret hf (fs.filter fun flt => flt.tmatch = tmatch) := by
  induction fs generalizing ret hf with
  | nil => rfl
  | cons flt fs ih =>
    by_cases ht : flt.tmatch = tmatch
    · rw [List.filter_cons_of_pos (by simpa using ht), filtLoop, filtLoop, if_neg (not_not.2 ht),
        if_neg (not_not.2 ht)]
      cases flt.test with
      | col t f => simp only [ih]
      | lfunc le => exact ih _ _
    · rw [List.filter_cons_of_neg (by simpa using ht), filtLoop, if_pos ht]
      exact ih ret hf

variable {g tmatch} {flt : Filter L} {ret hf : Bool} {fs : List (Filter L)}

/-- The variable says that the row passes, at the end. -/
def Passes (g : Given L) (tmatch : Nat) (ret hf : Bool) (fs : List (Filter L)) : Prop :=
  ∃ hf', filtLoop g tmatch ret hf fs = some (true, hf')

/-- IN over no keys passes what the variable passes. -/
theorem passes_noKeys (ht : flt.tmatch = tmatch) (hn : flt.noKeys = true) :
    Passes g tmatch ret hf (flt :: fs) ↔ ret = true ∧ Passes g tmatch true hf fs := by
  obtain ⟨tm, ic, test⟩ := flt
  cases test with
  | lfunc le => cases hn
  | col t f =>
    obtain rfl : f = .inl [] := by
      cases f with
      | cmp op key => cases hn
      | between low high => cases hn
      | inl keys =>
        cases keys with
        | nil => rfl
        | cons k ks => cases hn
    unfold Passes
    rw [filtLoop, if_neg (not_not.2 ht)]
    cases ret with
    | true => simp [passCol, passInl]
    | false => simp [passCol, passInl]

/-- A filter on a column, over some keys: it has to accept. -/
theorem passes_col (ht : flt.tmatch = tmatch) (hl : flt.isLua = false) (hn : flt.noKeys = false) :
    Passes g tmatch ret hf (flt :: fs) ↔ accepts g flt = true ∧ Passes g tmatch true hf fs := by
  obtain ⟨tm, ic, test⟩ := flt
  cases test with
  | lfunc le => cases hl
  | col t f =>
    have hf : f ≠ .inl [] := by
      rintro rfl
      cases hn
    unfold Passes
    rw [filtLoop, if_neg (not_not.2 ht)]
    simp only [accepts, passCol_keys ret f _ hf]
    cases passCol false f (g.getCol ic t) with
    | none => simp
    | some b => cases b <;> simp

/-- A Lua function: the loop goes on with its result. -/
theorem passes_lua (g : Given L) (ret hf : Bool) (fs : List (Filter L)) (ht : flt.tmatch = tmatch)
    (hl : flt.isLua = true) :
    ∃ hf', Passes g tmatch ret hf (flt :: fs) ↔ Passes g tmatch (accepts g flt) hf' fs := by
  obtain ⟨tm, ic, test⟩ := flt
  cases test with
  | col t f => cases hl
  | lfunc le =>
    refine ⟨hf || (g.runLuaFilter le).2, ?_⟩
    unfold Passes
    rw [filtLoop, if_neg (not_not.2 ht)]
    exact Iff.rfl

theorem noKeys_of_isLua (h : flt.isLua = true) : flt.noKeys = false := by
  obtain ⟨tm, ic, test⟩ := flt
  cases test with
  | col t f => cases h
  | lfunc le => rfl

/-! ## The loop -/

theorem seen_cons {a : Filter L} :
    Seen flt (a :: fs) ↔ (flt = a ∧ (fs = [] ∨ ∃ h, fs.head? = some h ∧ h.noKeys = true)) ∨
      Seen flt fs := by
  have hinf : ∀ h, [flt, h] <:+: a :: fs ↔ (flt = a ∧ fs.head? = some h) ∨ [flt, h] <:+: fs := by
    intro h
    rw [List.infix_cons_iff, List.cons_prefix_cons]
    cases fs with
    | nil => simp
    | cons b fs => simp [List.cons_prefix_cons, eq_comm]
  have hsuf : [flt] <:+ a :: fs ↔ (flt = a ∧ fs = []) ∨ [flt] <:+ fs := by
    rw [List.suffix_cons_iff, List.cons.injEq, eq_comm (a := ([] : List (Filter L)))]
  unfold Seen
  rw [hsuf]
  simp only [hinf, or_and_right, exists_or]
  constructor
  · rintro ((⟨rfl, rfl⟩ | h) | (⟨h, ⟨rfl, hh⟩, hk⟩ | h))
    · exact .inl ⟨rfl, .inl rfl⟩
    · exact .inr (.inl h)
    · exact .inl ⟨rfl, .inr ⟨h, hh, hk⟩⟩
    · exact .inr (.inr h)
  · rintro (⟨rfl, rfl | ⟨h, hh, hk⟩⟩ | (h | h))
    · exact .inl (.inl ⟨rfl, rfl⟩)
    · exact .inr (.inl ⟨h, ⟨rfl, hh⟩, hk⟩)
    · exact .inl (.inr h)
    · exact .inr (.inr h)

theorem Seen.mem (h : Seen flt fs) : flt ∈ fs := by
  rcases h with h | ⟨x, h, -⟩
  · exact h.subset (List.mem_singleton_self flt)
  · exact h.subset List.mem_cons_self

/-- What follows a filter writes over its result. -/
def Overwrites (fs : List (Filter L)) : Prop := ∃ h, fs.head? = some h ∧ h.noKeys = false

theorem not_overwrites : ¬ Overwrites fs ↔ fs = [] ∨ ∃ h, fs.head? = some h ∧ h.noKeys = true := by
  unfold Overwrites
  cases fs with
  | nil => simp
  | cons h fs => simp

/-- No Lua function that says no is seen, one filter more. -/
theorem unseen_cons {a : Filter L} :
    (∀ x ∈ a :: fs, x.isLua = true → accepts g x = false → ¬ Seen x (a :: fs)) ↔
      (a.isLua = true → accepts g a = false → Overwrites fs) ∧
        ∀ x ∈ fs, x.isLua = true → accepts g x = false → ¬ Seen x fs := by
  simp only [seen_cons, ← not_overwrites]
  constructor
  · intro h
    refine ⟨fun hl hr => ?_, fun x hx hl hr hs => h x (List.mem_cons_of_mem a hx) hl hr (.inr hs)⟩
    by_contra ho
    exact h a List.mem_cons_self hl hr (.inl ⟨rfl, ho⟩)
  · rintro ⟨ha, hfs⟩ x - hl hr (⟨rfl, ho⟩ | hs)
    · exact ho (ha hl hr)
    · exact hfs x hs.mem hl hr hs

/-- The row passes when every filter on a column accepts it and every Lua function that does not is
written over; so does the result that the loop started with. -/
theorem passes_iff (ret hf : Bool) (hown : ∀ flt ∈ fs, flt.tmatch = tmatch) :
    Passes g tmatch ret hf fs ↔
      (∀ flt ∈ fs, flt.isLua = false → flt.noKeys = false → accepts g flt = true) ∧
      (∀ flt ∈ fs, flt.isLua = true → accepts g flt = false → ¬ Seen flt fs) ∧
      (ret = false → Overwrites fs) := by
  induction fs generalizing ret hf with
  | nil =>
    have hno : ¬ Overwrites ([] : List (Filter L)) := not_overwrites.2 (.inl rfl)
    cases ret <;> simp [Passes, filtLoop, hno]
  | cons a fs ih =>
    have ht : a.tmatch = tmatch := hown a List.mem_cons_self
    have hfs : ∀ flt ∈ fs, flt.tmatch = tmatch := fun f hf => hown f (List.mem_cons_of_mem a hf)
    have hhead : Overwrites (a :: fs) ↔ a.noKeys = false := by simp [Overwrites]
    rw [unseen_cons, List.forall_mem_cons, hhead]
    cases hl : a.isLua with
    | true =>
      have hn := noKeys_of_isLua hl
      obtain ⟨hf', h⟩ := passes_lua g ret hf fs ht hl
      rw [h, ih _ _ hfs]
      simp only [hn]
      tauto
    | false =>
      cases hn : a.noKeys with
      | true =>
        rw [passes_noKeys ht hn, ih _ _ hfs]
        cases ret <;> simp
      | false =>
        rw [passes_col ht hl hn, ih _ _ hfs]
        simp
        tauto

theorem passFilts_own (g : Given L) (tmatch : Nat) (flist : Option (List (Filter L))) :
    passFilts g tmatch flist = filtLoop g tmatch true false (own tmatch flist) := by
  cases flist with
  | none => rfl
  | some fs => exact filtLoop_own g tmatch true false fs

theorem accepts_noKeys (hn : flt.noKeys = true) : flt.isLua = false ∧ accepts g flt = false := by
  obtain ⟨tm, ic, test⟩ := flt
  cases test with
  | lfunc le => cases hn
  | col t f =>
    cases f with
    | cmp op key => cases hn
    | between low high => cases hn
    | inl keys =>
      cases keys with
      | nil => exact ⟨rfl, rfl⟩
      | cons k ks => cases hn

/-- All filters accept a row: those on columns, which have keys, and the Lua functions. -/
theorem all_accept :
    (∀ flt ∈ fs, accepts g flt = true) ↔
      (∀ flt ∈ fs, flt.isLua = false → flt.noKeys = false → accepts g flt = true) ∧
        ∀ flt ∈ fs, flt.noKeys = false ∧ (flt.isLua = true → accepts g flt = true) := by
  constructor
  · intro h
    refine ⟨fun x hx _ _ => h x hx, fun x hx => ⟨Bool.eq_false_iff.2 fun hn => ?_, fun _ => h x hx⟩⟩
    exact Bool.noConfusion ((accepts_noKeys hn).2.symm.trans (h x hx))
  · rintro ⟨hcol, hlua⟩ x hx
    cases hl : x.isLua with
    | true => exact (hlua x hx).2 hl
    | false => exact hcol x hx hl (hlua x hx).1

theorem and_iff_and {C S A : Prop} (h : A → S) : ((C ∧ S) ↔ (C ∧ A)) ↔ ¬ C ∨ A ∨ ¬ S := by
  tauto

/-- A row passes as the filters of its table say, in whatever order they stand, just when one of them
on a column rejects it, or no Lua function does and no IN is without keys, or the result of a Lua
function that rejects it is not written over. -/
theorem passFilts_iff (g : Given L) (tmatch : Nat) (flist : Option (List (Filter L))) :
    PassesRight g tmatch flist ↔
      (∃ flt ∈ own tmatch flist, flt.isLua = false ∧ flt.noKeys = false ∧ accepts g flt = false) ∨
      (∀ flt ∈ own tmatch flist, flt.noKeys = false ∧ (flt.isLua = true → accepts g flt = true)) ∨
      ∃ flt ∈ own tmatch flist, flt.isLua = true ∧ accepts g flt = false ∧
        Seen flt (own tmatch flist) := by
  have hown : ∀ flt ∈ own tmatch flist, flt.tmatch = tmatch := fun flt hf => by
    simpa using (List.mem_filter.1 hf).2
  have hall : (∀ flt ∈ flist.getD [], flt.tmatch = tmatch → accepts g flt = true) ↔
      ∀ flt ∈ own tmatch flist, accepts g flt = true := by
    simp [own, List.mem_filter, and_imp]
  have hpass := passes_iff (g := g) true false hown
  unfold PassesRight
  rw [hall, all_accept, passFilts_own]
  unfold Passes at hpass
  rw [hpass]
  generalize own tmatch flist = fs
  -- a Lua function that rejects the row is there, or none is
  have hlua : (∀ flt ∈ fs, flt.noKeys = false ∧ (flt.isLua = true → accepts g flt = true)) →
      ∀ flt ∈ fs, flt.isLua = true → accepts g flt = false → ¬ Seen flt fs := by
    intro h x hx hl hr
    exact absurd ((h x hx).2 hl) (by rw [hr]; exact Bool.false_ne_true)
  have hcol : (∃ flt ∈ fs, flt.isLua = false ∧ flt.noKeys = false ∧ accepts g flt = false) ↔
      ¬ ∀ flt ∈ fs, flt.isLua = false → flt.noKeys = false → accepts g flt = true := by
    simp only [not_forall, exists_prop, Bool.not_eq_true]
  have hseen : (∃ flt ∈ fs, flt.isLua = true ∧ accepts g flt = false ∧ Seen flt fs) ↔
      ¬ ∀ flt ∈ fs, flt.isLua = true → accepts g flt = false → ¬ Seen flt fs := by
    simp only [not_forall, exists_prop, not_not]
  rw [hcol, hseen]
  simp only [Bool.true_eq_false, false_implies, and_true]
  exact and_iff_and hlua

/-- A row whose first column is 5, and a Lua function that rejects every row. -/
def rejecting : Given Nat where
  getCol := fun _ t =>
    match t with
    | .int => ⟨some (5 : UInt32), fun _ => 0⟩
    | _ => ⟨none, fun _ => 0⟩
  runLuaFilter := fun _ => (false, false)

/-- A function that rejects the row, and then `col = 5`: the row passes. -/
theorem not_passesRight :
    ¬ PassesRight rejecting 0
      (some [⟨0, 0, .lfunc 0⟩, ⟨0, 1, .col .int (.cmp .eq (5 : UInt32))⟩]) := by
  intro h
  have hall := h.1 ⟨false, by decide⟩
  exact absurd (hall _ List.mem_cons_self rfl) (by decide)

/-! ## Without Lua functions -/

/-- The filters of one table on columns are the ones that a plan leaves. -/
theorem passFilts_cols (g : Given L) (tmatch : Nat) (fs : List (Σ t, Nat × Flt t)) :
    passFilts g tmatch (some (fs.map fun f => ⟨tmatch, f.2.1, .col f.1 f.2.2⟩)) =
      (Query.passFilts fs g.getCol).map fun ret => (ret, false) := by
  rw [passFilts]
  induction fs with
  | nil => rfl
  | cons f fs ih =>
    obtain ⟨t, ic, f⟩ := f
    have hf : passCol true f (g.getCol ic t) = passFilt f (g.getCol ic t) := by cases f <;> rfl
    rw [List.map_cons, filtLoop, if_neg (not_not.2 rfl)]
    simp only [hf, Query.passFilts, ih]
    cases passFilt f (g.getCol ic t) with
    | none => rfl
    | some ret => cases ret <;> rfl

end AlchemyDB.Query.Flist
