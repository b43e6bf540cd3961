/-
# The comparison of column references

A reference is a column number and, below a Lua table column, the path of an element.
`icol_cmp` asks twice whether the FIRST reference has a path, where it means to ask both:
without a path it compares numbers and never sees the path of the other, and with one it
compares paths and never sees the numbers.
-/
import AlchemyDB.Catalog.Indexed
import AlchemyDB.Query.Sorting

namespace AlchemyDB.Query.ColumnCmp

open Catalog Sorting

/-! ## References -/

/-- The name of an element, as a C string: bytes, and no NUL among them. -/
structure Name where
  chars : List Char
  bytes : ∀ c ∈ chars, 0 < c.toNat ∧ c.toNat < 256

/-- `icol_t`, with `nlo` for the length of `lo`. -/
structure ColRef where
  cmatch : Int
  lo : List Name

def ColRef.nlo (r : ColRef) : Nat := r.lo.length

/-- The same column, and the same element of it. -/
def Same (a b : ColRef) : Prop := a.cmatch = b.cmatch ∧ a.lo = b.lo

theorem Name.ext_iff {a b : Name} : a = b ↔ a.chars = b.chars := by
  cases a
  cases b
  exact Name.mk.injEq _ _ _ _ ▸ Iff.rfl

/-! ## The comparison -/

/-- What is left of a number in a `bool`, which is an `unsigned char`. -/
def toBool (i : Int) : Nat := (i % 256).toNat

/-- The loop of `icol_cmp`, on paths of the same length. -/
def loCmp : List Name → List Name → Nat
  | a :: l, b :: m =>
      let r := toBool (strcmp a.chars b.chars)
      if r ≠ 0 then r else loCmp l m
  | _, _ => 0

/-- `icol_cmp`.  Both tests of each condition are about `ic1`, so the last case is never reached. -/
def icolCmp (ic1 ic2 : ColRef) : Nat :=
  let ret := toBool (if ic1.cmatch = ic2.cmatch then 0
    else if ic1.cmatch > ic2.cmatch then 1 else -1)
  if ic1.nlo = 0 ∧ ic1.nlo = 0 then ret
  else if ic1.nlo ≠ 0 ∧ ic1.nlo ≠ 0 then
    if ic1.nlo ≠ ic2.nlo then toBool (if ic1.nlo > ic2.nlo then 1 else -1)
    else loCmp ic1.lo ic2.lo
  else toBool (if ic1.nlo ≠ 0 then 1 else -1)

/-- What the callers rely on: 0 stands for the same reference, whichever comes first. -/
def Tells (a b : ColRef) : Prop :=
  (icolCmp a b = 0 ↔ Same a b) ∧ (icolCmp a b = 0 ↔ icolCmp b a = 0)

/-! ## When it answers 0 -/

/-- A number that differs from 0 by less than 256 differs from it in a `bool`. -/
theorem toBool_eq_zero {i : Int} (hl : -256 < i) (hu : i < 256) : toBool i = 0 ↔ i = 0 := by
  unfold toBool
  omega

theorem strcmp_bounds : ∀ {s t : List Char}, (∀ c ∈ s, c.toNat < 256) → (∀ c ∈ t, c.toNat < 256) →
    -256 < strcmp s t ∧ strcmp s t < 256
  | [], [], _, _ => by simp [strcmp]
  | [], d :: t, _, ht => by
      have hd := ht d List.mem_cons_self
      simp only [strcmp]
      omega
  | c :: s, [], hs, _ => by
      have hc := hs c List.mem_cons_self
      simp only [strcmp]
      omega
  | c :: s, d :: t, hs, ht => by
      have hc := hs c List.mem_cons_self
      have hd := ht d List.mem_cons_self
      rw [strcmp]
      split_ifs
      · omega
      · exact strcmp_bounds (fun e he => hs e (List.mem_cons_of_mem _ he))
          fun e he => ht e (List.mem_cons_of_mem _ he)
      · omega

/-- The byte that is kept of `strcmp` still tells whether two names are the same. -/
theorem toBool_strcmp (a b : Name) : toBool (strcmp a.chars b.chars) = 0 ↔ a = b := by
  have hb := strcmp_bounds (fun c hc => (a.bytes c hc).2) fun c hc => (b.bytes c hc).2
  have hz := (strcmp_sign (fun c hc => (a.bytes c hc).1.ne') fun c hc => (b.bytes c hc).1.ne').2
  rw [toBool_eq_zero hb.1 hb.2, hz, Name.ext_iff]

theorem loCmp_eq_zero : ∀ {l m : List Name}, l.length = m.length → (loCmp l m = 0 ↔ l = m)
  | [], [], _ => by simp [loCmp]
  | a :: l, b :: m, h => by
      have ih : loCmp l m = 0 ↔ l = m := loCmp_eq_zero (Nat.succ.inj h)
      rw [loCmp, List.cons.injEq, ← toBool_strcmp]
      split_ifs with hr
      · exact iff_of_false hr fun h => hr h.1
      · rw [ih]
        exact (and_iff_right (not_not.1 hr)).symm

/-- Without a path of its own the first reference is compared by its number alone, and
otherwise by its path alone. -/
theorem icolCmp_eq_zero (a b : ColRef) :
    icolCmp a b = 0 ↔ if a.lo = [] then a.cmatch = b.cmatch else a.lo = b.lo := by
  by_cases h0 : a.lo = []
  · have hn : a.nlo = 0 := List.length_eq_zero_iff.2 h0
    rw [icolCmp, if_pos ⟨hn, hn⟩, if_pos h0]
    split_ifs with h1 h2
    · exact iff_of_true rfl h1
    · exact iff_of_false (by decide) h1
    · exact iff_of_false (by decide) h1
  · have hn : a.nlo ≠ 0 := fun h => h0 (List.length_eq_zero_iff.1 h)
    rw [icolCmp, if_neg fun h => hn h.1, if_pos ⟨hn, hn⟩, if_neg h0]
    split_ifs with h1 h2
    · exact iff_of_false (by decide) fun h => h1 (congrArg List.length h)
    · exact iff_of_false (by decide) fun h => h1 (congrArg List.length h)
    · exact loCmp_eq_zero (not_not.1 h1)

/-- It tells two references of one column apart when both have a path or neither has, and
those of different columns unless both have the same path. -/
theorem tells_iff (a b : ColRef) :
    Tells a b ↔ (a.cmatch = b.cmatch → (a.lo = [] ↔ b.lo = [])) ∧
      (a.cmatch ≠ b.cmatch → a.lo = b.lo → a.lo = []) := by
  have hcm : b.cmatch = a.cmatch ↔ a.cmatch = b.cmatch := eq_comm
  have hlo : b.lo = a.lo ↔ a.lo = b.lo := eq_comm
  rw [Tells, icolCmp_eq_zero, icolCmp_eq_zero, Same, hcm, hlo]
  by_cases ha : a.lo = []
  · by_cases hb : b.lo = []
    · -- neither has a path: the numbers decide
      have hl : a.lo = b.lo := ha.trans hb.symm
      rw [if_pos ha, if_pos hb]
      tauto
    · -- only the second has one, and it is seen from the other side alone
      have hl : a.lo ≠ b.lo := fun h => hb (h ▸ ha)
      rw [if_pos ha, if_neg hb]
      tauto
  · by_cases hb : b.lo = []
    · have hl : a.lo ≠ b.lo := fun h => ha (h ▸ hb)
      rw [if_neg ha, if_pos hb]
      tauto
    · -- both have one: the numbers are not seen
      rw [if_neg ha, if_neg hb]
      tauto

/-- The model of the catalog compares references the same way. -/
theorem icolCmp_catalog {a b : ColRef} {c d : Icol} (hc : a.cmatch = c.cmatch)
    (hd : b.cmatch = d.cmatch) (hlc : a.lo.map Name.chars = c.lo)
    (hld : b.lo.map Name.chars = d.lo) : Catalog.icolCmp c d = false ↔ icolCmp a b = 0 := by
  have hinj : Function.Injective Name.chars := fun _ _ h => Name.ext_iff.2 h
  have hnil : a.lo = [] ↔ c.lo = [] := by rw [← hlc, List.map_eq_nil_iff]
  have hlo : a.lo = b.lo ↔ c.lo = d.lo := by
    rw [← hlc, ← hld]
    exact (List.map_injective_iff.2 hinj).eq_iff.symm
  have hcm : a.cmatch = b.cmatch ↔ c.cmatch = d.cmatch := by
    rw [hc, hd]
    exact Int.ofNat_inj
  rw [icolCmp_eq_false, icolCmp_eq_zero]
  by_cases h : c.lo = []
  · rw [if_pos h, if_pos (hnil.2 h), hcm]
  · rw [if_neg h, if_neg fun h' => h (hnil.1 h'), hlo]

/-- The name `x`. -/
def Name.x : Name where
  chars := ['x']
  bytes := List.forall_mem_singleton.2 ⟨by decide, by decide⟩

/-- A column, and an element of it. -/
theorem not_tells_element : ¬ Tells ⟨1, []⟩ ⟨1, [Name.x]⟩ := by
  intro h
  have hzero : icolCmp ⟨1, []⟩ ⟨1, [Name.x]⟩ = 0 := by decide
  exact absurd (h.1.1 hzero).2 (List.cons_ne_nil _ _).symm

end AlchemyDB.Query.ColumnCmp
