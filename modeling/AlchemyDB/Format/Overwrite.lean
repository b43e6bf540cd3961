/-
# `updateRow` — a row that is written over

An UPDATE that sets numbers only, none of them indexed and none of them empty, and each to
one of the same width, is written into the row where it is.  Whether the widths are the
same is told by an array of flags, which also says which columns are written.  A U128 has
no flag: it passes the test, and is not written.
-/
import AlchemyDB.Format.Kept

namespace AlchemyDB.Format

open Bytes Row Ahash

/-! ## What an UPDATE sets -/

/-- A value for a column of a type. -/
abbrev Filled (t : CType) : Type := { f : Field // f.ctype = t ∧ f.empty = false }

/-- A column in an UPDATE: not in the SET list, set to a value, or set by an expression from the
value that it has, which may fail. -/
inductive Setting (t : CType) where
  | miss
  | value (f : Filled t)
  | expr (e : Value → Option (Filled t))

/-- A column of the table, and what is set. -/
structure UpCol where
  ctype : CType
  indxd : Bool
  set : Setting ctype

/-- `C_IS_NUM`. -/
def CType.isNum : CType → Bool
  | .int | .long | .u128 => true
  | .float | .text => false

/-- `OVRWR`, for the columns behind the primary key. -/
def ovrwrs (ovrwr : Bool) (c : UpCol) : Bool := ovrwr && c.ctype.isNum && !c.indxd

def Value.num : Value → Nat
  | .int i => i.toNat
  | .long l => l.toNat
  | _ => 0

def Value.isEmpty : Value → Bool
  | .empty => true
  | _ => false

/-- `aobj_sflag`: the flag of the width of a number, and whether there is one.  The flag of a U128 is
left as it was. -/
def aobjSflag (t : CType) (a : Value) : Nat × Bool :=
  if t = .u128 then (0, !a.isEmpty)
  else ((cIcol a.num (t = .int)).sflag, !a.isEmpty)

/-- The first loop of `updateRow` at one column: whether the row may still be written over, the flag
of the column and its new value. -/
def setCol (z : Lzf) (m : Nat → UInt8) (ovrwr : Bool) (i : Nat) (c : UpCol) :
    Option (Bool × Nat × Value) :=
  let old := getRawCol z c.ctype m i
  let s := if ovrwrs ovrwr c then aobjSflag c.ctype old else (0, false)
  match c.set with
  | .miss => some (ovrwr, 0, old)
  | .value f => some (s.2, s.1, f.val.value)
  | .expr e => if old.isEmpty then none else (e old).map fun f => (s.2, s.1, f.val.value)

/-- The first loop, from column number `i` on. -/
def setCols (z : Lzf) (m : Nat → UInt8) : Bool → Nat → List UpCol → Option (Bool × List (Nat × Value))
  | ovrwr, _, [] => some (ovrwr, [])
  | ovrwr, i, c :: cs =>
      (setCol z m ovrwr i c).bind fun r =>
        (setCols z m r.1 (i + 1) cs).map fun s => (s.1, r.2 :: s.2)

/-! ## The row that is written -/

/-- The second loop at one column: the length and the data of a value. -/
def updData : CType → Value → Nat × ColData
  | .int, .int i => Field.data (.int (some i))
  | .int, _ => Field.data (.int none)
  | .long, .long l => Field.data (.long (some l))
  | .long, _ => Field.data (.long none)
  | .u128, .u128 x => Field.data (.u128 (some x))
  | .u128, _ => Field.data (.u128 none)
  | .float, .float f => Field.data (.float (some f))
  | .float, _ => Field.data (.float none)
  | .text, .text s => (s.length, .text s)
  | .text, _ => (0, .text [])

/-- The second loop; a column of length 0 is empty. -/
def updCrds : Nat → List (CType × Value) → List Crd
  | _, [] => []
  | rlen, a :: as =>
      let d := updData a.1 a.2
      ⟨d.2, decide (d.1 = 0), u32 (rlen + d.1)⟩ :: updCrds (u32 (rlen + d.1)) as

/-- The new row, up to `writeRow`: the filled columns are not counted. -/
def newRow (avs : List (CType × Value)) : Cr :=
  let st := avs.rdropWhile fun a => decide ((updData a.1 a.2).1 = 0)
  { rlen := u32 (st.map fun a => (updData a.1 a.2).1).sum
    cnt := 0
    cols := updCrds 0 st }

/-- `crd_t.iflags`, which only numbers set. -/
def ColData.iflags : ColData → Nat
  | num _ iflags _ => iflags
  | _ => 0

/-- The flags of all columns that have one are the flags of the new values. -/
def sameFlags (osflags : List Nat) (crd : List Crd) : Bool :=
  (osflags.zip crd).all fun p => decide (p.1 = 0 ∨ p.1 = p.2.data.iflags)

/-- `updateOverwrite`, from column number `i` on. -/
def updateOverwrite : Nat → List (Nat × Crd) → (Nat → UInt8) → Nat → UInt8
  | _, [], m => m
  | i, (osflag, c) :: cs, m =>
      updateOverwrite (i + 1) cs
        (if osflag ≠ 0 then poke m (getColData m i).1 c.data.bytes else m)

/-- How `updateRow` ends: the row is written over, or a new row is asked for. -/
inductive Updated where
  | overwritten (m : Nat → UInt8)
  | replaced (row : Option (List UInt8))

/-- An UPDATE of a row of a table: whether the table is a normal one without triggers, and whether
the primary key is set. -/
structure Upd where
  norm : Bool
  pk : Bool
  cols : List UpCol

namespace Upd

variable (u : Upd) (zip : Bool) (z : Lzf) (m : Nat → UInt8)

/-- The first loop. -/
def loop : Option (Bool × List (Nat × Value)) := setCols z m (u.norm && !u.pk) 1 u.cols

/-- The values of the columns afterwards. -/
def avs (l : List (Nat × Value)) : List (CType × Value) :=
  (u.cols.map UpCol.ctype).zip (l.map Prod.snd)

/-- The row that the values make. -/
def writes : Option (List UInt8) :=
  (u.loop z m).bind fun s => writeRow zip z (newRow (u.avs s.2))

/-- `updateRow` of the row at address 0. -/
def updateRow : Option Updated :=
  (u.loop z m).map fun s =>
    let crd := updCrds 0 (u.avs s.2)
    if s.1 && sameFlags (s.2.map Prod.fst) crd then
      .overwritten (updateOverwrite 1 ((s.2.map Prod.fst).zip crd) m)
    else .replaced (writeRow zip z (newRow (u.avs s.2)))

/-- In the memory `m'` every column reads as in the row that the values make. -/
def Agrees (m' : Nat → UInt8) : Prop :=
  ∀ row', u.writes zip z m = some row' →
    ∀ (mem : Nat → UInt8) (i : Nat) (h : i < u.cols.length),
      getRawCol z u.cols[i].ctype m' (i + 1) = getRawCol z u.cols[i].ctype (follow row' mem) (i + 1)

/-- The row that the values make would have room, and its texts be read back. -/
def Fresh : Prop :=
  ∀ s, u.loop z m = some s → ∃ zt cr, prepared zip z (newRow (u.avs s.2)) = some (zt, cr) ∧
    Room cr zt ∧ ∀ t ∈ texts (newRow (u.avs s.2)).cols, Short zt t

end Upd

/-! ## The first loop -/

/-- The value that a column is set to. -/
def UpCol.gives (c : UpCol) (old : Value) : Option (Filled c.ctype) :=
  match c.set with
  | .miss => none
  | .value f => some f
  | .expr e => e old

/-- What the first loop says of a column, when the row may be written over after it. -/
inductive Passed (z : Lzf) (m : Nat → UInt8) (i : Nat) (c : UpCol) : Nat × Value → Prop where
  | miss (h : c.gives (getRawCol z c.ctype m i) = none) : Passed z m i c (0, getRawCol z c.ctype m i)
  | hit (f : Filled c.ctype) (hn : c.ctype.isNum = true)
      (he : (getRawCol z c.ctype m i).isEmpty = false)
      (h : c.gives (getRawCol z c.ctype m i) = some f) :
      Passed z m i c ((aobjSflag c.ctype (getRawCol z c.ctype m i)).1, f.val.value)

section Loop

variable {z : Lzf} {m : Nat → UInt8}

theorem aobjSflag_snd (t : CType) (a : Value) : (aobjSflag t a).2 = !a.isEmpty := by
  unfold aobjSflag
  split <;> rfl

theorem setCol_passed {ovrwr : Bool} {i : Nat} {c : UpCol} {p : Nat × Value}
    (h : setCol z m ovrwr i c = some (true, p)) : ovrwr = true ∧ Passed z m i c p := by
  -- a column that is set keeps the row only when it passes `OVRWR` and is not empty
  have key (f : Filled c.ctype) (hg : c.gives (getRawCol z c.ctype m i) = some f)
      (hs : some ((if ovrwrs ovrwr c then aobjSflag c.ctype (getRawCol z c.ctype m i)
          else (0, false)).2, (if ovrwrs ovrwr c then aobjSflag c.ctype (getRawCol z c.ctype m i)
          else (0, false)).1, f.val.value) = some (true, p)) : ovrwr = true ∧ Passed z m i c p := by
    by_cases ho : ovrwrs ovrwr c = true
    · rw [if_pos ho] at hs
      obtain ⟨h2, rfl⟩ := Prod.mk.inj (Option.some.inj hs)
      rw [aobjSflag_snd, Bool.not_eq_true'] at h2
      unfold ovrwrs at ho
      rw [Bool.and_eq_true, Bool.and_eq_true] at ho
      exact ⟨ho.1.1, .hit f ho.1.2 h2 hg⟩
    · rw [if_neg ho] at hs
      cases hs
  unfold setCol at h
  dsimp only at h
  split at h
  · rename_i hset
    cases h
    exact ⟨rfl, .miss (by rw [UpCol.gives, hset])⟩
  · rename_i f hset
    exact key f (by rw [UpCol.gives, hset]) h
  · rename_i e hset
    split at h
    · cases h
    · obtain ⟨f, hf, hs⟩ := Option.map_eq_some_iff.1 h
      exact key f (by rw [UpCol.gives, hset]; exact hf) (by rw [← hs])

/-- The first loop looks at every column. -/
theorem setCols_passed : ∀ {cs : List UpCol} {ovrwr : Bool} {i : Nat} {l : List (Nat × Value)},
    setCols z m ovrwr i cs = some (true, l) → l.length = cs.length ∧ ovrwr = true ∧
      ∀ (j : Nat) (h : j < cs.length) (h' : j < l.length), Passed z m (i + j) cs[j] l[j]
  | [], ovrwr, i, l, h => by
      cases h
      exact ⟨rfl, rfl, fun j h => absurd h (by simp)⟩
  | c :: cs, ovrwr, i, l, h => by
      rw [setCols, Option.bind_eq_some_iff] at h
      obtain ⟨r, hr, h⟩ := h
      obtain ⟨s, hs, he⟩ := Option.map_eq_some_iff.1 h
      obtain ⟨h1, rfl⟩ := Prod.mk.inj he
      obtain ⟨hlen, ho, hall⟩ := setCols_passed (l := s.2) (by rw [hs, ← h1])
      obtain ⟨hov, hp⟩ := setCol_passed (p := r.2) (by rw [hr, ← ho])
      refine ⟨by rw [List.length_cons, List.length_cons, hlen], hov, fun j hj hj' => ?_⟩
      cases j with
      | zero => exact hp
      | succ j =>
          rw [show i + (j + 1) = i + 1 + j by omega]
          exact hall j (by simpa using hj) (by simpa using hj')

end Loop

/-! ## The new row -/

/-- A column and its value, as the second loop has them. -/
def Field.av (f : Field) : CType × Value := (f.ctype, f.value)

theorem updData_field (f : Field) : updData f.ctype f.value = f.data := by
  cases f with
  | int v => cases v <;> rfl
  | long v => cases v <;> rfl
  | u128 v => cases v <;> rfl
  | float v => cases v <;> rfl
  | text v =>
      cases v with
      | none => rfl
      | some s =>
          by_cases hs : s.val = []
          · simp [Field.ctype, Field.value, hs, updData, Field.data]
          · simp [Field.ctype, Field.value, hs, updData, Field.data]

/-- Only a column of length 0 reads as empty. -/
theorem value_of_length {f : Field} (h : f.data.1 = 0) : f.value = .empty := by
  cases f with
  | int v =>
      cases v with
      | none => rfl
      | some i => exact absurd h (length_num (.inl rfl) rfl)
  | long v =>
      cases v with
      | none => rfl
      | some l => exact absurd h (length_num (.inr rfl) rfl)
  | u128 v => cases v <;> simp_all [Field.data, Field.value]
  | float v => cases v <;> simp_all [Field.data, Field.value]
  | text v => cases v <;> simp_all [Field.data, Field.value]

theorem length_of_value {f : Field} (h : f.value = .empty) : f.data.1 = 0 := by
  cases f with
  | int v => cases v <;> simp_all [Field.data, Field.value]
  | long v => cases v <;> simp_all [Field.data, Field.value]
  | u128 v => cases v <;> simp_all [Field.data, Field.value]
  | float v => cases v <;> simp_all [Field.data, Field.value]
  | text v =>
      cases v with
      | none => rfl
      | some s =>
          simp only [Field.value] at h
          split at h
          · rename_i hs
            simp [Field.data, hs]
          · cases h

theorem empty_eq_length {f : Field} (h : f.ctype ≠ .text) : f.empty = decide (f.data.1 = 0) := by
  cases f with
  | int v =>
      cases v with
      | none => rfl
      | some i => exact (decide_eq_false (length_num (.inl rfl) rfl)).symm
  | long v =>
      cases v with
      | none => rfl
      | some l => exact (decide_eq_false (length_num (.inr rfl) rfl)).symm
  | u128 v => cases v <;> rfl
  | float v => cases v <;> rfl
  | text v => exact absurd rfl h

section NewRow

variable {z : Lzf}

@[simp] theorem length_updCrds : ∀ (r : Nat) (as : List (CType × Value)),
    (updCrds r as).length = as.length
  | _, [] => rfl
  | r, a :: as => by simp [updCrds, length_updCrds _ as]

theorem updCrds_get : ∀ (fs : List Field) (r : Nat) {i : Nat} (h : i < (updCrds r (fs.map Field.av)).length)
    (h' : i < fs.length), (updCrds r (fs.map Field.av))[i].data = fs[i].data.2 ∧
      (updCrds r (fs.map Field.av))[i].empty = decide (fs[i].data.1 = 0)
  | f :: fs, r, 0, _, _ => by
      simp only [List.map_cons, updCrds, Field.av, updData_field, List.getElem_cons_zero, and_self]
  | f :: fs, r, i + 1, h, h' => by
      have hi : i < fs.length := by simpa using h'
      simpa [updCrds] using updCrds_get fs _ (by simpa using hi) hi

/-- The length that is counted for a column of the second loop. -/
theorem colLen_updCrds (f : Field) (r : Nat) :
    colLen ⟨f.data.2, decide (f.data.1 = 0), r⟩ = f.data.1 := by
  by_cases ht : f.ctype = .text
  · obtain ⟨s, -, hs⟩ := text_field ht
    rw [← colLen_field f r]
    simp only [colLen, hs]
  · rw [← empty_eq_length ht, colLen_field]

theorem laidFrom_updCrds : ∀ (fs : List Field) (r : Nat),
    LaidFrom r (updCrds (u32 r) (fs.map Field.av))
  | [], _ => trivial
  | f :: fs, r => by
      simp only [List.map_cons, updCrds, Field.av, updData_field, LaidFrom, colLen_updCrds,
        u32_add_u32, true_and]
      exact laidFrom_updCrds fs (r + f.data.1)

theorem total_updCrds : ∀ (fs : List Field) (r : Nat),
    total (updCrds r (fs.map Field.av)) = (fs.map (·.data.1)).sum
  | [], _ => rfl
  | f :: fs, r => by
      simp only [List.map_cons, updCrds, Field.av, updData_field, total_cons, colLen_updCrds,
        total_updCrds fs, List.sum_cons]

/-- The columns that go into a new row. -/
def filled (fs : List Field) : List Field := fs.rdropWhile fun f => decide (f.data.1 = 0)

theorem rdropWhile_map {α β : Type} (g : α → β) (p : β → Bool) (l : List α) :
    (l.map g).rdropWhile p = (l.rdropWhile (p ∘ g)).map g := by
  unfold List.rdropWhile
  rw [← List.map_reverse, List.dropWhile_map, List.map_reverse]

theorem newRow_av (fs : List Field) : newRow (fs.map Field.av) =
    { rlen := u32 ((filled fs).map (·.data.1)).sum, cnt := 0,
      cols := updCrds 0 ((filled fs).map Field.av) } := by
  unfold newRow
  have hp : ((fun a : CType × Value => decide ((updData a.1 a.2).1 = 0)) ∘ Field.av) =
      fun f => decide (f.data.1 = 0) := by
    funext f
    simp only [Function.comp, Field.av, updData_field]
  rw [rdropWhile_map, hp]
  dsimp only
  rw [List.map_map]
  have hl : ((fun a : CType × Value => (updData a.1 a.2).1) ∘ Field.av) = fun f => f.data.1 := by
    funext f
    simp only [Function.comp, Field.av, updData_field]
  rw [hl]
  rfl

theorem laid_newRow (fs : List Field) : Laid (newRow (fs.map Field.av)) := by
  rw [newRow_av]
  exact ⟨laidFrom_updCrds _ 0, by rw [total_updCrds]⟩

theorem carries_newRow (fs : List Field) :
    Carries z .none fs (newRow (fs.map Field.av)).cols := by
  rw [newRow_av]
  have happ : filled fs ++ fs.rtakeWhile (fun f => decide (f.data.1 = 0)) = fs :=
    List.rdropWhile_append_rtakeWhile
  have hle : (filled fs).length ≤ fs.length := (List.rdropWhile_prefix _ _).length_le
  refine ⟨by simpa using hle, fun i h h' => ?_, fun i h' h => ?_⟩
  · have hi : i < (filled fs).length := by simpa using h
    have hf : fs[i] = (filled fs)[i] := by
      rw [List.getElem_of_eq happ.symm h', List.getElem_append_left hi]
    obtain ⟨hd, he⟩ := updCrds_get (filled fs) 0 h hi
    rw [hf]
    unfold Carried
    split
    · rename_i ht
      obtain ⟨s, -, hs⟩ := text_field ht
      exact ⟨s, s, hs, hd.trans hs, packed_none z s, trivial⟩
    · rename_i ht
      exact ⟨hd, he.trans (empty_eq_length ht).symm⟩
  · have hi : (filled fs).length ≤ i := by simpa using h
    refine value_of_length ?_
    have hmem : fs[i] ∈ fs.rtakeWhile (fun f => decide (f.data.1 = 0)) := by
      rw [List.getElem_of_eq happ.symm h', List.getElem_append_right hi]
      exact List.getElem_mem _
    have h0 := List.mem_rtakeWhile_imp (p := fun f : Field => decide (f.data.1 = 0)) hmem
    simpa using h0

theorem emptyLen_newRow (fs : List Field) :
    ∀ c ∈ (newRow (fs.map Field.av)).cols, c.empty = true → colLen c = 0 := by
  rw [newRow_av]
  intro c hc he
  obtain ⟨i, hi, rfl⟩ := List.mem_iff_getElem.1 hc
  have hi' : i < (filled fs).length := by simpa using hi
  obtain ⟨hd, he'⟩ := updCrds_get (filled fs) 0 hi hi'
  generalize (updCrds 0 ((filled fs).map Field.av))[i] = c at he hd he'
  cases c with
  | mk d e r =>
      dsimp only at hd he' he
      rw [hd, he', colLen_updCrds]
      exact of_decide_eq_true (he'.symm.trans he)

/-- No U128 stands empty before a filled column. -/
def NoGap (fs : List Field) : Prop :=
  ∀ (i j : Nat) (h : i < fs.length) (h' : j < fs.length), i ≤ j → fs[i] = .u128 none →
    fs[j].value = .empty

theorem exact_newRow {fs : List Field} (hg : NoGap fs) :
    ∀ c ∈ (newRow (fs.map Field.av)).cols, Exact c := by
  rw [newRow_av]
  intro c hc
  obtain ⟨i, hi, rfl⟩ := List.mem_iff_getElem.1 hc
  have hi' : i < (filled fs).length := by simpa using hi
  obtain ⟨hd, he⟩ := updCrds_get (filled fs) 0 hi hi'
  have happ : filled fs ++ fs.rtakeWhile (fun f => decide (f.data.1 = 0)) = fs :=
    List.rdropWhile_append_rtakeWhile
  have hlen : (filled fs).length ≤ fs.length := (List.rdropWhile_prefix _ _).length_le
  have hne : filled fs ≠ [] := List.ne_nil_of_length_pos (by omega)
  have hget (k : Nat) (hk : k < (filled fs).length) : fs[k] = (filled fs)[k] := by
    rw [List.getElem_of_eq happ.symm (by omega), List.getElem_append_left hk]
  -- the last column that is stored is filled
  have hlast : ((filled fs).getLast hne).data.1 ≠ 0 := by
    have hnot : ¬ decide (((filled fs).getLast hne).data.1 = 0) = true :=
      List.rdropWhile_last_not _ fs hne
    simpa using hnot
  have hne' : (filled fs)[i] ≠ .u128 none := by
    intro h0
    have hv := hg i ((filled fs).length - 1) (by omega) (by omega) (by omega) ((hget i hi').trans h0)
    rw [hget _ (by omega), ← List.getLast_eq_getElem hne] at hv
    exact hlast (length_of_value hv)
  generalize (updCrds 0 ((filled fs).map Field.av))[i] = c at hd he
  cases c with
  | mk d e r =>
      dsimp only at hd he
      subst hd he
      unfold Exact
      rw [colLen_updCrds]
      by_cases ht : (filled fs)[i].ctype = .text
      · obtain ⟨s, -, hs⟩ := text_field ht
        rw [← colLen_field _ r]
        simp only [colLen, hs]
      · have := (exact_field (filled fs)[i] r).2 hne'
        unfold Exact at this
        rwa [colLen_field] at this

/-- The row that an UPDATE writes. -/
theorem kept_newRow (hz : Lossless z) {zip : Bool} {fs : List Field} {zt : Czip} {cr : Cr}
    (hn : fs.length < 4294967296) (hg : NoGap fs)
    (hp : prepared zip z (newRow (fs.map Field.av)) = some (zt, cr)) (hr : Room cr zt)
    (hs : ∀ s ∈ texts (newRow (fs.map Field.av)).cols, Short zt s) : Kept z fs zt cr :=
  kept_of_prepared hz (laid_newRow fs) (exact_newRow hg) (emptyLen_newRow fs) hn (carries_newRow fs)
    hp hr hs

theorem Kept.noGap {fields : List Field} {zt : Czip} {cr : Cr} (hk : Kept z fields zt cr) :
    NoGap fields := by
  intro i j h h' hij h0
  refine hk.carries.rest j h' ?_
  by_contra hlt
  have hi : i < cr.cols.length := by omega
  have hcar := hk.carries.carried i hi h
  unfold Carried at hcar
  rw [if_neg (by rw [h0]; simp [Field.ctype]), h0] at hcar
  have hcol : cr.cols[i] = ⟨(Field.u128 none).data.2, (Field.u128 none).empty, cr.cols[i].mcofsts⟩ := by
    rw [← hcar.1, ← hcar.2]
  have hex := hk.exact _ (List.getElem_mem hi)
  rw [hcol, exact_field] at hex
  exact hex rfl

end NewRow

/-! ## Writing over -/

section Over

variable {z : Lzf} {zt : Czip}

/-- `updateOverwrite` from a column on: what was written so far is carried, and every column with a
flag is a number of the same width. -/
theorem updateOverwrite_run (mem : Nat → UInt8) {gs : List Field} : ∀ (cs : List (Nat × Crd)) (i : Nat)
    {fields : List Field} {cr : Cr} {row : List UInt8}, Kept z fields zt cr →
    writeCols cr zt = some row → gs.length = fields.length → i + cs.length = fields.length →
    (∀ k < i, fields[k]? = gs[k]?) →
    (∀ (j : Nat) (h : j < cs.length) (h₁ : i + j < fields.length) (h₂ : i + j < gs.length),
      (cs[j].1 = 0 ∧ gs[i + j] = fields[i + j]) ∨
        (cs[j].1 ≠ 0 ∧ Swap fields[i + j] gs[i + j] ∧ gs[i + j].data.2 = cs[j].2.data)) →
    ∃ cr' row', Kept z gs zt cr' ∧ writeCols cr' zt = some row' ∧
      updateOverwrite (i + 1) cs (follow row mem) = follow row' mem
  | [], i, fields, cr, row, hk, hw, hlen, hi, hdone, _ => by
      obtain rfl : fields = gs := by
        refine List.ext_getElem? fun k => ?_
        rcases Nat.lt_or_ge k i with h | h
        · exact hdone k h
        · rw [List.length_nil] at hi
          rw [List.getElem?_eq_none (by omega), List.getElem?_eq_none (by omega)]
      exact ⟨cr, row, hk, hw, rfl⟩
  | (o, c) :: cs, i, fields, cr, row, hk, hw, hlen, hi, hdone, hall => by
      rw [List.length_cons] at hi
      have hif : i < fields.length := by omega
      have hig : i < gs.length := by omega
      rcases hall 0 (by simp) hif hig with ⟨h0, hg⟩ | ⟨h0, hs, hd⟩
      · obtain rfl : o = 0 := h0
        rw [updateOverwrite, if_neg (by simp)]
        refine updateOverwrite_run mem cs (i + 1) hk hw hlen (by omega) (fun k hlt => ?_)
          fun j hj h₁ h₂ => ?_
        · rcases Nat.lt_succ_iff_lt_or_eq.1 hlt with h | rfl
          · exact hdone k h
          · rw [List.getElem?_eq_getElem hif, List.getElem?_eq_getElem hig]
            exact congrArg some hg.symm
        · have := hall (j + 1) (by simpa using hj) (by omega) (by omega)
          simpa only [show i + (j + 1) = i + 1 + j by omega, List.getElem_cons_succ] using this
      · replace h0 : o ≠ 0 := h0
        replace hs : Swap fields[i] gs[i] := hs
        obtain ⟨cr', row', hk', hw', hpoke⟩ := hk.swap hw hif hs
        have hlen' : (fields.set i gs[i]).length = fields.length := List.length_set
        rw [updateOverwrite, if_pos h0, ← show gs[i].data.2 = c.data from hd, hpoke mem]
        refine updateOverwrite_run mem cs (i + 1) hk' hw' (by omega) (by omega) (fun k hlt => ?_)
          fun j hj h₁ h₂ => ?_
        · rcases Nat.lt_succ_iff_lt_or_eq.1 hlt with h | rfl
          · rw [List.getElem?_set_ne (by omega)]
            exact hdone k h
          · rw [List.getElem?_set_self hif, List.getElem?_eq_getElem hig]
        · have := hall (j + 1) (by simpa using hj) (by omega) (by omega)
          simp only [show i + (j + 1) = i + 1 + j by omega, List.getElem_cons_succ] at this
          rwa [List.getElem_set_ne (by omega)]

/-- A flag is a width. -/
theorem sflag_ne (l : Nat) (isi : Bool) : (cIcol l isi).sflag ≠ 0 := by
  unfold cIcol
  split_ifs <;> simp

/-- The length that a flag stands for. -/
theorem len_eq_sflag (l : Nat) (isi : Bool) : (cIcol l isi).len =
    if (cIcol l isi).sflag = 32 then (if isi then 5 else 9)
    else if (cIcol l isi).sflag = 16 then 8
    else if (cIcol l isi).sflag = 8 then 6 else (cIcol l isi).sflag := by
  unfold cIcol
  by_cases h7 : l < 128
  · rw [if_pos h7]
    rfl
  rw [if_neg h7]
  by_cases h14 : l < 16384
  · rw [if_pos h14]
    rfl
  rw [if_neg h14]
  by_cases h29 : l < 536870912
  · rw [if_pos h29]
    rfl
  rw [if_neg h29]
  cases isi with
  | true => rfl
  | false =>
      rw [if_neg Bool.false_ne_true]
      by_cases h44 : l < 17592186044416
      · rw [if_pos h44]
        rfl
      rw [if_neg h44]
      by_cases h59 : l < 576460752303423488
      · rw [if_pos h59]
        rfl
      · rw [if_neg h59]
        rfl

theorem len_of_sflag {a b : Nat} {isi : Bool} (h : (cIcol a isi).sflag = (cIcol b isi).sflag) :
    (cIcol a isi).len = (cIcol b isi).len := by
  rw [len_eq_sflag a, len_eq_sflag b, h]

/-- What a column holds after an UPDATE. -/
def UpCol.target (c : UpCol) (f : Field) : Field := ((c.gives f.value).map Subtype.val).getD f

/-- What it holds when the row is written over. -/
def UpCol.overwritten (c : UpCol) (f : Field) : Field := if c.ctype = .u128 then f else c.target f

/-- A column that is set, and a flag that is met: a U128 has no flag, and an INT or a LONG is set to
one of the same width. -/
theorem over_step {c : UpCol} {f : Field} {m : Nat → UInt8} {i : Nat} {p : Nat × Value}
    (hc : c.ctype = f.ctype) (hr : getRawCol z c.ctype m i = f.value) (hp : Passed z m i c p)
    (hflag : p.1 = 0 ∨ p.1 = (c.target f).data.2.iflags) :
    p.2 = (c.target f).value ∧ ((p.1 = 0 ∧ c.overwritten f = f) ∨
      (p.1 ≠ 0 ∧ Swap f (c.overwritten f) ∧ c.overwritten f = c.target f)) := by
  unfold UpCol.overwritten
  cases hp with
  | miss h =>
      rw [hr] at h ⊢
      have ht : c.target f = f := by rw [UpCol.target, h]; rfl
      rw [ht, ite_self]
      exact ⟨rfl, .inl ⟨rfl, rfl⟩⟩
  | hit g hn he h =>
      rw [hr] at h he hflag ⊢
      have ht : c.target f = g.val := by rw [UpCol.target, h]; rfl
      rw [ht] at hflag ⊢
      refine ⟨rfl, ?_⟩
      have hg : g.val.ctype = f.ctype ∧ g.val.empty = false := ⟨g.2.1.trans hc, g.2.2⟩
      dsimp only at hflag ⊢
      by_cases hx : c.ctype = .u128
      · exact .inl ⟨by simp [aobjSflag, hx], if_pos hx⟩
      · rw [if_neg hx]
        rw [hc] at hx hn
        have hflag' : (aobjSflag c.ctype f.value).1 = (cIcol f.value.num (f.ctype = .int)).sflag := by
          simp only [aobjSflag, hc, hx, if_false]
        rw [hflag'] at hflag ⊢
        have hsame := hflag.resolve_left (sflag_ne _ _)
        refine .inr ⟨sflag_ne _ _, ?_, rfl⟩
        generalize g.val = g' at hg hsame
        obtain ⟨hgt, hge⟩ := hg
        cases f with
        | int v =>
            cases v with
            | none => simp [Field.value, Value.isEmpty] at he
            | some a =>
                cases g' with
                | int w =>
                    cases w with
                    | none => simp [Field.empty] at hge
                    | some b => exact ⟨rfl, .inl rfl, ⟨rfl, rfl⟩, (len_of_sflag hsame).symm⟩
                | long w => cases hgt
                | u128 w => cases hgt
                | float w => cases hgt
                | text w => cases hgt
        | long v =>
            cases v with
            | none => simp [Field.value, Value.isEmpty] at he
            | some a =>
                cases g' with
                | long w =>
                    cases w with
                    | none => simp [Field.empty] at hge
                    | some b => exact ⟨rfl, .inr rfl, ⟨rfl, rfl⟩, (len_of_sflag hsame).symm⟩
                | int w => cases hgt
                | u128 w => cases hgt
                | float w => cases hgt
                | text w => cases hgt
        | u128 v => exact absurd rfl hx
        | float v => simp [Field.ctype, CType.isNum] at hn
        | text v => simp [Field.ctype, CType.isNum] at hn

theorem target_ctype {c : UpCol} {f : Field} (hc : c.ctype = f.ctype) :
    (c.target f).ctype = c.ctype := by
  unfold UpCol.target
  cases h : c.gives f.value with
  | none => exact hc.symm
  | some g => exact g.2.1

theorem over_ctype {c : UpCol} {f : Field} (hc : c.ctype = f.ctype) : (c.overwritten f).ctype = c.ctype := by
  unfold UpCol.overwritten
  split
  · exact hc.symm
  · exact target_ctype hc

/-- An empty column is not set, or the row is not written over. -/
theorem target_of_empty {c : UpCol} {f : Field} {m : Nat → UInt8} {i : Nat} {p : Nat × Value}
    (hr : getRawCol z c.ctype m i = f.value) (hp : Passed z m i c p) (he : f.value = .empty) :
    c.target f = f := by
  cases hp with
  | miss h =>
      rw [hr] at h
      rw [UpCol.target, h]
      rfl
  | hit g hn hne h =>
      rw [hr, he] at hne
      cases hne

theorem target_unset {c : UpCol} {f : Field} (h : c.target f = .u128 none) : f = .u128 none := by
  unfold UpCol.target at h
  cases hg : c.gives f.value with
  | none => rwa [hg] at h
  | some g =>
      rw [hg] at h
      have hv : g.val = .u128 none := h
      have he := g.2.2
      rw [hv] at he
      cases he

/-- A U128 is told by its value. -/
theorem u128_of_value {f g : Field} (hf : f.ctype = .u128) (hg : g.ctype = .u128)
    (h : f.value = g.value) : f = g := by
  cases f with
  | u128 v =>
      cases g with
      | u128 w => cases v <;> cases w <;> simp_all [Field.value]
      | int w => cases hg
      | long w => cases hg
      | float w => cases hg
      | text w => cases hg
  | int v => cases hf
  | long v => cases hf
  | float v => cases hf
  | text v => cases hf

end Over

/-! ## The theorem -/

section Row

variable {zip : Bool} {z : Lzf} {u : Upd} {fields : List Field} {zt : Czip} {cr : Cr}
  {row : List UInt8} {m m' : Nat → UInt8}

/-- When the row is written over, the first loop let it pass and the flags were the same. -/
theorem Upd.overwritten (h : u.updateRow zip z m = some (.overwritten m')) :
    ∃ l, u.loop z m = some (true, l) ∧ sameFlags (l.map Prod.fst) (updCrds 0 (u.avs l)) = true ∧
      m' = updateOverwrite 1 ((l.map Prod.fst).zip (updCrds 0 (u.avs l))) m := by
  obtain ⟨⟨b, l⟩, hl, he⟩ := Option.map_eq_some_iff.1 h
  dsimp only at he
  split at he
  · rename_i hb
    rw [Bool.and_eq_true] at hb
    obtain rfl : b = true := hb.1
    cases he
    exact ⟨l, hl, hb.2, rfl⟩
  · cases he

/-- The columns after the UPDATE, and after the row was written over. -/
def Upd.targets (u : Upd) (fields : List Field) : List Field := u.cols.zipWith UpCol.target fields

def Upd.overs (u : Upd) (fields : List Field) : List Field := u.cols.zipWith UpCol.overwritten fields

/-- A row that is written over still carries columns of the table: those that are set, but for the
U128s among them. -/
theorem Upd.over_kept (hz : Lossless z) (hk : Kept z fields zt cr) (hw : writeCols cr zt = some row)
    (ht : u.cols.map UpCol.ctype = fields.map Field.ctype) {mem : Nat → UInt8}
    (h : u.updateRow zip z (follow row mem) = some (.overwritten m')) :
    ∃ l, u.loop z (follow row mem) = some (true, l) ∧ u.avs l = (u.targets fields).map Field.av ∧
      NoGap (u.targets fields) ∧
      ∃ cr' row', Kept z (u.overs fields) zt cr' ∧ writeCols cr' zt = some row' ∧
        m' = follow row' mem := by
  obtain ⟨l, hl, hsame, rfl⟩ := Upd.overwritten h
  obtain ⟨hlen, -, hpass⟩ := setCols_passed hl
  have hcf : u.cols.length = fields.length := by simpa using congrArg List.length ht
  have hct (j : Nat) (h : j < u.cols.length) (h' : j < fields.length) :
      u.cols[j].ctype = fields[j].ctype := by
    have := List.getElem_of_eq ht (by simpa using h)
    simpa using this
  have hr (j : Nat) (h : j < u.cols.length) (h' : j < fields.length) :
      getRawCol z u.cols[j].ctype (follow row mem) (1 + j) = fields[j].value := by
    rw [hct j h h', Nat.add_comm 1 j]
    exact hk.reads hz hw mem h'
  have htl : (u.targets fields).length = fields.length := by simp [Upd.targets, hcf]
  have hol : (u.overs fields).length = fields.length := by simp [Upd.overs, hcf]
  have htg (j : Nat) (h : j < u.cols.length) (h' : j < fields.length)
      (h₂ : j < (u.targets fields).length) : (u.targets fields)[j] = u.cols[j].target fields[j] := by
    simp [Upd.targets]
  have hog (j : Nat) (h : j < u.cols.length) (h' : j < fields.length)
      (h₂ : j < (u.overs fields).length) : (u.overs fields)[j] = u.cols[j].overwritten fields[j] := by
    simp [Upd.overs]
  -- the values do not wait for the flags
  have hval (j : Nat) (h : j < u.cols.length) (h' : j < fields.length) (h₂ : j < l.length) :
      l[j].2 = (u.cols[j].target fields[j]).value := by
    have hp := hpass j h h₂
    have hrj := hr j h h'
    generalize l[j] = p at hp
    cases hp with
    | miss hm =>
        rw [hrj] at hm ⊢
        rw [UpCol.target, hm]
        rfl
    | hit g hn he hg =>
        rw [hrj] at hg
        rw [UpCol.target, hg]
        rfl
  have havs : u.avs l = (u.targets fields).map Field.av := by
    refine List.ext_getElem (by simp [Upd.avs, hlen, htl, hcf]) fun j h₁ h₂ => ?_
    have hj : j < fields.length := by simpa [htl] using h₂
    have hjc : j < u.cols.length := by omega
    have hjl : j < l.length := by omega
    simp only [Upd.avs, List.getElem_zip, List.getElem_map, Field.av]
    rw [htg j hjc hj, target_ctype (hct j hjc hj), hval j hjc hj hjl]
  have hgap : NoGap (u.targets fields) := by
    intro i j h h' hij h0
    rw [htl] at h h'
    rw [htg i (by omega) h] at h0
    have he := hk.noGap i j h h' hij (target_unset h0)
    rw [htg j (by omega) h', target_of_empty (hr j (by omega) h') (hpass j (by omega) (by omega)) he]
    exact he
  refine ⟨l, hl, havs, hgap, ?_⟩
  rw [havs] at hsame ⊢
  have hcl : (updCrds 0 ((u.targets fields).map Field.av)).length = fields.length := by
    rw [length_updCrds, List.length_map, htl]
  refine updateOverwrite_run mem _ 0 hk hw hol ?_ (fun k hk => absurd hk (Nat.not_lt_zero k))
    fun j h h₁ h₂ => ?_
  · rw [List.length_zip, List.length_map, hcl, hlen, hcf, Nat.min_self, Nat.zero_add]
  · simp only [Nat.zero_add] at h₁ h₂ ⊢
    have hjc : j < u.cols.length := by omega
    have hjl : j < l.length := by omega
    have hju : j < (updCrds 0 ((u.targets fields).map Field.av)).length := by omega
    obtain ⟨hd, -⟩ := updCrds_get (u.targets fields) 0 hju (by omega)
    rw [htg j hjc h₁] at hd
    have hflag : l[j].1 = 0 ∨ l[j].1 = (u.cols[j].target fields[j]).data.2.iflags := by
      have hall := List.all_eq_true.1 hsame (l[j].1, (updCrds 0 ((u.targets fields).map Field.av))[j])
        (List.mem_iff_getElem.2 ⟨j, by
          rw [List.length_zip, List.length_map]
          omega, by simp⟩)
      have := of_decide_eq_true hall
      dsimp only at this
      rwa [hd] at this
    obtain ⟨-, hcase⟩ := over_step (hct j hjc h₁) (hr j hjc h₁) (hpass j hjc hjl) hflag
    rw [hog j hjc h₁]
    simp only [List.getElem_zip, List.getElem_map]
    rcases hcase with ⟨h0, ho⟩ | ⟨h0, hs, ho⟩
    · exact .inl ⟨h0, ho⟩
    · exact .inr ⟨h0, hs, by rw [ho, hd]⟩

/-- A row that is written over reads as the new row just when every U128 that is set is set to the
value that it has. -/
theorem overwrite_agrees_iff (hz : Lossless z) (hk : Kept z fields zt cr)
    (hw : writeCols cr zt = some row) (hn : fields.length < 4294967296)
    (ht : u.cols.map UpCol.ctype = fields.map Field.ctype) {mem : Nat → UInt8}
    (hf : u.Fresh zip z (follow row mem))
    (h : u.updateRow zip z (follow row mem) = some (.overwritten m')) :
    u.Agrees zip z (follow row mem) m' ↔
      ∀ (i : Nat) (h : i < u.cols.length) (h' : i < fields.length) (g : Filled u.cols[i].ctype),
        u.cols[i].ctype = .u128 → u.cols[i].gives fields[i].value = some g → g.val = fields[i] := by
  obtain ⟨l, hl, havs, hgap, cr', row', hk', hw', rfl⟩ := Upd.over_kept hz hk hw ht h
  have hcf : u.cols.length = fields.length := by simpa using congrArg List.length ht
  have hct (j : Nat) (h : j < u.cols.length) (h' : j < fields.length) :
      u.cols[j].ctype = fields[j].ctype := by
    have := List.getElem_of_eq ht (by simpa using h)
    simpa using this
  have htl : (u.targets fields).length = fields.length := by simp [Upd.targets, hcf]
  have hol : (u.overs fields).length = fields.length := by simp [Upd.overs, hcf]
  -- the new row carries what is set
  obtain ⟨zt₂, cr₂, hp, hroom, hshort⟩ := hf _ hl
  rw [havs] at hp hshort
  have hk₂ := kept_newRow hz (by omega) hgap hp hroom hshort
  obtain ⟨row₂, hw₂⟩ := hk₂.written
  have hwrites : u.writes zip z (follow row mem) = some row₂ := by
    rw [Upd.writes, hl, Option.bind_some, havs, writeRow_prepared, hp, Option.bind_some]
    exact hw₂
  have hover (mem' : Nat → UInt8) (i : Nat) (hi : i < u.cols.length) (hi' : i < fields.length) :
      getRawCol z u.cols[i].ctype (follow row' mem') (i + 1) =
        (u.cols[i].overwritten fields[i]).value := by
    have hr := hk'.reads hz hw' mem' (i := i) (by omega)
    have hg : (u.overs fields)[i] = u.cols[i].overwritten fields[i] := by simp [Upd.overs]
    rwa [hg, over_ctype (hct i hi hi')] at hr
  have hnew (mem' : Nat → UInt8) (i : Nat) (hi : i < u.cols.length) (hi' : i < fields.length) :
      getRawCol z u.cols[i].ctype (follow row₂ mem') (i + 1) =
        (u.cols[i].target fields[i]).value := by
    have hr := hk₂.reads hz hw₂ mem' (i := i) (by omega)
    have hg : (u.targets fields)[i] = u.cols[i].target fields[i] := by simp [Upd.targets]
    rwa [hg, target_ctype (hct i hi hi')] at hr
  constructor
  · intro hag i hi hi' g hx hg
    have hsame := hag row₂ hwrites mem i hi
    rw [hover _ i hi hi', hnew _ i hi hi', UpCol.overwritten, if_pos hx, UpCol.target, hg] at hsame
    exact (u128_of_value ((hct i hi hi').symm.trans hx) (g.2.1.trans hx) hsame).symm
  · intro hall row₃ hw₃ mem' i hi
    have hi' : i < fields.length := by omega
    obtain rfl : row₂ = row₃ := Option.some.inj (hwrites.symm.trans hw₃)
    rw [hover _ i hi hi', hnew _ i hi hi', UpCol.overwritten]
    split
    · rename_i hx
      unfold UpCol.target
      cases hg : u.cols[i].gives fields[i].value with
      | none => rfl
      | some g =>
          have := hall i hi hi' g hx hg
          exact congrArg Field.value this.symm
    · rfl

end Row

/-! ## Two rows -/

/-- Without compression. -/
def noLzf : Lzf := ⟨fun _ _ => none, fun _ _ => none⟩

theorem noLzf_lossless : Lossless noLzf where
  back s n c h := by cases h
  nil n := rfl
  bound c n s h := by cases h

theorem two_chars : ([104, 105] : List UInt8).length < 4294967296 := by decide

/-- An INT, a U128 and a TEXT. -/
def mixedRow : List Field := [.int (some 5), .u128 (some 9), .text (some ⟨[104, 105], two_chars⟩)]

/-- Sets the INT and the U128. -/
def setMixed (i : UInt32) (x : BitVec 128) : Upd where
  norm := true
  pk := false
  cols := [⟨.int, false, .value ⟨.int (some i), rfl, rfl⟩⟩,
    ⟨.u128, false, .value ⟨.u128 (some x), rfl, rfl⟩⟩, ⟨.text, false, .miss⟩]

/-- The row in memory. -/
def mixedBytes : List UInt8 :=
  [1, 7, 1, 17, 19, 11, 9, 0, 0, 0, 0, 0, 0, 0, 0, 0, 0, 0, 0, 0, 0, 0, 104, 105]

theorem mixed_written : writeCols (createRow mixedRow) .none = some mixedBytes := by decide

theorem mixed_kept : Kept noLzf mixedRow .none (createRow mixedRow) :=
  kept_createRow noLzf_lossless (by decide)
    (fun f hf e => by
      have hmem := mem_stored hf
      rw [e] at hmem
      simp [mixedRow] at hmem)
    (show prepared false _ _ = _ from rfl) (room_small (by decide) (by decide) (by decide))
    fun _ _ => trivial

/-- What the first loop finds when the INT is set to 7. -/
theorem mixed_loop (x : BitVec 128) : (setMixed 7 x).loop noLzf (follow mixedBytes fun _ => 0) =
    some (true, [(1, .int 7), (0, .u128 x), (0, .text [104, 105])]) := by
  have h1 : getRawCol noLzf .int (follow mixedBytes fun _ => 0) 1 = .int 5 := by decide
  have h2 : getRawCol noLzf .u128 (follow mixedBytes fun _ => 0) 2 = .u128 9 := by decide
  have h3 : getRawCol noLzf .text (follow mixedBytes fun _ => 0) 3 = .text [104, 105] := by
    decide
  simp only [Upd.loop, setMixed, setCols, setCol, h1, h2, h3]
  rfl

/-- The columns of the new row. -/
def mixedCrd (x : BitVec 128) : List Crd :=
  updCrds 0 [(.int, .int 7), (.u128, .u128 x), (.text, .text [104, 105])]

theorem mixed_overwritten (x : BitVec 128) :
    (setMixed 7 x).updateRow false noLzf (follow mixedBytes fun _ => 0) =
      some (.overwritten (updateOverwrite 1 ([1, 0, 0].zip (mixedCrd x))
        (follow mixedBytes fun _ => 0))) := by
  rw [Upd.updateRow, mixed_loop]
  rfl

theorem mixed_fresh : (setMixed 7 9).Fresh false noLzf (follow mixedBytes fun _ => 0) := by
  intro s hs
  rw [mixed_loop] at hs
  cases hs
  exact ⟨.none, _, rfl, room_small (by decide) (by decide) (by decide), fun _ _ => trivial⟩

/-- An INT and a U128 are set, the U128 to what it is. -/
theorem overwrite_agrees_mixed :
    (setMixed 7 9).Agrees false noLzf (follow mixedBytes fun _ => 0)
        (updateOverwrite 1 ([1, 0, 0].zip (mixedCrd 9)) (follow mixedBytes fun _ => 0)) ↔
      ∀ (i : Nat) (h : i < (setMixed 7 9).cols.length) (h' : i < mixedRow.length)
        (g : Filled (setMixed 7 9).cols[i].ctype), (setMixed 7 9).cols[i].ctype = .u128 →
        (setMixed 7 9).cols[i].gives mixedRow[i].value = some g → g.val = mixedRow[i] :=
  overwrite_agrees_iff noLzf_lossless mixed_kept mixed_written (by decide) rfl mixed_fresh
    (mixed_overwritten 9)

/-- An INT and a U128 are set, and the U128 keeps its value. -/
theorem u128_not_overwritten : ¬ ∀ (zip : Bool) (z : Lzf) (fields : List Field) (zt : Czip) (cr : Cr)
    (row : List UInt8) (u : Upd) (mem m' : Nat → UInt8), Kept z fields zt cr →
    writeCols cr zt = some row → u.cols.map UpCol.ctype = fields.map Field.ctype →
    u.updateRow zip z (follow row mem) = some (.overwritten m') →
    u.Agrees zip z (follow row mem) m' := by
  intro h
  have hag := h false noLzf mixedRow .none _ mixedBytes (setMixed 7 10) (fun _ => 0) _ mixed_kept
    mixed_written rfl (mixed_overwritten 10)
  have hw : (setMixed 7 10).writes false noLzf (follow mixedBytes fun _ => 0) =
      some [1, 7, 1, 17, 19, 15, 10, 0, 0, 0, 0, 0, 0, 0, 0, 0, 0, 0, 0, 0, 0, 0, 104, 105] := by
    rw [Upd.writes, mixed_loop]
    decide
  have hold : getRawCol noLzf .u128 (updateOverwrite 1 ([1, 0, 0].zip (mixedCrd 10))
      (follow mixedBytes fun _ => 0)) 2 = .u128 9 := by
    decide
  have hnew : getRawCol noLzf .u128 (follow [1, 7, 1, 17, 19, 15, 10, 0, 0, 0, 0, 0, 0, 0, 0, 0, 0, 0,
      0, 0, 0, 0, 104, 105] fun _ => 0) 2 = .u128 10 := by
    decide
  have hsame := hag _ hw (fun _ => 0) 1 (by decide)
  exact absurd (hold.symm.trans (hsame.trans hnew)) (by decide)

end AlchemyDB.Format
