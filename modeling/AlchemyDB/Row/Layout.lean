/-
# Packed layouts — tables of two numbers

A table of two columns of numbers has no rows: the value is kept beside its key in
the tree, as a word (`UU`) or as a packed structure (`UL` to `XX`).  A row is then
handed around as a pointer that is sometimes the number itself and sometimes the
address of one of the static structures `UL_CRR` to `XX_CRR`; INSERT and UPDATE
choose differently, and the tree trusts them.

The tree is followed by its reading, the entries in order; a search gives the
entry that compares equal.  To follow a number as if it were an address is the
failure `none`.
-/
import AlchemyDB.Row.Packed

namespace AlchemyDB.Row

open Index

/-! ## Layouts and structures -/

/-- The types of numbers: INT, LONG, U128. -/
inductive Num where
  | u | l | x
  deriving DecidableEq, Repr

namespace Num

/-- Width in bytes. -/
def size : Num → Nat
  | u => 4
  | l => 8
  | x => 16

def limit (n : Num) : Nat := 256 ^ n.size

end Num

/-- The types of the key and of the value. -/
structure Layout where
  key : Num
  val : Num
  deriving DecidableEq, Repr

namespace Layout

def UU : Layout := ⟨.u, .u⟩
def UL : Layout := ⟨.u, .l⟩
def LU : Layout := ⟨.l, .u⟩
def LL : Layout := ⟨.l, .l⟩
def UX : Layout := ⟨.u, .x⟩
def XU : Layout := ⟨.x, .u⟩
def LX : Layout := ⟨.l, .x⟩
def XL : Layout := ⟨.x, .l⟩
def XX : Layout := ⟨.x, .x⟩

end Layout

/-- `void *row`: a number (`UU`), or the address of a structure. -/
inductive RowPtr where
  | num (n : Int)
  | struct (s : Layout) (key val : Nat)
  deriving DecidableEq, Repr

/-- `((t *)row)->val`.  The structures are packed and little endian: the field is cut out of the
bytes that are there, whatever structure they belong to. -/
def RowPtr.val (t : Layout) : RowPtr → Option Nat
  | .num _ => none
  | .struct s k v => some ((k + v * 256 ^ s.key.size) / 256 ^ t.key.size % t.val.limit)

/-- An entry of the tree. -/
inductive Stream where
  | word (w : Int)
  | pair (key val : Nat)
  deriving DecidableEq, Repr

/-- The comparison of the tree: `uuCmp`, or one of `ulCmp` to `xxCmp`, which differ in the type of
the key only. -/
def Stream.cmp : Stream → Stream → Int
  | .word a, .word b => uuCmp a b
  | .pair k _, .pair k' _ => if k = k' then 0 else if k > k' then 1 else -1
  | _, _ => 1

/-- `createBTKey`; the null pointer is no key. -/
def createBTKey (l : Layout) (p : Nat) : Option Stream :=
  if l = .UU then
    (if wrap64 (p * uintMax) = 0 then none else some (.word (wrap64 (p * uintMax))))
  else some (.pair p 0)

/-- `OBT_createStream`. -/
def createStream (l : Layout) (p : Nat) (row : RowPtr) : Option Stream :=
  if l = .UU then
    match row with
    | .num n => some (.word (wrap64 (wrap64 (p * uintMax) + n)))
    | .struct .. => none
  else (row.val l).map (.pair p)

/-- `parseStream`, where a null pointer is no row. -/
def parseStream (l : Layout) : Stream → Option RowPtr
  | .word w => if parseUU w = 0 then none else some (.num (parseUU w))
  | .pair k v => some (.struct l k v)

/-! ## The tree -/

abbrev Tree := List Stream

namespace Tree

/-- The entry that compares equal. -/
def find (k : Stream) (t : Tree) : Option Stream := List.find? (fun s => decide (k.cmp s = 0)) t

/-- `bt_insert`. -/
def insert (s : Stream) : Tree → Tree
  | [] => [s]
  | x :: t => if s.cmp x < 0 then s :: x :: t else x :: insert s t

/-- `bt_replace`. -/
def replace (k s : Stream) : Tree → Tree
  | [] => []
  | x :: t => if k.cmp x = 0 then s :: t else x :: replace k s t

end Tree

def btFindD (l : Layout) (t : Tree) (p : Nat) : Option RowPtr :=
  (createBTKey l p).bind (fun k => (t.find k).bind (parseStream l))

def btAdd (l : Layout) (t : Tree) (p : Nat) (row : RowPtr) : Option Tree :=
  match createBTKey l p with
  | none => some t
  | some _ => (createStream l p row).map (fun s => t.insert s)

def btReplace (l : Layout) (t : Tree) (p : Nat) (row : RowPtr) : Option Tree :=
  match createBTKey l p with
  | none => some t
  | some k => (createStream l p row).map (fun s => t.replace k s)

/-! ## The commands -/

/-- `OBT_createRow`: the number itself in a `UU` table, else the address of the layout's static
structure.  The keys of the static structures are never written. -/
def createRow (l : Layout) (v : Nat) : Option RowPtr :=
  if l = .UU then (if v = 0 then none else some (.num v)) else some (.struct l 0 (v % l.val.limit))

/-- INSERT of `(p, v)`; an error leaves the table as it is. -/
def insertCommit (l : Layout) (t : Tree) (p v : Nat) : Option Tree :=
  if (btFindD l t p).isSome then some t else
    match createRow l v with
    | none => some t
    | some row => btAdd l t p row

/-- The new row of `updateRow`: `XX_CRR` for every value of type U128, else the number itself. -/
def updateRow (l : Layout) (w : Nat) : Option RowPtr :=
  if l.val = .x then some (.struct .XX 0 w) else (if w = 0 then none else some (.num w))

/-- UPDATE of the value of `p` to `w`. -/
def updateAction (l : Layout) (t : Tree) (p w : Nat) : Option Tree :=
  match btFindD l t p with
  | none => some t
  | some _ =>
      match updateRow l w with
      | none => some t
      | some row => btReplace l t p row

/-- `getRC_OBT` of the value column; the values of `XU` go through `colFromUU` too. -/
def getCol (l : Layout) (row : RowPtr) : Option Nat :=
  if l = .UU then
    match row with
    | .num n => some (colFromUU n)
    | .struct .. => none
  else (row.val l).map (fun v : Nat => if l = .XU then colFromUU v else v)

/-- The value column of the row that is found under `p`. -/
def readRow (l : Layout) (t : Tree) (p : Nat) : Option Nat := (btFindD l t p).bind (getCol l)

/-! ## Searching after an addition or a replacement -/

/-- No entry compares equal to `k`. -/
def Tree.Misses (k : Stream) (t : Tree) : Prop := ∀ s ∈ t, k.cmp s ≠ 0

theorem Tree.find_of_misses {k : Stream} {t : Tree} (h : t.Misses k) : t.find k = none := by
  rw [Tree.find, List.find?_eq_none]
  intro s hs
  simpa using h s hs

/-- In front of entries that do not compare equal, an entry is found when it does. -/
theorem Tree.find_cons {k s : Stream} {t : Tree} (h : t.Misses k) :
    Tree.find k (s :: t) = if k.cmp s = 0 then some s else none := by
  rw [Tree.find, List.find?_cons]
  by_cases hs : k.cmp s = 0
  · simp [hs]
  · simp only [hs, decide_false, if_false]
    exact Tree.find_of_misses h

/-- An entry that does not compare equal is passed over. -/
theorem Tree.find_skip {k x : Stream} {t : Tree} (hx : k.cmp x ≠ 0) :
    Tree.find k (x :: t) = t.find k := by
  rw [Tree.find, List.find?_cons]
  simp only [hx, decide_false]
  rfl

theorem Tree.find_insert {k s : Stream} : ∀ {t : Tree}, t.Misses k →
    (t.insert s).find k = if k.cmp s = 0 then some s else none
  | [], hm => by rw [Tree.insert, Tree.find_cons hm]
  | x :: t, hm => by
      have hx : k.cmp x ≠ 0 := hm x (List.mem_cons_self ..)
      have ht : Tree.Misses k t := fun s hs => hm s (List.mem_cons_of_mem _ hs)
      rw [Tree.insert]
      split
      · exact Tree.find_cons hm
      · rw [Tree.find_skip hx]
        exact Tree.find_insert ht

/-- A new entry that is replaced at once leaves no other that compares equal. -/
theorem Tree.find_replace_insert {k s x : Stream} (hk : k.cmp x = 0) : ∀ {t : Tree}, t.Misses k →
    ((t.insert x).replace k s).find k = if k.cmp s = 0 then some s else none
  | [], hm => by rw [Tree.insert, Tree.replace, if_pos hk, Tree.find_cons hm]
  | y :: t, hm => by
      have hy : k.cmp y ≠ 0 := hm y (List.mem_cons_self ..)
      have ht : Tree.Misses k t := fun s hs => hm s (List.mem_cons_of_mem _ hs)
      rw [Tree.insert]
      split
      · rw [Tree.replace, if_pos hk, Tree.find_cons hm]
      · rw [Tree.replace, if_neg hy, Tree.find_skip hy]
        exact Tree.find_replace_insert hk ht

/-! ## What a stored pair reads as -/

/-- The value that is read back when the pointer `row` was stored under `p`: the entry must compare
equal to the key, and must not be taken for a null pointer. -/
def reread (l : Layout) (p : Nat) (row : RowPtr) : Option Nat :=
  (createBTKey l p).bind fun k => (createStream l p row).bind fun s =>
    if k.cmp s = 0 then (parseStream l s).bind (getCol l) else none

theorem readRow_btAdd {l : Layout} {t : Tree} {p : Nat} {row : RowPtr} {t' : Tree}
    (hm : ∀ k, createBTKey l p = some k → t.Misses k) (h : btAdd l t p row = some t') :
    readRow l t' p = reread l p row := by
  rw [btAdd] at h
  cases hk : createBTKey l p with
  | none =>
      rw [readRow, btFindD, reread, hk]
      rfl
  | some k =>
      simp only [hk, Option.map_eq_some_iff] at h
      obtain ⟨s, hs, rfl⟩ := h
      simp only [readRow, btFindD, reread, hk, hs, Option.bind_some, Tree.find_insert (hm k hk)]
      split
      · rfl
      · rfl

theorem readRow_of_misses {l : Layout} {t : Tree} {p : Nat}
    (hm : ∀ k, createBTKey l p = some k → t.Misses k) : btFindD l t p = none := by
  rw [btFindD]
  cases hk : createBTKey l p with
  | none => rfl
  | some k =>
      rw [Option.bind_some, Tree.find_of_misses (hm k hk)]
      rfl

/-- An INSERT keeps its pair when the row it builds is read back. -/
theorem inserted_iff {l : Layout} {t : Tree} {p v : Nat}
    (hm : ∀ k, createBTKey l p = some k → t.Misses k) :
    (∃ t', insertCommit l t p v = some t' ∧ readRow l t' p = some v) ↔
      ∃ row, createRow l v = some row ∧ reread l p row = some v := by
  have hf := readRow_of_misses hm
  simp only [insertCommit, hf, Option.isSome_none, Bool.false_eq_true, if_false]
  cases hr : createRow l v with
  | none =>
      constructor
      · rintro ⟨t', ht, hv⟩
        cases ht
        rw [readRow, hf] at hv
        exact absurd hv (by simp)
      · rintro ⟨row, h, -⟩
        exact absurd h (by simp)
  | some row =>
      constructor
      · rintro ⟨t', ht, hv⟩
        exact ⟨row, rfl, (readRow_btAdd hm ht).symm.trans hv⟩
      · rintro ⟨row', h, hv⟩
        cases h
        cases ha : btAdd l t p row with
        | some t' => exact ⟨t', ha, (readRow_btAdd hm ha).trans hv⟩
        | none =>
            -- a row that is read back has been stored
            rw [reread] at hv
            rw [btAdd] at ha
            cases hk : createBTKey l p with
            | none => simp [hk] at hv
            | some k =>
                simp only [hk, Option.map_eq_none_iff] at ha
                simp [hk, ha] at hv

/-- The entry of a pair that was inserted and reads back. -/
theorem insertCommit_entry {l : Layout} {t t' : Tree} {p v : Nat}
    (hm : ∀ k, createBTKey l p = some k → t.Misses k) (h : insertCommit l t p v = some t')
    (hv : readRow l t' p = some v) :
    ∃ k x, createBTKey l p = some k ∧ k.cmp x = 0 ∧ t' = t.insert x := by
  have hf := readRow_of_misses hm
  simp only [insertCommit, hf, Option.isSome_none, Bool.false_eq_true, if_false] at h
  cases hr : createRow l v with
  | none =>
      rw [hr] at h
      cases h
      rw [readRow, hf] at hv
      exact absurd hv (by simp)
  | some row =>
      simp only [hr] at h
      rw [readRow_btAdd hm h] at hv
      rw [btAdd] at h
      cases hk : createBTKey l p with
      | none => simp [reread, hk] at hv
      | some k =>
          simp only [hk, Option.map_eq_some_iff] at h
          obtain ⟨x, hx, rfl⟩ := h
          refine ⟨k, x, rfl, ?_, rfl⟩
          by_contra hc
          simp [reread, hk, hx, hc] at hv

/-- An UPDATE of such a pair keeps its value when the row it builds is read back, or when it builds
none and the value is the old one. -/
theorem updated_iff {l : Layout} {t t' : Tree} {p v w : Nat}
    (hm : ∀ k, createBTKey l p = some k → t.Misses k) (h : insertCommit l t p v = some t')
    (hv : readRow l t' p = some v) :
    (∃ t'', updateAction l t' p w = some t'' ∧ readRow l t'' p = some w) ↔
      (∃ row, updateRow l w = some row ∧ reread l p row = some w) ∨
        (updateRow l w = none ∧ v = w) := by
  obtain ⟨k, x, hk, hc, rfl⟩ := insertCommit_entry hm h hv
  have hfound : ∃ row, btFindD l (t.insert x) p = some row := by
    rw [readRow, Option.bind_eq_some_iff] at hv
    obtain ⟨row, hr, -⟩ := hv
    exact ⟨row, hr⟩
  obtain ⟨old, ho⟩ := hfound
  simp only [updateAction, ho]
  cases hu : updateRow l w with
  | none => simp [hv]
  | some row =>
      simp only [btReplace, hk, Option.map_eq_some_iff, Option.some.injEq, exists_eq_left',
        reduceCtorEq, false_and, or_false]
      have hread : ∀ s, readRow l ((t.insert x).replace k s) p =
          if k.cmp s = 0 then (parseStream l s).bind (getCol l) else none := by
        intro s
        simp only [readRow, btFindD, hk, Option.bind_some,
          Tree.find_replace_insert hc (hm k hk)]
        split
        · rfl
        · rfl
      constructor
      · rintro ⟨t'', ⟨s, hs, rfl⟩, hw⟩
        rw [hread] at hw
        simp only [reread, hk, hs, Option.bind_some]
        exact hw
      · intro hw
        simp only [reread, hk, Option.bind_some, Option.bind_eq_some_iff] at hw
        obtain ⟨s, hs, hw⟩ := hw
        exact ⟨_, ⟨s, hs, rfl⟩, (hread s).trans hw⟩

/-! ## Which pairs are kept -/

theorem Num.limit_pos (n : Num) : 0 < n.limit := Nat.pow_pos (by decide)

/-- A structure of its own layout gives its value. -/
theorem RowPtr.val_self {l : Layout} {p v : Nat} (hp : p < l.key.limit) (hv : v < l.val.limit) :
    RowPtr.val l (.struct l p v) = some v := by
  have hq : (p + v * 256 ^ l.key.size) / 256 ^ l.key.size = v := by
    rw [Nat.add_mul_div_right _ _ (Nat.pow_pos (by decide)), Nat.div_eq_of_lt (show p < 256 ^ l.key.size from hp),
      Nat.zero_add]
  rw [RowPtr.val, hq, Nat.mod_eq_of_lt hv]

/-- In a tree of structures the value read back is the one cut out of the structure. -/
theorem reread_struct {l s : Layout} {p v : Nat} (hl : l ≠ .UU) (hp : p < l.key.limit) :
    reread l p (.struct s 0 v) =
      (RowPtr.val l (.struct s 0 v)).map (fun v : Nat => if l = .XU then colFromUU v else v) := by
  have hv : v * 256 ^ s.key.size / 256 ^ l.key.size % l.val.limit < l.val.limit :=
    Nat.mod_lt _ l.val.limit_pos
  simp only [reread, createBTKey, createStream, hl, if_false, Option.bind_some, RowPtr.val,
    Option.map_some, Stream.cmp, if_true, parseStream, getCol, Nat.zero_add]
  have hself := RowPtr.val_self hp hv
  rw [RowPtr.val, Option.some.injEq] at hself
  rw [hself]

theorem reread_own {l : Layout} {p v : Nat} (hl : l ≠ .UU) (hp : p < l.key.limit)
    (hv : v < l.val.limit) :
    reread l p (.struct l 0 v) = some (if l = .XU then colFromUU v else v) := by
  rw [reread_struct hl hp, RowPtr.val_self l.key.limit_pos hv]
  rfl

theorem reread_num {l : Layout} {p : Nat} {n : Int} (hl : l ≠ .UU) :
    reread l p (.num n) = none := by
  simp [reread, createBTKey, createStream, hl, RowPtr.val]

/-- `colFromUU` of an INT. -/
theorem colFromUU_eq_iff {v : Nat} (hv : v < 4294967296) : colFromUU v = v ↔ v ≠ 4294967295 := by
  by_cases h : (v : Int) < uintMax
  · have hm := (tdiv_tmod_of_nonneg (z := v) (k := 0) (r := v) (by omega) (by omega) (by omega)
      h).2
    simp only [colFromUU, uuVal, hm]
    simp only [uintMax] at h
    omega
  · have hv' : v = 4294967295 := by simp only [uintMax] at h; omega
    subst hv'
    decide

/-- The word of a key other than 0 is not taken for a null pointer. -/
theorem uuPack_ne_zero {p : Nat} (hp : 0 < p) (hp' : p < 4294967296) : uuPack p 0 ≠ 0 := by
  intro h
  rcases uuPack_cases hp' (show 0 < 4294967296 by decide) with
      (⟨-, -, hd, -⟩ | ⟨-, -, hd, -⟩) | (⟨-, -, hd, -⟩ | ⟨-, -, hd, -⟩) <;>
    · rw [h, Int.zero_tdiv] at hd
      omega

theorem reread_uu_iff {p v : Nat} (hp : 0 < p) (hp' : p < 4294967296) :
    reread .UU p (.num v) = some v ↔
      uuCmp (uuPack p 0) (uuPack p v) = 0 ∧ (uuPack p v).tmod uintMax ≠ 0 ∧
        uuVal (uuPack p v) = v := by
  have hk : wrap64 (p * uintMax) = uuPack p 0 := by simp only [uuPack, wrap64]; omega
  have hn : uuPack p 0 ≠ 0 := uuPack_ne_zero hp hp'
  have hc : createBTKey .UU p = some (.word (uuPack p 0)) := by
    rw [createBTKey, if_pos rfl, hk, if_neg hn]
  have hs : createStream .UU p (.num v) = some (.word (uuPack p v)) := by
    rw [createStream, if_pos rfl, uuPack]
  rw [reread, hc, hs, Option.bind_some, Option.bind_some, Stream.cmp, parseStream]
  by_cases h : uuCmp (uuPack p 0) (uuPack p v) = 0
  · rw [if_pos h]
    by_cases hz : parseUU (uuPack p v) = 0
    · rw [if_pos hz]
      simp only [parseUU] at hz
      simp [hz]
    · rw [if_neg hz, Option.bind_some, getCol, if_pos rfl]
      simp only [colFromUU_parseUU]
      simp only [parseUU] at hz
      simp [h, hz]
  · rw [if_neg h]
    simp [h]

/-- The pairs a `UU` tree reads back. -/
theorem reread_uu {p v : Nat} (hp : p < 4294967296) (hv : v < 4294967296) :
    reread .UU p (.num v) = some v ↔
      0 < p ∧ p ≤ 2147483648 ∧ 0 < v ∧ (v = 4294967295 → p = 2147483648) := by
  rcases Nat.eq_zero_or_pos p with rfl | hp0
  · simp [reread, createBTKey, wrap64]
  rw [reread_uu_iff hp0 hp]
  simp only [uuCmp, int32, uuVal]
  -- the key alone wraps above `2^31`, the pair also at `2^31` when its value is large
  rcases uuPack_cases hp (show 0 < 4294967296 by decide) with
      (⟨hw, -, hd, -⟩ | ⟨-, hm, -⟩) | (⟨-, hm, -⟩ | ⟨hw, -, hd, -⟩)
  · rw [hd]
    rcases uuPack_cases hp hv with (⟨hw', hm', hd', hr'⟩ | ⟨hw', hm', hd', hr'⟩) |
        (⟨hw', hm', hd', hr'⟩ | ⟨hw', hm', hd', hr'⟩) <;>
      · rw [hd', hr']
        omega
  · omega
  · omega
  · rw [hd]
    rcases uuPack_cases hp hv with (⟨hw', hm', hd', hr'⟩ | ⟨hw', hm', hd', hr'⟩) |
        (⟨hw', hm', hd', hr'⟩ | ⟨hw', hm', hd', hr'⟩) <;>
      · rw [hd', hr']
        omega

/-- A shift to the left by half of the width or more leaves no number as it was but 0. -/
theorem shifted_eq_iff {a b w : Nat} (h : b ∣ a) : w * a % (a * b) = w ↔ w = 0 := by
  rw [Nat.mul_comm w a, Nat.mul_mod_mul_left]
  constructor
  · intro he
    have hz : w % b = 0 := by
      conv => lhs; rw [← he]
      exact Nat.mod_eq_zero_of_dvd (Nat.dvd_trans h (Nat.dvd_mul_right a _))
    rw [← he, hz, Nat.mul_zero]
  · rintro rfl
    simp

/-- The structure of the wrong layout is read at the wrong place: only 0 survives. -/
theorem val_xx_iff {l : Layout} {w : Nat} (hl : l.val = .x) (hw : w < l.val.limit) :
    RowPtr.val l (.struct .XX 0 w) = some w ↔ l.key = .x ∨ w = 0 := by
  by_cases hx : l.key = .x
  · have he : l = .XX := by cases l; simp_all [Layout.XX]
    subst he
    exact ⟨fun _ => .inl rfl, fun _ => RowPtr.val_self Num.x.limit_pos hw⟩
  · have h8 : l.key.size ≤ 8 := by
      cases hk : l.key with
      | u => decide
      | l => decide
      | x => exact absurd hk hx
    -- sixteen bytes are the width of the value and the place it is written to
    have hsplit : 256 ^ Num.x.size = 256 ^ (16 - l.key.size) * 256 ^ l.key.size := by
      rw [← Nat.pow_add, Nat.sub_add_cancel (by omega)]
      rfl
    have hq : (0 + w * 256 ^ Layout.XX.key.size) / 256 ^ l.key.size =
        w * 256 ^ (16 - l.key.size) := by
      rw [Nat.zero_add, show Layout.XX.key = .x from rfl, hsplit, ← Nat.mul_assoc,
        Nat.mul_div_cancel _ (Nat.pow_pos (by decide))]
    rw [RowPtr.val, hq, hl, Num.limit, hsplit, Option.some.injEq,
      shifted_eq_iff (Nat.pow_dvd_pow 256 (by omega))]
    simp [hx]

/-- INSERT keeps a pair: every pair but for those a word cannot hold, and the greatest INT under a
U128 key. -/
structure InsertKeeps (l : Layout) (p v : Nat) : Prop where
  uu : l = .UU → 0 < p ∧ p ≤ 2147483648 ∧ 0 < v ∧ (v = 4294967295 → p = 2147483648)
  xu : l = .XU → v ≠ 4294967295

theorem created_iff {l : Layout} {p v : Nat} (hp : p < l.key.limit) (hv : v < l.val.limit) :
    (∃ row, createRow l v = some row ∧ reread l p row = some v) ↔ InsertKeeps l p v := by
  by_cases hl : l = .UU
  · subst hl
    have hu := reread_uu (p := p) (v := v) hp hv
    constructor
    · rintro ⟨row, hr, h⟩
      rw [createRow, if_pos rfl] at hr
      split at hr
      · exact absurd hr (by simp)
      · cases hr
        exact ⟨fun _ => hu.mp h, fun hx => absurd hx (by decide)⟩
    · intro h
      have h0 := h.uu rfl
      exact ⟨.num v, by rw [createRow, if_pos rfl, if_neg (by omega)], hu.mpr h0⟩
  · have hc : createRow l v = some (.struct l 0 v) := by
      rw [createRow, if_neg hl, Nat.mod_eq_of_lt hv]
    simp only [hc, Option.some.injEq, exists_eq_left', reread_own hl hp hv]
    by_cases hx : l = .XU
    · subst hx
      rw [if_pos rfl, colFromUU_eq_iff hv]
      exact ⟨fun h => ⟨fun hl' => absurd hl' hl, fun _ => h⟩, fun h => h.xu rfl⟩
    · rw [if_neg hx]
      exact ⟨fun _ => ⟨fun hl' => absurd hl' hl, fun hx' => absurd hx' hx⟩, fun _ => rfl⟩

/-- UPDATE keeps a value: in `UU` tables as INSERT does; a U128 value in `XX` tables, elsewhere
only 0; any other value is followed as an address, unless it is 0 and the update is dropped. -/
def UpdateKeeps (l : Layout) (p v w : Nat) : Prop :=
  (l = .UU ∧ 0 < w ∧ (w = 4294967295 → p = 2147483648)) ∨
    (l.val = .x ∧ (l.key = .x ∨ w = 0)) ∨ (l.val ≠ .x ∧ l ≠ .UU ∧ v = 0 ∧ w = 0)

theorem rewritten_iff {l : Layout} {p v w : Nat} (hp : p < l.key.limit) (hw : w < l.val.limit)
    (hk : InsertKeeps l p v) :
    ((∃ row, updateRow l w = some row ∧ reread l p row = some w) ∨
      (updateRow l w = none ∧ v = w)) ↔ UpdateKeeps l p v w := by
  by_cases hx : l.val = .x
  · have hl : l ≠ .UU := by rintro rfl; exact absurd hx (by decide)
    have hu : l ≠ .XU := by rintro rfl; exact absurd hx (by decide)
    have hr : updateRow l w = some (.struct .XX 0 w) := by rw [updateRow, if_pos hx]
    simp only [hr, Option.some.injEq, exists_eq_left', reread_struct hl hp, hu, if_false,
      Option.map_id', reduceCtorEq, false_and, or_false, val_xx_iff hx hw, UpdateKeeps, hx, hl,
      true_and, false_or, ne_eq, not_true_eq_false]
  · by_cases hz : w = 0
    · subst hz
      have hr : updateRow l 0 = none := by rw [updateRow, if_neg hx, if_pos rfl]
      simp only [hr, reduceCtorEq, false_and, exists_false, false_or, true_and]
      by_cases hl : l = .UU
      · have h0 := (hk.uu hl).2.2.1
        subst hl
        simp only [UpdateKeeps, hx, Nat.lt_irrefl, false_and, and_false, ne_eq,
          not_true_eq_false, or_false, iff_false]
        omega
      · simp [UpdateKeeps, hx, hl]
    · have hr : updateRow l w = some (.num w) := by rw [updateRow, if_neg hx, if_neg hz]
      simp only [hr, Option.some.injEq, exists_eq_left', reduceCtorEq, false_and, or_false]
      by_cases hl : l = .UU
      · subst hl
        have h0 := hk.uu rfl
        rw [reread_uu hp hw]
        simp only [UpdateKeeps, hx, true_and, false_and, ne_eq, not_true_eq_false,
          not_false_eq_true, or_false]
        omega
      · simp [UpdateKeeps, hx, hl, hz, reread_num hl]

end AlchemyDB.Row
