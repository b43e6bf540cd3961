/-
# `AlchemyDB.BTree.LogTable` — the remembered logarithms

`_log2` of `bt_code.c` keeps what `real_log2` returned in a static table of bytes that
all trees share, although `real_log2` is given the number of bits of one tree.  A tree
of fan-out 7 works with 4 bits and one of fan-out 255 with 16, and either may be the
first to ask for a logarithm.  Every entry that a search leaves behind is nevertheless
the logarithm itself, since a node has fewer slots than the bits of its tree allow; so
`findkindex` finds the same slot with the table as without.
-/
import AlchemyDB.BTree.Runs

namespace AlchemyDB

variable {α κ : Type}

/-! ## The table -/

/-- The static `table` of `_log2`; its length is `alloced`, and `-1` marks an entry that
nobody has asked for. -/
abbrev LogTable := List Int8

/-- `_log2`: the entry of `a`, computed when it is asked for the first time. -/
def log2Cached (a nbits : Nat) (table : LogTable) : Int × LogTable :=
  let table := if table.length ≤ a
    then table ++ List.replicate (a + 1 - table.length) (-1) else table
  let table := if table.getD a 0 = -1
    then table.set a (Int8.ofNat (realLog2 a nbits)) else table
  ((table.getD a 0).toInt, table)

/-- The loop of `findkindex` with the table. -/
def findkLoopCached (cmp : α → α → Int) (nbits : Nat) (keys : Nat → α) (k : α) :
    Nat → Nat → Nat → LogTable → Nat × LogTable
  | 0, _, i, table => (i, table)
  | fuel + 1, a, i, table =>
    if a = 0 then (i, table)
    else
      let got := log2Cached a nbits table
      let b := got.1.toNat
      if cmp k (keys (2 ^ b + i)) < 0 then
        findkLoopCached cmp nbits keys k fuel (2 ^ b - 1) i got.2
      else findkLoopCached cmp nbits keys k fuel (a - 2 ^ b) (i ||| 2 ^ b) got.2

/-- `findkindex` with the table: the slot, `*r`, and the table afterwards. -/
def findkindexCached (b : Bt α) (nd : BtN α) (k : α) (table : LogTable) :
    (Int × Int) × LogTable :=
  if nd.n = 0 then ((-1, -1), table)
  else
    let got := findkLoopCached b.cmp b.nbits nd.keys k nd.n (nd.n - 1) 0 table
    let i := got.1
    let r := b.cmp k (nd.keys i)
    (if r < 0 then ((i : Int) - 1, r) else (i, r), got.2)

/-- The number of bits `bt_create` computes for a fan-out. -/
def Trans.nbits : Trans → Nat
  | .one => 4
  | .two => 16

/-- The tree has the fan-out and the bits that `bt_create` gave it. -/
structure Trans.Made (tr : Trans) (b : Bt α) : Prop where
  t : b.t = tr.t
  nbits : b.nbits = tr.nbits

theorem btCreate_made [Inhabited α] (cmp : α → α → Int) (tr : Trans) (sp : Bts)
    (dirty : Bool) : tr.Made (btCreate cmp tr sp dirty) := by
  cases tr with
  | one => exact ⟨rfl, rfl⟩
  | two => exact ⟨rfl, rfl⟩

/-- The logarithms of such a tree are right. -/
theorem Trans.Made.log {tr : Trans} {b : Bt α} (h : tr.Made b) : LogOk b.t b.nbits := by
  have hc : tr.Made (btCreate Cell.cmp tr tableBts false) := btCreate_made _ _ _ _
  rw [h.t, h.nbits, ← hc.t, ← hc.nbits]
  exact btCreate_log _ _ _ _

theorem Trans.t_le : ∀ tr : Trans, tr.t ≤ 128
  | .one => by decide
  | .two => by decide

/-! ## What the table holds -/

/-- Entry by entry, the table holds `-1` or the logarithm. -/
def LogTable.Right (table : LogTable) : Prop :=
  ∀ a e, table[a]? = some e → e = -1 ∨ e = Int8.ofNat (Nat.log2 a)

theorem LogTable.right_nil : LogTable.Right [] := by
  intro a e h
  cases h

/-- The entries that `realloc` adds are unasked ones. -/
theorem LogTable.Right.grow {table : LogTable} (h : table.Right) (n : Nat) :
    LogTable.Right (table ++ List.replicate n (-1)) := by
  intro a e he
  rw [List.getElem?_append] at he
  split_ifs at he with hlt
  · exact h a e he
  · rw [List.getElem?_replicate] at he
    split_ifs at he
    exact Or.inl (Option.some.inj he).symm

theorem LogTable.Right.set {table : LogTable} (h : table.Right) (a : Nat) :
    LogTable.Right (table.set a (Int8.ofNat (Nat.log2 a))) := by
  intro j e he
  rw [List.getElem?_set] at he
  split_ifs at he with hj hlt
  · subst hj
    exact Or.inr (Option.some.inj he).symm
  · exact h j e he

/-- A logarithm of a number below 256 fits a byte. -/
theorem log2_byte {a : Nat} (h0 : 0 < a) (ha : a < 256) :
    (Int8.ofNat (Nat.log2 a)).toInt = Nat.log2 a := by
  have h8 : Nat.log2 a < 8 := (Nat.log2_lt (by omega)).2 ha
  exact Int8.toInt_ofNat_of_lt (by omega)

/-- A byte that is a logarithm is not the mark of an unasked entry. -/
theorem log2_ne_mark {a : Nat} (h0 : 0 < a) (ha : a < 256) :
    Int8.ofNat (Nat.log2 a) ≠ -1 := by
  intro h
  have hv := log2_byte h0 ha
  rw [h] at hv
  have hm : (-1 : Int8).toInt = -1 := by decide
  omega

/-- `_log2` on a number the search of a node needs: the logarithm, and a table that is
still right. -/
theorem log2Cached_eq {table : LogTable} (h : table.Right) {a nbits : Nat} (h0 : 0 < a)
    (ha : a < 256) (hl : realLog2 a nbits = Nat.log2 a) :
    (log2Cached a nbits table).1 = Nat.log2 a ∧ (log2Cached a nbits table).2.Right := by
  unfold log2Cached
  rw [hl]
  -- the table after `realloc`
  have hgrown : ∃ T : LogTable, (if table.length ≤ a
      then table ++ List.replicate (a + 1 - table.length) (-1) else table) = T ∧
      T.Right ∧ a < T.length := by
    refine ⟨_, rfl, ?_⟩
    split_ifs with hle
    · refine ⟨h.grow _, ?_⟩
      rw [List.length_append, List.length_replicate]
      omega
    · exact ⟨h, by omega⟩
  obtain ⟨T, hT, hr, hlen⟩ := hgrown
  simp only [hT]
  have hget : T[a]? = some (T.getD a 0) := by
    rw [List.getD_eq_getElem?_getD, List.getElem?_eq_getElem hlen]
    rfl
  split_ifs with hmark
  · refine ⟨?_, hr.set a⟩
    rw [List.getD_eq_getElem?_getD, List.getElem?_set_self hlen]
    exact log2_byte h0 ha
  · rcases hr a _ hget with he | he
    · exact absurd he hmark
    · exact ⟨by rw [he, log2_byte h0 ha], hr⟩

/-! ## The search with the table -/

/-- With a right table the loop goes the way it goes without, and leaves a right table. -/
theorem findkLoopCached_eq {t nbits : Nat} (hl : LogOk t nbits) (ht : t ≤ 128)
    {cmp : α → α → Int} {keys : Nat → α} {k : α} :
    ∀ (fuel a i : Nat) (table : LogTable), a < 2 * t - 1 → table.Right →
      (findkLoopCached cmp nbits keys k fuel a i table).1 = findkLoop cmp nbits keys k fuel a i ∧
        (findkLoopCached cmp nbits keys k fuel a i table).2.Right := by
  intro fuel
  induction fuel with
  | zero =>
      intro a i table ha hr
      exact ⟨rfl, hr⟩
  | succ fuel ih =>
      intro a i table ha hr
      by_cases h0 : a = 0
      · subst h0
        rw [findkLoopCached, if_pos rfl, findkLoop, if_pos rfl]
        exact ⟨rfl, hr⟩
      have hlog : realLog2 a nbits = Nat.log2 a := hl a (by omega) ha
      obtain ⟨hv, hr'⟩ := log2Cached_eq hr (Nat.pos_of_ne_zero h0) (by omega) hlog
      have hle : 2 ^ Nat.log2 a ≤ a := Nat.log2_self_le h0
      have hpos : 0 < 2 ^ Nat.log2 a := Nat.two_pow_pos _
      rw [findkLoopCached, if_neg h0, findkLoop, if_neg h0, log2, hlog]
      simp only [hv, Int.toNat_natCast]
      split_ifs with hc
      · exact ih _ _ _ (by omega) hr'
      · exact ih _ _ _ (by omega) hr'

/-- The table changes nothing about what `findkindex` returns. -/
theorem findkindexCached_eq {b : Bt α} {tr : Trans} (hb : tr.Made b) {nd : BtN α}
    (hn : nd.n ≤ 2 * b.t - 1) (k : α) {table : LogTable} (hr : table.Right) :
    (findkindexCached b nd k table).1 = findkindex b nd k ∧
      (findkindexCached b nd k table).2.Right := by
  by_cases h0 : nd.n = 0
  · rw [findkindexCached, if_pos h0, findkindex, if_pos h0]
    exact ⟨rfl, hr⟩
  · have ht : b.t ≤ 128 := hb.t ▸ tr.t_le
    obtain ⟨hi, hr'⟩ : (findkLoopCached b.cmp b.nbits nd.keys k nd.n (nd.n - 1) 0 table).1 =
        findkLoop b.cmp b.nbits nd.keys k nd.n (nd.n - 1) 0 ∧
        (findkLoopCached b.cmp b.nbits nd.keys k nd.n (nd.n - 1) 0 table).2.Right :=
      findkLoopCached_eq hb.log ht _ _ _ _ (by omega) hr
    rw [findkindexCached, if_neg h0, findkindex, if_neg h0]
    simp only [hi]
    exact ⟨trivial, hr'⟩

/-! ## Tables that searches leave behind -/

/-- A table as the searches of any trees, one after the other, leave it: over any keys,
with any comparator, in nodes no larger than the fan-out of their tree. -/
inductive Filled : LogTable → Prop
  | start : Filled []
  | search {α : Type} {b : Bt α} {tr : Trans} {nd : BtN α} (k : α) {table : LogTable} :
      tr.Made b → nd.n ≤ 2 * b.t - 1 → Filled table →
      Filled (findkindexCached b nd k table).2

theorem Filled.right {table : LogTable} (h : Filled table) : table.Right := by
  induction h with
  | start => exact LogTable.right_nil
  | search k hb hn _ ih => exact (findkindexCached_eq hb hn k ih).2

/-- What `findkindex` is to return: the last slot whose key is at most `k`, with `r` zero
when they are equal and positive when not, or `-1` with a negative `r`. -/
inductive LastAtMost [LinearOrder κ] (key : α → κ) (nd : BtN α) (k : α) (r : Int) : Int → Prop
  | none : r < 0 → (∀ j < nd.n, key k < key (nd.keys j)) → LastAtMost key nd k r (-1)
  | slot {i : Nat} : i < nd.n → key (nd.keys i) ≤ key k →
      (∀ j, i < j → j < nd.n → key k < key (nd.keys j)) →
      (r = 0 ↔ key (nd.keys i) = key k) → (0 < r ↔ key (nd.keys i) < key k) →
      LastAtMost key nd k r i

theorem findkindexCached_lastAtMost [LinearOrder κ] {b : Bt α} {tr : Trans} (hb : tr.Made b)
    {key : α → κ} (C : CmpOk b.cmp key) {nd : BtN α} (h1 : 1 ≤ nd.n) (hn : nd.n ≤ 2 * b.t - 1)
    (hs : ∀ i j, i < j → j < nd.n → b.cmp (nd.keys i) (nd.keys j) < 0) (k : α)
    {table : LogTable} (hT : Filled table) :
    LastAtMost key nd k (findkindexCached b nd k table).1.2 (findkindexCached b nd k table).1.1 := by
  rw [(findkindexCached_eq hb hn k hT.right).1]
  have hle : ∀ i j, i ≤ j → j < nd.n → key (nd.keys i) ≤ key (nd.keys j) := by
    intro i j hij hj
    rcases Nat.eq_or_lt_of_le hij with rfl | hlt
    · exact le_refl _
    · exact le_of_lt ((C.lt _ _).1 (hs i j hlt hj))
  obtain ⟨m, F⟩ := findkindex_found C hb.log hn hle k
  by_cases hr : (findkindex b nd k).2 < 0
  · -- the comparison with slot 0 was negative: there is no such slot
    have hneg := findkindex_neg C hb.log hn hle hr
    have hm : m = 0 := by have := F.slot; omega
    have hret : (findkindex b nd k).1 = -1 := by rw [F.slot, hm]; rfl
    rw [hret]
    exact .none hr fun j hj => F.above j (by omega) hj
  · have hnn := findkindex_nonneg (by omega) hr
    have hm : 0 < m := by have := F.slot; omega
    have hret : (findkindex b nd k).1 = ((m - 1 : Nat) : Int) := by rw [F.slot]; omega
    have hk : key (nd.keys (m - 1)) ≤ key k := F.below (m - 1) (by omega)
    have hzero : (findkindex b nd k).2 = 0 ↔ key (nd.keys (m - 1)) = key k :=
      F.hit.trans (and_iff_right hm)
    have hfits := F.fits
    rw [hret]
    refine .slot (by omega) hk (fun j hj hjn => F.above j (by omega) hjn) hzero ?_
    have hlt : key (nd.keys (m - 1)) < key k ↔ ¬ key (nd.keys (m - 1)) = key k :=
      ⟨fun h => ne_of_lt h, fun h => lt_of_le_of_ne hk h⟩
    rw [hlt, ← hzero]
    omega

/-- A leaf with the keys `0, 10, 20, …`. -/
def tens (n : Nat) : BtN Cell :=
  { scion := n, n := n, leaf := true, dirty := -1, ndirty := 0, keys := fun i => row (10 * i),
    nodes := fun _ => 0, ds := fun _ => 0 }

/-- The table after a search of a leaf of seven keys, in a tree of fan-out 7. -/
def tableAfter : LogTable :=
  (findkindexCached (btCreate Cell.cmp .one tableBts false) (tens 7) (row 35) []).2

example : tableAfter = [-1, 0, -1, 1, -1, -1, 2] := by decide

theorem findkindexCached_tens :
    LastAtMost Cell.num (tens 200) (row 1234)
      (findkindexCached (btCreate Cell.cmp .two tableBts false) (tens 200) (row 1234) tableAfter).1.2
      (findkindexCached (btCreate Cell.cmp .two tableBts false) (tens 200) (row 1234) tableAfter).1.1 := by
  have hstep : ∀ i j, i < j → j < (tens 200).n →
      Cell.cmp ((tens 200).keys i) ((tens 200).keys j) < 0 := by
    intro i j hij _
    refine (Cell.cmpOk.lt _ _).2 ?_
    show 10 * i < 10 * j
    omega
  have hn : (tens 200).n ≤ 2 * (btCreate Cell.cmp .two tableBts false).t - 1 := by decide
  have hn7 : (tens 7).n ≤ 2 * (btCreate Cell.cmp .one tableBts false).t - 1 := by decide
  exact findkindexCached_lastAtMost (btCreate_made Cell.cmp .two tableBts false) Cell.cmpOk
    (by decide) hn hstep (row 1234)
    (.search (row 35) (btCreate_made Cell.cmp .one tableBts false) hn7 .start)

end AlchemyDB
