/-
# The counter of automatic keys after a load

A dump does not hold the counter `ainc` of a table: `initTable` clears it, and
`rdbLoadRow` raises it by the key of each row that it reads.  The key is taken of
`stream`, the address the row was read to.  For a structure and for a row that is where
the key stands, but an entry of a `UU` tree is the word itself: there the address of the
static `UUbuf` is divided, and what was read into it is not looked at.
-/
import AlchemyDB.Rdb.RoundTrip
import AlchemyDB.Rdb.Streams
import AlchemyDB.Table.AutoInc

namespace AlchemyDB.Rdb

open Bytes Format Row Store Weave Index

/-! ## Keys -/

/-- The type of the key of a packed structure, by the flag of the tree. -/
def packedKeys : List (Nat × Row.Num) :=
  [(btflagUintUlong, .u), (btflagUlongUint, .l), (btflagUlongUlong, .l), (btflagUintU128, .u),
   (btflagU128Uint, .x), (btflagUlongU128, .l), (btflagU128Ulong, .x), (btflagU128U128, .x)]

/-- A number as a key. -/
def ofNum : Row.Num → Nat → Aobj
  | .u, n => .int n
  | .l, n => .long n
  | .x, n => .u128 n

/-- `convertStream2Key` of a table: `stream` is an address, where the block stands.  A FLOAT is no
key that is counted. -/
def convertStream2Key (sp : Bts) (stream : Int) (e : Block) : Option Aobj :=
  if sp.uu then some (.int (uuKey stream))
  else
    match packedKeys.find? fun p => sp.bflag &&& p.1 != 0 with
    | some p => some (ofNum p.2 (ofLe (e.take p.2.size)))
    | none =>
        match sp.ktype with
        | .int => some (.int (u32 (sI2I (mem e) 0 true).1))
        | .long => some (.long (sI2I (mem e) 0 false).1)
        | .u128 => some (.u128 (ofLe (e.take 16)))
        | .float => none
        | .string => some (.text ((keyText e).map fun b => Char.ofNat b.toNat))

/-- What `KEYS` gives for an entry of a `UU` tree. -/
def keyWord (e : Block) : Int := wrap64 (ofLe (e.take 8))

/-- The primary key of an entry, as the table reads it. -/
def pkOf (sp : Bts) (e : Block) : Nat := ((convertStream2Key sp (keyWord e) e).map Table.num).getD 0

/-- The greatest primary key of some entries. -/
def largest (sp : Bts) (rows : List Block) : Nat := (rows.map (pkOf sp)).foldr max 0

/-! ## Loading -/

/-- `UPDATE_AUTO_INC` after a row was read: the field of the key is that of the column's type, and
only a number has one. -/
def raiseAinc (pktyp : ColType) (apk : Option Aobj) (ainc : Nat) : Nat :=
  match pktyp, apk with
  | .int, some (.int i) => Table.updateAutoInc (.int i) ainc
  | .long, some (.long l) => Table.updateAutoInc (.long l) ainc
  | .u128, some (.u128 x) => Table.updateAutoInc (.u128 x) ainc
  | _, _ => ainc

/-- `rdbLoadRow`, with the counter of the table; `buf` is the address of `UUbuf`. -/
def rdbLoadRowInc (buf : Int) (pktyp : ColType) (t : Bt Block × Nat) : Load (Bt Block × Nat) := do
  let ssize ← loadLen
  let e ← fread ssize
  if t.1.s.otherBt ∧ ssize ≠ t.1.s.ksize then failure
  else
    match btInsert e 0 t.1 with
    | none => failure
    | some (_, s') => pure (s', raiseAinc pktyp (convertStream2Key t.1.s buf e) t.2)

/-- The loop over the rows in `rdbLoadBT`. -/
def loadRowsInc (buf : Int) (pktyp : ColType) : Nat → Bt Block × Nat → Load (Bt Block × Nat)
  | 0, t => pure t
  | n + 1, t => do
    let t ← rdbLoadRowInc buf pktyp t
    loadRowsInc buf pktyp n t

/-- The counter has no part in what is read. -/
theorem rdbLoadRowInc_tree (buf : Int) (pktyp : ColType) (t : Bt Block × Nat) :
    Prod.fst <$> rdbLoadRowInc buf pktyp t = rdbLoadRow t.1 := by
  unfold rdbLoadRowInc rdbLoadRow
  simp only [map_bind]
  refine bind_congr fun ssize => bind_congr fun e => ?_
  split
  · rfl
  · cases btInsert e 0 t.1 <;> rfl

theorem loadRowsInc_tree (buf : Int) (pktyp : ColType) : ∀ (n : Nat) (t : Bt Block × Nat),
    Prod.fst <$> loadRowsInc buf pktyp n t = loadRows n t.1
  | 0, t => rfl
  | n + 1, t => by
      rw [loadRowsInc, loadRows, map_bind, ← rdbLoadRowInc_tree buf pktyp t, bind_map_left]
      exact bind_congr fun t' => loadRowsInc_tree buf pktyp n t'

/-! ## The key that is taken -/

section Key

variable {k : ColType} {w : Row.Num} {types : List (Option ColType)}

/-- The flag of a packed tree tells the type of its key. -/
theorem packed_key (l : Layout) : ((layoutFlag l &&& btflagUintUint != 0) = true ∧ l.key = .u) ∨
    ((layoutFlag l &&& btflagUintUint != 0) = false ∧
      ∃ f, packedKeys.find? (fun p => layoutFlag l &&& p.1 != 0) = some (f, l.key)) := by
  obtain ⟨a, b⟩ := l
  cases a <;> cases b
  · exact .inl ⟨rfl, rfl⟩
  all_goals exact .inr ⟨rfl, _, rfl⟩

/-- In a tree of numbers the key is a number of its type. -/
theorem key_number (hk : num k = some w) (stream : Int) (e : Block) :
    ∃ n, convertStream2Key (dbtSpec k types) stream e = some (ofNum w n) := by
  have hnorm : ∃ n, convertStream2Key ⟨k, .table, 8, btflagNone⟩ stream e = some (ofNum w n) := by
    rw [convertStream2Key, if_neg (by simp [Bts.uu, btflagNone]),
      show packedKeys.find? (fun p => btflagNone &&& p.1 != 0) = none from rfl]
    cases k <;> cases hk <;> exact ⟨_, rfl⟩
  unfold dbtSpec
  split <;> try split
  · rename_i v l hl
    obtain ⟨w', hw, hl⟩ := Option.bind_eq_some_iff.1 hl
    obtain rfl : w = w' := Option.some.inj (hk.symm.trans hw)
    obtain ⟨v', -, rfl⟩ := Option.map_eq_some_iff.1 hl
    rcases packed_key ⟨w, v'⟩ with ⟨hu, rfl⟩ | ⟨hu, f, hf⟩
    · exact ⟨_, if_pos hu⟩
    · rw [convertStream2Key, if_neg (by rw [Bts.uu, hu]; decide), hf]
      exact ⟨_, rfl⟩
  · exact hnorm
  · exact hnorm

theorem raise_number (hk : num k = some w) (n ainc : Nat) :
    raiseAinc k (some (ofNum w n)) ainc = max ainc n := by
  have h : ∀ a, Table.num a = n → Table.updateAutoInc a ainc = max ainc n := by
    rintro a rfl
    rw [Table.updateAutoInc]
    split <;> omega
  cases k <;> cases hk <;> exact h _ rfl

theorem num_ofNum (w : Row.Num) (n : Nat) : Table.num (ofNum w n) = n := by
  cases w <;> rfl

/-- Outside of `UU` the address does not matter. -/
theorem key_address {sp : Bts} (h : sp.uu = false) (a b : Int) (e : Block) :
    convertStream2Key sp a e = convertStream2Key sp b e := by
  simp [convertStream2Key, h]

/-- A row is raised to the key that the address gives. -/
theorem raise_key (hk : num k = some w) (stream : Int) (e : Block) (ainc : Nat) :
    raiseAinc k (convertStream2Key (dbtSpec k types) stream e) ainc =
      max ainc (((convertStream2Key (dbtSpec k types) stream e).map Table.num).getD 0) := by
  obtain ⟨n, hn⟩ : ∃ n, convertStream2Key (dbtSpec k types) stream e = some (ofNum w n) :=
    key_number hk stream e
  rw [hn, raise_number hk, Option.map_some, num_ofNum, Option.getD_some]

end Key

/-- The number that a key in row storage is. -/
def Key.number : Key → Option Nat
  | .int i => some i.toNat
  | .long l => some l.toNat
  | .u128 x => some x.toNat
  | .float _ | .text _ => none

/-- It is read as it was written. -/
theorem pkOf_stream {k : Key} {n : Nat} (h : k.number = some n) (row : List UInt8) :
    pkOf ⟨k.ktype, .table, 8, btflagNone⟩ (createStream k row) = n := by
  have hs : Stands (mem (createStream k row)) 0 k.bytes :=
    (stands_append.1 (stands_follow (k.bytes ++ row) _)).1
  have hfind : packedKeys.find? (fun p => btflagNone &&& p.1 != 0) = none := rfl
  rw [pkOf, convertStream2Key, if_neg (by simp [Bts.uu, btflagNone]), hfind]
  cases k with
  | int i =>
      cases h
      show u32 (sI2I _ 0 true).1 = _
      rw [sI2I_numBytes i.toNat_lt hs, u32, Nat.mod_eq_of_lt i.toNat_lt]
  | long l =>
      cases h
      show (sI2I _ 0 false).1 = _
      rw [sI2I_numBytes l.toNat_lt hs]
  | u128 x =>
      cases h
      show ofLe ((le 16 x.toNat ++ row).take 16) = _
      rw [List.take_left' (length_le 16 _), ofLe_le]
      exact Nat.mod_eq_of_lt (lt_of_lt_of_eq x.isLt (by norm_num))
  | float f => cases h
  | text s => cases h

/-! ## The counter after the rows -/

/-- The counter after some rows. -/
def counted (buf : Int) (pktyp : ColType) (sp : Bts) (l : List Block) (ainc : Nat) : Nat :=
  l.foldl (fun n e => raiseAinc pktyp (convertStream2Key sp buf e) n) ainc

section Rows

variable {k : ColType} {w : Row.Num} {types : List (Option ColType)} {buf : Int}

theorem rdbLoadRowInc_reads (buf : Int) (pktyp : ColType) {s s' : Bt Block} {e : Block} (hm : Made s.s e)
    (hp : s.s.otherBt = true → e.length = s.s.ksize) (hi : btInsert e 0 s = some ((), s')) (n : Nat) :
    Reads (rdbLoadRowInc buf pktyp (s, n)) (rowBytes e)
      (s', raiseAinc pktyp (convertStream2Key s.s buf e) n) := by
  have h1 := hm.pos
  have h2 := hm.int
  have hlen : Reads loadLen (rdbSaveLen e.length) e.length := reads_len (by unfold lenErr; omega)
  have hread := reads_fread (x := e) (by
    rintro rfl
    exact absurd h1 (Nat.lt_irrefl 0))
  refine hlen.bind (hread.last ?_)
  rw [if_neg (fun h => h.2 (hp h.1)), hi]
  exact reads_pure _

theorem loadRowsInc_reads : ∀ {l l₀ : List Block} {s s' : Bt Block} {n : Nat}, Bagged s l₀ →
    s.s = dbtSpec k types → (∀ e ∈ l, Made (dbtSpec k types) e) → insertAll l s = some s' →
      Reads (loadRowsInc buf k l.length (s, n)) (l.flatMap rowBytes)
        (s', counted buf k (dbtSpec k types) l n)
  | [], _, s, s', n, _, _, _, h => by
      obtain rfl : s = s' := Option.some.inj h
      exact reads_pure (s, n)
  | e :: l, l₀, s, s', n, B, hs, hm, h => by
      obtain ⟨s₁, hi, B₁, hkit, -⟩ := B.insert e
      rw [insertAll, List.foldlM_cons, hi] at h
      have hs₁ : s₁.s = s.s := congrArg (fun r => r.2.2.2) hkit
      have hme := hm e List.mem_cons_self
      have hrow := rdbLoadRowInc_reads buf k
        (hs ▸ hme) (fun ho => by
          rw [hs] at ho ⊢
          rw [← hme.size, packed_size ho]) hi n
      rw [hs] at hrow
      exact hrow.bind
        (loadRowsInc_reads B₁ (hs₁.trans hs) (fun e' he => hm e' (List.mem_cons_of_mem e he)) h)

theorem counted_max (hk : num k = some w) : ∀ (l : List Block) (n : Nat),
    counted buf k (dbtSpec k types) l n = max n ((l.map fun e =>
      ((convertStream2Key (dbtSpec k types) buf e).map Table.num).getD 0).foldr max 0)
  | [], n => (Nat.max_zero n).symm
  | e :: l, n => by
      rw [counted, List.foldl_cons, raise_key hk, List.map_cons, List.foldr_cons, ← Nat.max_assoc]
      exact counted_max hk l _

/-- The rows may be read in any order. -/
theorem largest_perm {sp : Bts} {l l' : List Block} (h : l.Perm l') : largest sp l = largest sp l' :=
  (h.map (pkOf sp)).foldr_op_eq

/-- Outside of `UU` the counter ends at the greatest key. -/
theorem counted_largest (hk : num k = some w) (hu : (dbtSpec k types).uu = false) (l : List Block) :
    counted buf k (dbtSpec k types) l 0 = largest (dbtSpec k types) l := by
  rw [counted_max hk, Nat.zero_max, largest]
  refine congrArg (List.foldr max 0) (List.map_congr_left fun e _ => ?_)
  rw [pkOf, key_address hu buf (keyWord e)]

/-- In `UU` every row raises it to the quotient of the address. -/
theorem counted_address (hk : num k = some w) (hu : (dbtSpec k types).uu = true) (l : List Block) :
    counted buf k (dbtSpec k types) l 0 = if l = [] then 0 else uuKey buf := by
  rw [counted_max hk, Nat.zero_max]
  have hkey : ∀ e, ((convertStream2Key (dbtSpec k types) buf e).map Table.num).getD 0 = uuKey buf := by
    intro e
    rw [convertStream2Key, if_pos hu]
    rfl
  simp only [hkey]
  induction l with
  | nil => rfl
  | cons e l ih =>
      rw [List.map_cons, List.foldr_cons, ih, if_neg (List.cons_ne_nil e l)]
      split_ifs
      · exact Nat.max_zero _
      · exact Nat.max_self _

variable (buf types) in
/-- The counter of a table whose rows were loaded. -/
theorem counted_iff (hk : num k = some w) (l : List Block) :
    counted buf k (dbtSpec k types) l 0 = largest (dbtSpec k types) l ↔
      ((dbtSpec k types).uu = true → l ≠ [] → uuKey buf = largest (dbtSpec k types) l) := by
  cases hu : (dbtSpec k types).uu with
  | false => simp [counted_largest hk hu]
  | true =>
      rw [counted_address hk hu]
      by_cases hl : l = []
      · subst hl
        simp [largest]
      · simp [hl]

end Rows

/-! ## A table that is loaded -/

/-- The type of the tree of a primary key. -/
def pkType : Row.Num → KType
  | .u => .int
  | .l => .long
  | .x => .u128

/-- The rows of a table. -/
def RTbl.rows (rt : RTbl) : List Block := (rt.btr.inorder.getD []).map Prod.fst

/-- The types of the columns of a table. -/
def RTbl.types (rt : RTbl) : List (Option ColType) := rt.col.map fun c => ctype c.type

/-- The counter `ainc` is that of a table whose greatest key is `n`: the key that is assigned next
is the successor. -/
structure Counts (w : Row.Num) (n ainc : Nat) : Prop where
  counter : ainc = n
  next : n + 1 < w.limit → ∃ pk, Table.assignAutoIncPk (pkType w) (Table.advance (pkType w) ainc) = some pk ∧
    Table.num pk = n + 1

theorem counts_self (w : Row.Num) (n : Nat) : Counts w n n := by
  refine ⟨rfl, fun h => ?_⟩
  have hlimit : n + 1 < Table.counterLimit (pkType w) := by
    cases w <;> simp only [Row.Num.limit, Row.Num.size, pkType, Table.counterLimit] at h ⊢ <;> omega
  have ht : pkType w ≠ .text := by cases w <;> simp [pkType]
  rw [Table.advance_eq hlimit ht]
  have hpk : ∃ pk, Table.assignAutoIncPk (pkType w) (n + 1) = some pk := by
    cases w with
    | u =>
        simp only [Row.Num.limit, Row.Num.size] at h
        exact ⟨_, if_pos (by omega)⟩
    | l => exact ⟨_, rfl⟩
    | x => exact ⟨_, rfl⟩
  obtain ⟨pk, hpk⟩ := hpk
  exact ⟨pk, hpk, Table.num_assigned hlimit hpk⟩

section Load

variable (fcmp : List UInt8 → List UInt8 → Int) (buf : Int) {tmatch : Nat} {rt : RTbl} {c : RCol}
  {k : ColType} {w : Row.Num}

/-- What the loop over the saved rows leaves. -/
theorem rows_counted (h : TableOk tmatch rt) (hc : rt.col.head? = some c) (hk : ctype c.type = some k) :
    ∃ bytes s' l, (if rt.btr.numkeys > 0 then rdbSaveAllRows rt.btr.s rt.btr.heap rt.btr.next rt.btr.root
        else some []) = some bytes ∧
      Reads (loadRowsInc buf k rt.btr.numkeys.toNat (createDBT fcmp k rt.types, 0)) bytes
        (s', counted buf k (dbtSpec k rt.types) l 0) ∧
      Restored rt.btr s' ∧ l.Perm rt.rows ∧ rt.btr.s = dbtSpec k rt.types := by
  obtain ⟨c', k', hc', hk', hs⟩ := h.pk
  obtain rfl : c = c' := Option.some.inj (hc.symm.trans hc')
  obtain rfl : k = k' := Option.some.inj (hk.symm.trans hk')
  obtain ⟨rows, B, hm, hn, -⟩ := h.rows
  obtain ⟨l, s', hsave, hlen, hmade, hall, R, cells, hin, hp⟩ := tree_dumped fcmp hs B hm hn
  have B₀ := bagged_create (dbtCmp fcmp (dbtSpec k rt.types)) (dbtSpec k rt.types) false
  refine ⟨l.flatMap rowBytes, s', l, hsave, ?_, R, ?_, hs⟩
  · rw [← hlen]
    exact loadRowsInc_reads B₀ rfl (fun e he => hs ▸ hmade e he) hall
  · rw [RTbl.rows, hin]
    exact hp

/-- The rows of a table with a numeric primary key are saved and loaded.  The counter is then the
greatest key unless the tree is `UU`: there it is what the address of `UUbuf` divides to, as soon
as there is a row. -/
theorem ainc_loaded_iff (h : TableOk tmatch rt) (hc : rt.col.head? = some c) (hk : ctype c.type = some k)
    (hw : num k = some w) :
    ∃ bytes s' ainc, (if rt.btr.numkeys > 0 then
        rdbSaveAllRows rt.btr.s rt.btr.heap rt.btr.next rt.btr.root else some []) = some bytes ∧
      Reads (loadRowsInc buf k rt.btr.numkeys.toNat (createDBT fcmp k rt.types, 0)) bytes (s', ainc) ∧
      Restored rt.btr s' ∧
      (Counts w (largest rt.btr.s rt.rows) ainc ↔
        (rt.btr.s.uu = true → rt.rows ≠ [] → uuKey buf = largest rt.btr.s rt.rows)) := by
  obtain ⟨bytes, s', l, hsave, hread, R, hp, hs⟩ := rows_counted fcmp buf h hc hk
  refine ⟨bytes, s', _, hsave, hread, R, ?_⟩
  have hiff := counted_iff rt.types buf hw l
  have hnil : l = [] ↔ rt.rows = [] := by
    rw [← List.length_eq_zero_iff, ← List.length_eq_zero_iff, hp.length_eq]
  rw [← hs, largest_perm hp, Ne, hnil] at hiff
  rw [← hs, Ne, ← hiff]
  constructor
  · exact fun h => h.counter
  · intro h
    rw [h]
    exact counts_self w _

/-- A table of a number and an INT. -/
def pairTable (k : ColType) (btr : Bt Block) : RTbl :=
  { name := ['t'], vimatch := 0, col := [⟨['a'], typeCode k, true, 0⟩, ⟨['b'], 1, false, -1⟩],
    hashy := false, ilist := [0], nmci := 0, fdict := [], btr := btr }

/-- One row is put into such a table. -/
theorem pairTable_ok (k : ColType) (e : Block) (hp : (dbtSpec k [some k, some .int]).otherBt = true)
    (he : e.length = (dbtSpec k [some k, some .int]).ksize) :
    ∃ btr, TableOk 0 (pairTable k btr) ∧ (pairTable k btr).rows = [e] ∧
      btr.s = dbtSpec k [some k, some .int] := by
  obtain ⟨s', -, B, hkit, hnum⟩ :=
    (bagged_create (dbtCmp (fun _ _ => 0) (dbtSpec k [some k, some .int]))
      (dbtSpec k [some k, some .int]) false).insert e
  have hs : s'.s = dbtSpec k [some k, some .int] := congrArg (fun r => r.2.2.2) hkit
  have hcode : typeCode k < 256 ∧ ctype (typeCode k) = some k := by
    cases k <;> exact ⟨by decide, rfl⟩
  obtain ⟨cells, hin, hperm⟩ := B.inorder
  have hlen : lenErr = 4294967295 := rfl
  refine ⟨s', ⟨by omega, ?_, ?_, ?_, ?_, ⟨_, k, rfl, hcode.2, ?_⟩, [e], B, ?_, hnum, ?_⟩, ?_, hs⟩
  · show 0 < lenErr
    omega
  · show 2 < 2147483648
    omega
  · intro c hc
    rcases List.mem_cons.1 hc with rfl | hc
    · exact hcode.1
    · rw [List.mem_singleton.1 hc]
      show 1 < 256
      omega
  · show [Catalog.fold ['a'], Catalog.fold ['b']].Nodup
    decide
  · show s'.s = dbtSpec k [ctype (typeCode k), some .int]
    rw [hcode.2, hs]
  · intro e' he'
    rw [List.mem_singleton.1 he']
    show Made s'.s e
    rw [hs]
    exact made_packed hp he
  · show 1 < lenErr
    omega
  · rw [RTbl.rows, show (pairTable k s').btr.inorder = some cells from hin]
    exact List.perm_singleton.1 hperm

/-- The counter of a table of a LONG and an INT comes back. -/
theorem ainc_loaded_lu : ∃ rt : RTbl, rt.rows = [le 8 7 ++ le 4 5] ∧
    ∃ bytes s' ainc, Reads (loadRowsInc 6300000 .long rt.btr.numkeys.toNat
        (createDBT (fun _ _ => 0) .long rt.types, 0)) bytes (s', ainc) ∧
      Restored rt.btr s' ∧ Counts .l 7 ainc := by
  obtain ⟨btr, hT, hrows, hs⟩ := pairTable_ok .long (le 8 7 ++ le 4 5) (by decide) (by decide)
  obtain ⟨bytes, s', ainc, -, hread, R, hiff⟩ :=
    ainc_loaded_iff (fun _ _ => 0) 6300000 hT rfl (k := .long) (w := .l) rfl rfl
  have hu : (pairTable .long btr).btr.s.uu = false := by
    rw [show (pairTable .long btr).btr.s = _ from hs]
    decide
  have h := hiff.2 (fun h => absurd (hu.symm.trans h) (by decide))
  rw [hrows, show (pairTable .long btr).btr.s = _ from hs] at h
  exact ⟨_, hrows, bytes, s', ainc, hread, R, h⟩

/-- The row (7, 5) of a table of two INT columns is saved and loaded, and the counter is 0. -/
theorem ainc_lost : ¬ ∀ (fcmp : List UInt8 → List UInt8 → Int) (buf : Int) (tmatch : Nat) (rt : RTbl)
    (c : RCol) (k : ColType) (w : Row.Num), TableOk tmatch rt → rt.col.head? = some c →
      ctype c.type = some k → num k = some w →
      ∃ bytes s' ainc, (if rt.btr.numkeys > 0 then
          rdbSaveAllRows rt.btr.s rt.btr.heap rt.btr.next rt.btr.root else some []) = some bytes ∧
        Reads (loadRowsInc buf k rt.btr.numkeys.toNat (createDBT fcmp k rt.types, 0)) bytes (s', ainc) ∧
        Restored rt.btr s' ∧ Counts w (largest rt.btr.s rt.rows) ainc := by
  intro hall
  obtain ⟨btr, hT, hrows, hs⟩ := pairTable_ok .int (le 8 (7 * 4294967295 + 5)) (by decide) (by decide)
  obtain ⟨bytes, s', ainc, hsave, hread, -, hcount⟩ :=
    hall (fun _ _ => 0) 6300000 0 _ _ .int .u hT rfl rfl rfl
  obtain ⟨bytes', s'', l, hsave', hread', -, hp, -⟩ := rows_counted (fun _ _ => 0) 6300000 hT rfl rfl
  obtain rfl : bytes = bytes' := Option.some.inj (hsave.symm.trans hsave')
  have heq : (s', ainc) = _ := (Prod.mk.inj (Option.some.inj ((hread []).symm.trans (hread' [])))).1
  have hainc : ainc = _ := (Prod.mk.inj heq).2
  have hu : (dbtSpec .int [some .int, some .int]).uu = true := by decide
  rw [counted_address (w := .u) rfl (show (dbtSpec .int (pairTable .int btr).types).uu = true from hu)]
    at hainc
  have h7 := hcount.counter
  rw [hrows, show (pairTable .int btr).btr.s = _ from hs] at h7
  have hlargest : largest (dbtSpec .int [some .int, some .int]) [le 8 (7 * 4294967295 + 5)] = 7 := by
    decide
  rw [hlargest] at h7
  rw [h7] at hainc
  split_ifs at hainc
  exact absurd hainc (by decide)

end Load

end AlchemyDB.Rdb
