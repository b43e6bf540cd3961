/-
# `rdb_alsosql.c`, rows — what is written of a tree, and the tree that is read

Every entry of a table's tree is a block of bytes: a stream in row storage, the word of
a `UU` slot, or one of the packed structures.  `rdbSaveAllRows` writes the keys of a node
before the nodes below it, so the rows come back in another order than that of the tree,
and are put into a new tree one by one.
-/
import AlchemyDB.BTree.Unordered
import AlchemyDB.Format.Read
import AlchemyDB.Row.Layout
import AlchemyDB.Rdb.File

namespace AlchemyDB.Rdb

open Bytes Format Row Store Weave

/-! ## Blocks -/

/-- The bytes an entry of a tree is. -/
abbrev Block := List UInt8

/-- The memory at a block. -/
def mem (e : Block) : Nat → UInt8 := follow e (fun _ => 0)

/-- `skipToVal`: the length of the key in front of a row. -/
def skipToVal (ktype : ColType) (m : Nat → UInt8) : Nat :=
  match ktype with
  | .int => (sI2I m 0 true).2
  | .long => (sI2I m 0 false).2
  | .u128 => 16
  | .float => 4
  | .string => if (m 0).toNat &&& 1 ≠ 0 then (m 0).toNat / 2 + 1 else ofLe (peek m 0 4) / 2 + 4

/-- The sizes of the packed structures, by the flag of the tree. -/
def packedSizes : List (Nat × Nat) :=
  [(btflagUintUint, 8), (btflagUintUlong, 12), (btflagUlongUint, 12), (btflagUlongUlong, 16),
   (btflagUintU128, 20), (btflagU128Uint, 20), (btflagUlongU128, 24), (btflagU128Ulong, 24),
   (btflagU128U128, 32)]

/-- `getStreamRowSize`. -/
def getStreamRowSize (sp : Bts) (e : Block) : Nat :=
  if sp.normBt then
    let klen := skipToVal sp.ktype (mem e)
    u32 (klen + getRowMallocSize fun i => mem e (klen + i))
  else if sp.inode then 0
  else ((packedSizes.find? fun p => sp.bflag &&& p.1 != 0).map (·.2)).getD lenErr

/-- A block that `createStream` has made: it is as long as the stream in it says, and no longer
than an `int` can tell. -/
structure Made (sp : Bts) (e : Block) : Prop where
  size : getStreamRowSize sp e = e.length
  pos : 0 < e.length
  int : e.length < 2147483648

/-! ## A new tree -/

/-- The numbers a packed structure can hold. -/
def num : ColType → Option Row.Num
  | .int => some .u
  | .long => some .l
  | .u128 => some .x
  | .string | .float => none

/-- The flag of `createUUBT` to `createXXBT`. -/
def layoutFlag : Layout → Nat
  | ⟨.u, .u⟩ => btflagUintUint
  | ⟨.u, .l⟩ => btflagUintUlong
  | ⟨.l, .u⟩ => btflagUlongUint
  | ⟨.l, .l⟩ => btflagUlongUlong
  | ⟨.u, .x⟩ => btflagUintU128
  | ⟨.x, .u⟩ => btflagU128Uint
  | ⟨.l, .x⟩ => btflagUlongU128
  | ⟨.x, .l⟩ => btflagU128Ulong
  | ⟨.x, .x⟩ => btflagU128U128

/-- The two types a packed table has. -/
def layoutOf (ktype : ColType) (vtype : Option ColType) : Option Layout :=
  (num ktype).bind fun k => (vtype.bind num).map fun v => ⟨k, v⟩

/-- `createDBT`: the specification of the tree of a table. -/
def dbtSpec (ktype : ColType) (types : List (Option ColType)) : Bts :=
  match types with
  | [_, vtype] =>
      match layoutOf ktype vtype with
      | some l => ⟨ktype, .table, l.key.size + l.val.size, layoutFlag l⟩
      | none => ⟨ktype, .table, 8, btflagNone⟩
  | _ => ⟨ktype, .table, 8, btflagNone⟩

/-- `key1 == key2 ? 0 : (key1 > key2) ? 1 : -1`. -/
def cmpNat (a b : Nat) : Int := if a = b then 0 else if a > b then 1 else -1

/-- `strncmp`, by its sign. -/
def strncmp : Nat → List UInt8 → List UInt8 → Int
  | n + 1, a :: s, b :: t =>
      if a ≠ b then cmpNat a.toNat b.toNat else if a = 0 then 0 else strncmp n s t
  | _, _, _ => 0

/-- The text of a key: `getTString` or `getString`. -/
def keyText (e : Block) : List UInt8 :=
  let n := skipToVal .string (mem e)
  if (mem e 0).toNat &&& 1 ≠ 0 then peek (mem e) 1 (n - 1) else peek (mem e) 4 (n - 4)

/-- `btTextCmp`. -/
def btTextCmp (a b : Block) : Int :=
  let s := keyText a
  let t := keyText b
  let r := strncmp (min s.length t.length) s t
  if r = 0 ∧ s.length ≠ t.length then (if s.length < t.length then -1 else 1) else r

/-- `uuCmp` to `xxCmp`: the first field, of a `UU` entry the word as a `long`. -/
def packedCmp (k : Row.Num) (uu : Bool) (a b : Block) : Int :=
  if uu then uuCmp (Index.wrap64 (ofLe (a.take 8))) (Index.wrap64 (ofLe (b.take 8)))
  else cmpNat (ofLe (a.take k.size)) (ofLe (b.take k.size))

/-- The comparison `createDBT` gives to a tree; `fcmp` is that of two `float`s. -/
def dbtCmp (fcmp : List UInt8 → List UInt8 → Int) (sp : Bts) (a b : Block) : Int :=
  match num sp.ktype, sp.normBt with
  | some k, false => packedCmp k sp.uu a b
  | _, _ =>
      match sp.ktype with
      | .int => cmpNat (u32 (sI2I (mem a) 0 true).1) (u32 (sI2I (mem b) 0 true).1)
      | .long => cmpNat (sI2I (mem a) 0 false).1 (sI2I (mem b) 0 false).1
      | .u128 => cmpNat (ofLe (a.take 16)) (ofLe (b.take 16))
      | .float => fcmp (a.take 4) (b.take 4)
      | .string => btTextCmp a b

/-- `createDBT`. -/
def createDBT (fcmp : List UInt8 → List UInt8 → Int) (ktype : ColType) (types : List (Option ColType)) :
    Bt Block :=
  btCreate (dbtCmp fcmp (dbtSpec ktype types)) .one (dbtSpec ktype types) false

/-! ## Saving and loading -/

/-- One row of `rdbSaveAllRows`; a block is not read beyond its end. -/
def saveRow (sp : Bts) (e : Block) : Option (List UInt8) :=
  let ssize := getStreamRowSize sp e
  if ssize = 0 ∨ e.length < ssize ∨ 2147483648 ≤ ssize then none
  else some (rdbSaveLen ssize ++ e.take ssize)

/-- `rdbSaveAllRows`. -/
def rdbSaveAllRows (sp : Bts) (h : Nat → Option (BtN Block)) : Nat → Nat → Option (List UInt8)
  | 0, _ => none
  | fuel + 1, x =>
      match h x with
      | none => none
      | some nd => do
          let own ← (List.range nd.n).mapM fun i => saveRow sp (nd.keys i)
          if nd.leaf then pure own.flatten
          else do
            let below ← (List.range (nd.n + 1)).mapM fun i => rdbSaveAllRows sp h fuel (nd.nodes i)
            pure (own.flatten ++ below.flatten)

/-- `rdbLoadRow`.  The static buffer of a packed layout is as long as the structure. -/
def rdbLoadRow (s : Bt Block) : Load (Bt Block) := do
  let ssize ← loadLen
  let e ← fread ssize
  if s.s.otherBt ∧ ssize ≠ s.s.ksize then failure
  else
    match btInsert e 0 s with
    | none => failure
    | some (_, s') => pure s'

/-- The loop over the rows in `rdbLoadBT`. -/
def loadRows : Nat → Bt Block → Load (Bt Block)
  | 0, s => pure s
  | n + 1, s => do
    let s ← rdbLoadRow s
    loadRows n s

/-! ## The rows of a table -/

/-- The keys of a node before those below it, as `rdbSaveAllRows` meets them. -/
def preorder {α : Type} : {d : Nat} → Sub α d → List α
  | _, .nil => []
  | _, .node _ nd kid =>
      (List.range nd.n).map nd.keys ++ (List.range (nd.n + 1)).flatMap fun j => preorder (kid j)

theorem weave_perm {β : Type} (e : Nat → β) (F : Nat → List β) :
    ∀ n, (weave n e F).Perm ((List.range n).map e ++ (List.range (n + 1)).flatMap F)
  | 0 => by simp [weave, right]
  | n + 1 => by
      have h : weave (n + 1) e F = weave n e F ++ e n :: F (n + 1) := by
        rw [weave, weave, right_add, List.append_assoc]
        simp [right]
      rw [h, List.range_succ, List.map_append, List.range_succ (n := n + 1), List.flatMap_append]
      simp only [List.map_cons, List.map_nil, List.flatMap_cons, List.flatMap_nil, List.append_nil,
        List.append_assoc, List.singleton_append]
      have ih := weave_perm e F n
      calc (weave n e F ++ e n :: F (n + 1)).Perm
              ((List.range n).map e ++ (List.range (n + 1)).flatMap F ++ e n :: F (n + 1)) :=
            ih.append_right _
        _ = (List.range n).map e ++ ((List.range (n + 1)).flatMap F ++ e n :: F (n + 1)) :=
            List.append_assoc _ _ _
        _ |>.Perm ((List.range n).map e ++ e n :: ((List.range (n + 1)).flatMap F ++ F (n + 1))) :=
            List.perm_middle.append_left _

theorem preorder_perm {α : Type} : ∀ {d : Nat} (T : Sub α d), (preorder T).Perm T.keys
  | _, .nil => .refl _
  | _, .node a nd kid => by
      rw [Sub.keys_node, preorder]
      refine .trans (.append_left _ ?_) (weave_perm nd.keys (fun j => (kid j).keys) nd.n).symm
      exact List.Perm.flatMap_left _ fun j _ => preorder_perm (kid j)

/-- What is written for a row. -/
def rowBytes (e : Block) : List UInt8 := rdbSaveLen e.length ++ e

variable {sp : Bts} {e : Block}

theorem Made.save (h : Made sp e) : saveRow sp e = some (rowBytes e) := by
  have h1 := h.pos
  have h2 := h.int
  rw [saveRow, h.size, if_neg (by omega), List.take_length]
  rfl

theorem saveAllRows_eq {h : Nat → Option (BtN Block)} : ∀ {d : Nat} {T : Sub Block (d + 1)} {fuel : Nat},
    AlchemyDB.Stored h T → d < fuel → (∀ e ∈ preorder T, Made sp e) →
      rdbSaveAllRows sp h fuel T.addr = some ((preorder T).flatMap rowBytes)
  | d, .node a nd kid, fuel, hs, hf, hm => by
      obtain ⟨f, rfl⟩ : ∃ f, fuel = f + 1 := ⟨fuel - 1, by omega⟩
      obtain ⟨hlive, hleaf, hlink, hkids⟩ := hs
      have hown : ((List.range nd.n).mapM fun i => saveRow sp (nd.keys i)) =
          some ((List.range nd.n).map fun i => rowBytes (nd.keys i)) :=
        mapM_all fun j hj => (hm _ (List.mem_append_left _ (List.mem_map_of_mem hj))).save
      simp only [rdbSaveAllRows, Sub.addr_node, hlive, hown, preorder, List.flatMap_append]
      rw [Option.bind_eq_bind, Option.bind_some]
      have hflat : ((List.range nd.n).map fun i => rowBytes (nd.keys i)).flatten =
          ((List.range nd.n).map nd.keys).flatMap rowBytes := by
        rw [List.flatMap_def, List.map_map]
        rfl
      cases d with
      | zero =>
          have hnil : (List.range (nd.n + 1)).flatMap (fun j => preorder (kid j)) = [] := by
            refine List.flatMap_eq_nil_iff.2 fun j _ => ?_
            cases kid j
            rfl
          rw [if_pos (hleaf.2 rfl), hflat, hnil]
          simp
      | succ d =>
          rw [if_neg (fun h => absurd (hleaf.1 h) (by omega))]
          have hall : ((List.range (nd.n + 1)).mapM fun i => rdbSaveAllRows sp h f (nd.nodes i)) =
              some ((List.range (nd.n + 1)).map fun j => (preorder (kid j)).flatMap rowBytes) := by
            refine mapM_all fun j hj => ?_
            have hj' := List.mem_range.1 hj
            rw [hlink (by omega) j (by omega)]
            exact saveAllRows_eq (hkids j (by omega)) (by omega) fun e he =>
              hm e (List.mem_append_right _ (List.mem_flatMap.2 ⟨j, hj, he⟩))
          rw [hall, Option.bind_some, hflat, List.flatMap_assoc]
          refine congrArg (fun l => some (_ ++ l)) ?_
          rw [List.flatMap_def]

/-- In a packed tree the size does not depend on the entry. -/
theorem packed_size {ktype : ColType} {types : List (Option ColType)}
    (h : (dbtSpec ktype types).otherBt = true) (e : Block) :
    getStreamRowSize (dbtSpec ktype types) e = (dbtSpec ktype types).ksize := by
  unfold dbtSpec at h ⊢
  split at h <;> try split at h
  · rename_i l _
    have hsize : ∀ l : Layout, ((packedSizes.find? fun p => layoutFlag l &&& p.1 != 0).map (·.2)).getD
        lenErr = l.key.size + l.val.size ∧ (layoutFlag l == btflagNone) = false := by
      rintro ⟨k, v⟩
      cases k <;> cases v <;> exact ⟨rfl, rfl⟩
    rw [getStreamRowSize, Bts.normBt, (hsize l).2]
    exact (hsize l).1
  · exact absurd h (by simp [Bts.otherBt, btflagNone, btflagUintUint])
  · exact absurd h (by simp [Bts.otherBt, btflagNone, btflagUintUint])

theorem rdbLoadRow_reads {s s' : Bt Block} (hm : Made s.s e)
    (hp : s.s.otherBt = true → e.length = s.s.ksize) (hi : btInsert e 0 s = some ((), s')) :
    Reads (rdbLoadRow s) (rowBytes e) s' := by
  have h1 := hm.pos
  have h2 := hm.int
  have hlen : Reads loadLen (rdbSaveLen e.length) e.length := reads_len (by unfold lenErr; omega)
  have hread := reads_fread (x := e) (by
    rintro rfl
    exact absurd h1 (Nat.lt_irrefl 0))
  refine hlen.bind ?_
  rw [← List.append_nil e]
  refine (by rwa [List.append_nil] : Reads (fread (e ++ []).length) e e).bind ?_
  rw [List.append_nil, if_neg (fun h => h.2 (hp h.1)), hi]
  exact reads_pure s'

theorem loadRows_reads {ktype : ColType} {types : List (Option ColType)} :
    ∀ {l l₀ : List Block} {s s' : Bt Block}, Bagged s l₀ → s.s = dbtSpec ktype types →
      (∀ e ∈ l, Made (dbtSpec ktype types) e) → insertAll l s = some s' →
      Reads (loadRows l.length s) (l.flatMap rowBytes) s'
  | [], _, s, s', _, _, _, h => by
      obtain rfl : s = s' := Option.some.inj h
      exact reads_pure s
  | e :: l, l₀, s, s', B, hs, hm, h => by
      obtain ⟨s₁, hi, B₁, hkit, -⟩ := B.insert e
      rw [insertAll, List.foldlM_cons, hi] at h
      have hs₁ : s₁.s = s.s := congrArg (fun r => r.2.2.2) hkit
      have hme := hm e List.mem_cons_self
      refine (rdbLoadRow_reads (hs ▸ hme) (fun ho => ?_) hi).bind
        (loadRows_reads B₁ (hs₁.trans hs) (fun e' he => hm e' (List.mem_cons_of_mem e he)) h)
      rw [hs] at ho ⊢
      rw [← hme.size, packed_size ho]

end AlchemyDB.Rdb
