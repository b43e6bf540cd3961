/-
# `AlchemyDB.BTree.DataSize` — `dsize`, the memory of the streams

A tree that stores streams counts their blocks in `dsize`: `createStream` adds what it
asks for, `destroyStream` takes off what `getStreamMallocSize` finds.  The two agree for
the rows of a table, whose blocks are rounded up to 8 bytes; the blocks of an index are
not rounded when they are counted, and are when they are freed.  `abt_replace` has three
exits, and on the one where `realloc` moves the block the new stream is counted twice.
-/
import AlchemyDB.BTree.Runs

namespace AlchemyDB

open Store Weave

variable {α κ : Type}

/-! ## Streams -/

/-- What is found in a stream: the length of its key, and of its value (`getRowMallocSize` of a row,
nothing in an index node, a pointer in an index). -/
structure Sizes (α : Type) where
  klen : α → Nat
  vlen : α → Nat
  klen_pos : ∀ e, 0 < klen e

/-- Round up to 8 bytes. -/
def round8 (n : Nat) : Nat := (n + 7) / 8 * 8

namespace Sizes

variable (z : Sizes α) (sp : Bts)

/-- `getStreamMallocSize`. -/
def getStreamMallocSize (e : α) : Nat :=
  if sp.inode || sp.otherBt then 0 else round8 (z.klen e + z.vlen e)

/-- What `createStream` adds to `dsize`; sizes are `int`s, and a block that is rounded beyond them is a
fault. -/
def createStream (e : α) : Option Nat :=
  if sp.inode || sp.otherBt then some 0
  else if z.klen e + z.vlen e + 7 ≥ 2147483648 then none
  else if sp.btype = .table then some (round8 (z.klen e + z.vlen e))
  else some (z.klen e + z.vlen e)

end Sizes

/-- A tree with its counter, an integer, so that a decrement too many shows. -/
structure Dbt (α : Type) where
  bt : Bt α
  dsize : Int

/-- The loop of `bt_find_loc`. -/
def btFindLocLoop (k : α) : Nat → Nat → BtM α (Option (Nat × Nat))
  | 0, _ => failure
  | fuel + 1, x => do
    let s ← get
    let nd ← getN x
    let (i, r) := findkindex s nd k
    if 0 ≤ i ∧ r = 0 then pure (some (x, i.toNat))
    else if nd.leaf then pure none
    else do
      let c ← getNode x (i + 1).toNat
      btFindLocLoop k fuel c

/-- `bt_find_loc`: the node and the slot of a key. -/
def btFindLoc (k : α) : BtM α (Option (Nat × Nat)) := do
  let s ← get
  btFindLocLoop k s.next s.root

section Operations

variable [Inhabited α] (z : Sizes α)

/-- `abt_insert`. -/
def abtInsert (e : α) (d : Dbt α) : Option (Dbt α) :=
  (z.createStream d.bt.s e).bind fun n =>
    (btInsert e 0 d.bt).map fun r => ⟨r.2, d.dsize + n⟩

/-- `abt_del`. -/
def abtDel [RowStream α] (k : α) (d : Dbt α) : Option (Dbt α) :=
  (btDelete k d.bt).bind fun r =>
    (r.2.deref r.1.k).map fun o => ⟨r.2, d.dsize - z.getStreamMallocSize d.bt.s o⟩

/-- The counter of `abt_replace` behind `createStream`, by the sizes of the two streams and whether
`realloc` moved the block. -/
def replaceSize (dsize : Int) (osize nsize : Nat) (moved : Bool) : Int :=
  if osize = nsize then dsize - nsize
  else
    let dsize := dsize - osize + nsize
    if moved then dsize else dsize - nsize

/-- `abt_replace`.  In each of its exits the slot holds the new stream. -/
def abtReplace (e : α) (moved : Bool) (d : Dbt α) : Option (Dbt α) :=
  (z.createStream d.bt.s e).bind fun n =>
    if d.bt.s.normBt then
      (btFindLoc e d.bt).bind fun r => r.1.bind fun loc =>
        (KEYS loc.1 loc.2 r.2).bind fun kd => (kd.2.deref kd.1).bind fun o =>
          (setBTKeyRaw loc.1 loc.2 (.val e) kd.2).map fun r' =>
            ⟨r'.2, replaceSize (d.dsize + n) (z.getStreamMallocSize d.bt.s o)
              (z.getStreamMallocSize d.bt.s e) moved⟩
    else
      (btReplace e e d.bt).map fun r =>
        ⟨r.2, d.dsize + n -
          ((r.1.bind r.2.deref).map fun o => (z.getStreamMallocSize d.bt.s o : Int)).getD 0⟩

/-- The operations on a tree; what `realloc` does is part of a replacement. -/
inductive DOp (α : Type) where
  | btAdd (e : α)
  | btReplace (e : α) (moved : Bool)
  | btDelete (k : α)

def DOp.run [RowStream α] : DOp α → Dbt α → Option (Dbt α)
  | .btAdd e => abtInsert z e
  | .btReplace e moved => abtReplace z e moved
  | .btDelete k => abtDel z k

end Operations

/-! ## The search of `bt_replace` -/

theorem findnodekeyreplace_eq (k v : α) : ∀ fuel x,
    findnodekeyreplace k v fuel x = (do
      let o ← btFindLocLoop k fuel x
      match o with
      | none => pure none
      | some (y, i) => do
          let kd ← KEYS y i
          setBTKeyRaw y i (.val v)
          pure (some kd) : BtM α (Option (KData α)))
  | 0, _ => rfl
  | fuel + 1, x => by
      rw [findnodekeyreplace, btFindLocLoop]
      simp only [bind_assoc]
      refine bind_congr fun s => bind_congr fun nd => ?_
      split
      · rw [pure_bind]
      · split
        · rw [pure_bind]
        · rw [bind_assoc]
          exact bind_congr fun c => findnodekeyreplace_eq k v fuel c

/-- A replacement is a search for the slot, and the new entry in it. -/
theorem btReplace_parts {k v : α} {s s' : Bt α} {kp : KData α} (h : btReplace k v s = some (some kp, s')) :
    ∃ x i s₁, btFindLoc k s = some (some (x, i), s₁) ∧ ∃ s₂, KEYS x i s₁ = some (kp, s₂) ∧
      setBTKeyRaw x i (.val v) s₂ = some ((), s') := by
  have hb : btReplace k v = (do
      let o ← btFindLoc k
      match o with
      | none => pure none
      | some (y, i) => do
          let kd ← KEYS y i
          setBTKeyRaw y i (.val v)
          pure (some kd) : BtM α (Option (KData α))) := by
    rw [btReplace, btFindLoc, bind_assoc]
    exact bind_congr fun s => findnodekeyreplace_eq k v _ _
  rw [hb] at h
  obtain ⟨⟨o, s₁⟩, h₁, h₂⟩ := Option.bind_eq_some_iff.1 h
  cases o with
  | none => cases h₂
  | some loc =>
      obtain ⟨x, i⟩ := loc
      obtain ⟨⟨kd, s₂⟩, h₃, h₄⟩ := Option.bind_eq_some_iff.1 h₂
      obtain ⟨⟨u, s₃⟩, h₅, h₆⟩ := Option.bind_eq_some_iff.1 h₄
      cases h₆
      exact ⟨x, i, s₁, h₁, s₂, h₃, h₅⟩

/-! ## The sum of the streams -/

/-- The counter is the sum of the blocks of the streams that the tree holds. -/
def Dbt.Right (z : Sizes α) (d : Dbt α) : Prop :=
  ∃ l, d.bt.inorder = some l ∧
    d.dsize = (l.map fun c => (z.getStreamMallocSize d.bt.s c.1 : Int)).sum

section Map

variable [LinearOrder κ] (z : Sizes α) (key : α → κ) (sp : Bts)

/-- What a finite map does. -/
def DOp.apply (m : κ → Option α) : DOp α → κ → Option α
  | .btAdd e => Function.update m (key e) (some e)
  | .btReplace e _ => Function.update m (key e) (some e)
  | .btDelete k => Function.update m (key k) none

/-- Absent keys are added, present ones replaced and deleted, and blocks have a size that is an
`int`. -/
def DOp.Allowed (m : κ → Option α) : DOp α → Prop
  | .btAdd e => m (key e) = none ∧ z.klen e + z.vlen e + 7 < 2147483648
  | .btReplace e _ => m (key e) ≠ none ∧ z.klen e + z.vlen e + 7 < 2147483648
  | .btDelete k => m (key k) ≠ none

/-- The new stream is counted as it will be freed, and on a replacement `realloc` does not move a block
of another size. -/
def DOp.Exact (m : κ → Option α) : DOp α → Prop
  | .btAdd e => sp.btype = .table ∨ 8 ∣ z.klen e + z.vlen e
  | .btReplace e moved => (sp.btype = .table ∨ 8 ∣ z.klen e + z.vlen e) ∧
      (moved = true → ∀ o, m (key e) = some o →
        z.getStreamMallocSize sp o = z.getStreamMallocSize sp e)
  | .btDelete _ => True

/-- A run in every state of which the counter is right. -/
def Counts [Inhabited α] [RowStream α] : List (DOp α) → Dbt α → (κ → Option α) → Prop
  | [], d, _ => d.Right z
  | op :: ops, d, m => d.Right z ∧ (op.Allowed z key m → ∃ d', op.run z d = some d' ∧
      Counts ops d' (op.apply key m))

/-- A run of exact steps. -/
def ExactRun : List (DOp α) → (κ → Option α) → Prop
  | [], _ => True
  | op :: ops, m => op.Allowed z key m → op.Exact z key sp m ∧ ExactRun ops (op.apply key m)

end Map

/-- A tree that stores streams: a table of rows, or an index or an index node keyed by TEXT or FLOAT. -/
structure Bts.Streams (sp : Bts) : Prop where
  norm : sp.bflag = btflagNone
  void : sp.ksize = 8
  inode : sp.inode = false

namespace Bts.Streams

variable {sp : Bts} (h : sp.Streams)

include h

theorem narrow : sp.narrow = true := by simp [Bts.narrow, Bts.isVoid, h.void]

theorem bigBt : sp.bigBt = false := by simp [Bts.bigBt, h.norm, btflagNone]

theorem stored : (sp.inode || sp.otherBt) = false := by
  simp [h.inode, Bts.otherBt, h.norm, btflagNone, btflagUintUint]

theorem size (z : Sizes α) (e : α) : z.getStreamMallocSize sp e = round8 (z.klen e + z.vlen e) := by
  rw [Sizes.getStreamMallocSize, h.stored]
  rfl

end Bts.Streams

/-- What is counted for a stream is what is freed when it is rounded already. -/
theorem round8_eq_iff (n : Nat) : n = round8 n ↔ 8 ∣ n := by
  unfold round8
  omega

section Steps

variable [LinearOrder κ] {key : α → κ} {tr : Trans} {sp : Bts} {d d' : Nat} {T : Sub α (d + 1)}
  {T' : Sub α (d' + 1)} {s s' : Bt α} {m : κ → Option α} {z : Sizes α} {k : α}

/-- The sum over a tree under the map. -/
def Sub.dataSize (z : Sizes α) (sp : Bts) {d : Nat} (T : Sub α d) : Int :=
  (T.keys.map fun e => (z.getStreamMallocSize sp e : Int)).sum

theorem MapAt.right_iff (M : MapAt key tr sp s T m) (n : Int) :
    (Dbt.mk s n).Right z ↔ n = T.dataSize z sp := by
  have hsum : (T.cells.map fun c => (z.getStreamMallocSize s.s c.1 : Int)).sum = T.dataSize z sp := by
    rw [Sub.dataSize, Sub.keys, List.map_map, M.spec]
    rfl
  constructor
  · rintro ⟨l, hl, hn⟩
    rw [show Bt.inorder s = some T.cells from M.clean.whole.inorder, Option.some_inj] at hl
    subst hl
    exact hn.trans hsum
  · intro hn
    exact ⟨T.cells, M.clean.whole.inorder, hn.trans hsum.symm⟩

theorem MapAt.mem_keys (M : MapAt key tr sp s T m) (a : α) : a ∈ T.keys ↔ m (key a) = some a :=
  ⟨fun h => (M.reads _ a).2 ⟨h, rfl⟩, fun h => ((M.reads _ a).1 h).1⟩

theorem MapAt.nodup (M : MapAt key tr sp s T m) : T.keys.Nodup :=
  M.strict.imp fun h => fun e => absurd (congrArg key e) h.ne

/-- The keys before and after, when one key of the map was given another entry, or none. -/
theorem MapAt.perm_update (M : MapAt key tr sp s T m) {o : Option α}
    (ho : ∀ e, o = some e → key e = key k)
    (M' : MapAt key tr sp s' T' (Function.update m (key k) o)) :
    ((m (key k)).toList ++ T'.keys).Perm (o.toList ++ T.keys) := by
  have hold : ∀ e, m (key k) = some e → key e = key k := fun e he => ((M.reads _ e).1 he).2
  -- both sides count an entry alike: under the key of the step, and under any other
  classical
  rw [List.perm_iff_count]
  intro a
  rw [List.count_append, List.count_append]
  have hT : T.keys.count a = if m (key a) = some a then 1 else 0 := by
    rw [M.nodup.count]
    exact if_congr (M.mem_keys a) rfl rfl
  have hT' : T'.keys.count a = if Function.update m (key k) o (key a) = some a then 1 else 0 := by
    rw [M'.nodup.count]
    exact if_congr (M'.mem_keys a) rfl rfl
  have hcount (q : Option α) : q.toList.count a = if q = some a then 1 else 0 := by
    cases q with
    | none => simp
    | some b => simp [List.count_singleton]
  rw [hT, hT', hcount, hcount]
  by_cases hk : key a = key k
  · rw [hk, Function.update_self]
    omega
  · rw [Function.update_of_ne hk]
    have h1 : m (key k) ≠ some a := fun h => hk (hold a h)
    have h2 : o ≠ some a := fun h => hk (ho a h)
    rw [if_neg h1, if_neg h2]

/-- The block of an entry, or nothing. -/
def Sizes.block (z : Sizes α) (sp : Bts) (o : Option α) : Int :=
  (o.map fun e => (z.getStreamMallocSize sp e : Int)).getD 0

theorem MapAt.dataSize_update (M : MapAt key tr sp s T m) {o : Option α}
    (ho : ∀ e, o = some e → key e = key k)
    (M' : MapAt key tr sp s' T' (Function.update m (key k) o)) :
    T'.dataSize z sp = T.dataSize z sp + z.block sp o - z.block sp (m (key k)) := by
  have h := ((M.perm_update ho M').map fun e => (z.getStreamMallocSize sp e : Int)).sum_eq
  rw [List.map_append, List.map_append, List.sum_append, List.sum_append] at h
  have hb (q : Option α) :
      (q.toList.map fun e => (z.getStreamMallocSize sp e : Int)).sum = z.block sp q := by
    cases q <;> simp [Sizes.block]
  rw [hb, hb] at h
  unfold Sub.dataSize
  omega

/-! ## One step -/

section Run

variable [Inhabited α] [RowStream α]

/-- What `createStream` adds. -/
def Sizes.counted (z : Sizes α) (sp : Bts) (e : α) : Nat :=
  if sp.btype = .table then round8 (z.klen e + z.vlen e) else z.klen e + z.vlen e

omit [Inhabited α] [RowStream α] [LinearOrder κ] in
theorem createStream_counted (h : sp.Streams) {e : α} (hsize : z.klen e + z.vlen e + 7 < 2147483648) :
    z.createStream sp e = some (z.counted sp e) := by
  rw [Sizes.createStream, h.stored, if_neg (by simp), if_neg (by omega), Sizes.counted]
  split <;> rfl

omit [Inhabited α] [RowStream α] [LinearOrder κ] in
/-- A stream is counted as it is freed just when its block is rounded. -/
theorem counted_eq_iff (h : sp.Streams) (e : α) :
    z.counted sp e = z.getStreamMallocSize sp e ↔ sp.btype = .table ∨ 8 ∣ z.klen e + z.vlen e := by
  rw [h.size, Sizes.counted]
  by_cases ht : sp.btype = .table
  · rw [if_pos ht]
    exact iff_of_true rfl (.inl ht)
  · rw [if_neg ht, round8_eq_iff]
    exact ⟨.inr, fun h => h.resolve_left ht⟩

omit [Inhabited α] [RowStream α] [LinearOrder κ] in
theorem counted_pos {s : Bts} (e : α) : 0 < z.counted s e := by
  have := z.klen_pos e
  unfold Sizes.counted round8
  split <;> omega

/-- A step keeps the tree, and keeps the counter right just when it is exact. -/
theorem MapAt.count_step (h : sp.Streams) (M : MapAt key tr sp s T m) {n : Int}
    (hn : (Dbt.mk s n).Right z) {op : DOp α} (ha : op.Allowed z key m) :
    ∃ (d' : Dbt α) (e : Nat) (T' : Sub α (e + 1)), op.run z ⟨s, n⟩ = some d' ∧
      MapAt key tr sp d'.bt T' (op.apply key m) ∧ (d'.Right z ↔ op.Exact z key sp m) := by
  rw [M.right_iff] at hn
  cases op with
  | btAdd e =>
      obtain ⟨habs, hsize⟩ := ha
      obtain ⟨s', e', T', hrun, M'⟩ := M.insert habs
      refine ⟨⟨s', n + z.counted sp e⟩, e', T', ?_, M', ?_⟩
      · simp only [DOp.run, abtInsert, M.spec, createStream_counted h hsize, Option.bind_some, hrun,
          Option.map_some]
      · have hupd := M.dataSize_update (z := z) (fun _ he => by cases he; rfl) M'
        rw [M'.right_iff, hupd, hn, habs, DOp.Exact, ← counted_eq_iff h e]
        simp only [Sizes.block, Option.map_some, Option.getD_some, Option.map_none, Option.getD_none]
        omega
  | btReplace e moved =>
      obtain ⟨hmem, hsize⟩ := ha
      obtain ⟨kp, s', T', hrun, M', hkp⟩ := M.replace hmem rfl
      obtain ⟨o, rfl, ho⟩ := hkp h.narrow
      obtain ⟨x, i, s₁, hloc, s₂, hkeys, hset⟩ := btReplace_parts hrun
      have hnorm : s.s.normBt = true := by simp [M.spec, Bts.normBt, h.norm]
      refine ⟨⟨s', replaceSize (n + z.counted sp e) (z.getStreamMallocSize sp o)
        (z.getStreamMallocSize sp e) moved⟩, d, T', ?_, M', ?_⟩
      · simp only [DOp.run, abtReplace, hnorm, if_true, hloc, Option.bind_some, hkeys, Bt.deref, hset,
          Option.map_some]
        simp only [M.spec, createStream_counted h hsize, Option.bind_some]
      · have hupd := M.dataSize_update (z := z) (fun _ he => by cases he; rfl) M'
        have hpos := counted_pos (z := z) (s := sp) e
        rw [M'.right_iff, hupd, hn, ho, DOp.Exact, ← counted_eq_iff h e]
        simp only [Sizes.block, Option.map_some, Option.getD_some, ho, Option.some_inj,
          forall_eq']
        unfold replaceSize
        -- the three exits: same size, moved, grown in place
        split
        · rename_i hsame
          simp only [hsame, implies_true, and_true]
          omega
        · rename_i hdiff
          cases moved with
          | true =>
              simp only [if_true, hdiff, forall_const, and_false, iff_false]
              omega
          | false =>
              simp only [Bool.false_eq_true, if_false, IsEmpty.forall_iff, and_true]
              omega
  | btDelete k =>
      obtain ⟨dwd, s', e', T', hrun, hback, M'⟩ := M.delete ha (.inl ⟨h.narrow, h.bigBt⟩)
      obtain ⟨o, ho⟩ := Option.ne_none_iff_exists'.1 ha
      refine ⟨⟨s', n - z.getStreamMallocSize sp o⟩, e', T', ?_, M', ?_⟩
      · simp only [DOp.run, abtDel, hrun, Option.bind_some, hback, ho, Option.map_some, M.spec]
      · have hupd := M.dataSize_update (z := z) (k := k) (fun _ he => by cases he) M'
        rw [M'.right_iff, hupd, hn, ho, DOp.Exact]
        simp only [Sizes.block, Option.map_some, Option.getD_some, Option.map_none, Option.getD_none]
        exact iff_of_true (by omega) trivial

theorem Counts.right {ops : List (DOp α)} {d : Dbt α} {m : κ → Option α}
    (h : Counts z key ops d m) : d.Right z := by
  cases ops with
  | nil => exact h
  | cons op ops => exact h.1

theorem MapAt.counts_iff (h : sp.Streams) : ∀ (ops : List (DOp α)) {s : Bt α} {d : Nat}
    {T : Sub α (d + 1)} {m : κ → Option α} {n : Int}, MapAt key tr sp s T m → (Dbt.mk s n).Right z →
    (Counts z key ops ⟨s, n⟩ m ↔ ExactRun z key sp ops m)
  | [], _, _, _, _, _, _, hn => iff_of_true hn trivial
  | op :: ops, s, d, T, m, n, M, hn => by
      rw [Counts, ExactRun]
      simp only [hn, true_and]
      refine forall_congr' fun ha => ?_
      obtain ⟨d', e, T', hrun, M', hex⟩ := M.count_step h hn ha
      constructor
      · rintro ⟨d'', hrun', hc⟩
        obtain rfl : d' = d'' := Option.some.inj (hrun.symm.trans hrun')
        exact ⟨hex.1 hc.right, (M'.counts_iff h ops hc.right).1 hc⟩
      · rintro ⟨he, hr⟩
        exact ⟨d', hrun, (M'.counts_iff h ops (hex.2 he)).2 hr⟩

end Run

end Steps

/-- A new tree is an empty map. -/
theorem MapAt.create [LinearOrder κ] [Inhabited α] {key : α → κ} {cmp : α → α → Int}
    (hc : CmpOk cmp key) (sp : Bts) (dirty : Bool) :
    MapAt key .one sp (btCreate cmp .one sp dirty) (emptyTree dirty) fun _ => none :=
  ⟨btCreate_clean hc .one sp dirty, rfl, List.Pairwise.nil,
    fun kk e => iff_of_false (by simp) fun h => absurd h.1 List.not_mem_nil⟩

/-- The counter is right in every state of a run just when every step of it is exact. -/
theorem data_size_iff [LinearOrder κ] [Inhabited α] [RowStream α] {key : α → κ} {cmp : α → α → Int}
    (hc : CmpOk cmp key) {sp : Bts} (h : sp.Streams) (z : Sizes α) (dirty : Bool) (ops : List (DOp α)) :
    Counts z key ops ⟨btCreate cmp .one sp dirty, 0⟩ (fun _ => none) ↔
      ExactRun z key sp ops fun _ => none := by
  have M := MapAt.create hc sp dirty
  exact M.counts_iff h ops ((M.right_iff 0).2 rfl)

/-- Rows of one 1-byte column, behind a key of one byte: a flag, a count, an offset, the value. -/
def cellSizes : Sizes Cell := ⟨fun _ => 1, fun _ => 4, fun _ => Nat.one_pos⟩

theorem data_size_table : Counts cellSizes Cell.num
    [.btAdd (row 1), .btAdd (row 2), .btReplace (row 1) true, .btDelete (row 2), .btDelete (row 1)]
    ⟨btCreate Cell.cmp .one tableBts false, 0⟩ fun _ => none :=
  (data_size_iff Cell.cmpOk ⟨rfl, rfl, rfl⟩ cellSizes false _).2
    fun _ => ⟨.inl rfl, fun _ => ⟨.inl rfl, fun _ => ⟨⟨.inl rfl, fun _ _ _ => rfl⟩,
      fun _ => ⟨trivial, fun _ => ⟨trivial, trivial⟩⟩⟩⟩⟩

/-- An entry of a TEXT-keyed index: the key, and the pointer to its tree. -/
structure TextCell where
  text : List Nat
  ptr : Nat
deriving DecidableEq, Repr, Inhabited

instance : RowStream TextCell where
  numKey _ := 0
  ghost := id
  isGhost _ := false

/-- `btTextCmp`. -/
def TextCell.cmp (a b : TextCell) : Int :=
  if a.text = b.text then 0 else if a.text < b.text then -1 else 1

theorem TextCell.cmpOk : CmpOk TextCell.cmp TextCell.text where
  lt a b := by
    unfold TextCell.cmp
    split
    · rename_i h
      simp [h]
    · split <;> simp_all
  eq a b := by
    unfold TextCell.cmp
    split
    · simp_all
    · split <;> simp_all

/-- The key has its length in front, in one byte or in four; the value is the pointer. -/
def textSizes : Sizes TextCell where
  klen e := if e.text.length < 128 then e.text.length + 1 else e.text.length + 4
  vlen _ := 8
  klen_pos e := by split <;> omega

/-- The specification of an index on a TEXT column. -/
def textIndexBts : Bts := ⟨.string, .index, 8, btflagNone⟩

/-- The key `a` of an index is counted with 10 bytes and freed with 16. -/
theorem text_index_miscounts :
    ¬ Counts textSizes TextCell.text [.btAdd ⟨[97], 1⟩]
      ⟨btCreate TextCell.cmp .one textIndexBts false, 0⟩ (fun _ => none) ∧
    ((DOp.btAdd (TextCell.mk [97] 1)).run textSizes ⟨btCreate TextCell.cmp .one textIndexBts false, 0⟩
      |>.bind ((DOp.btDelete (TextCell.mk [97] 1)).run textSizes)
      |>.map Dbt.dsize) = some (-6) := by
  constructor
  · have M := MapAt.create TextCell.cmpOk textIndexBts false
    rw [M.counts_iff ⟨rfl, rfl, rfl⟩ _ ((M.right_iff 0).2 rfl)]
    intro h
    have hex := (h ⟨rfl, by decide⟩).1
    exact absurd hex (by unfold DOp.Exact; decide)
  · decide

end AlchemyDB
