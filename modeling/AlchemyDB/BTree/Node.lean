/-
# `AlchemyDB.BTree.Node` — B-tree nodes in memory

The data of `btreepriv.h` and the part of `bt_code.c` below the dirty streams:
a node is a block of memory with its counters, its `2t - 1` key slots and, when
it is not a leaf, its `2t` child pointers; the heap maps the addresses of live
nodes to their contents, `malloc` hands out an address that was never used
before and `free` makes an address dead.  Following a dead pointer, or reading
the child array a leaf does not have, is the failure of the monad `BtM`.

`bt_data_t` deserves the three constructors of `KData`.  `KEYS` returns the
entry itself when the slot is 4 or 8 bytes wide, and a pointer INTO the node
otherwise, so what a wide `bt_data_t` denotes changes when the slot is
overwritten.  The C code stores such pointers in `dwd.k` and in `case_2c_ptr`.
-/
import Mathlib.Data.Int.Basic
import AlchemyDB.Lib.Store

namespace AlchemyDB

open Store

/-! ## Specification of a tree -/

/-- `COL_TYPE_*` as far as they can be the type of a key. -/
inductive ColType where
  | int | long | string | float | u128
deriving DecidableEq, Repr

namespace ColType

/-- `C_IS_NUM`. -/
def isNum : ColType → Bool
  | int | long | u128 => true
  | string | float => false

end ColType

/-- `BTREE_TABLE`, `BTREE_INDEX`, ... : what a tree is used for. -/
inductive BType where
  | table | index | inode | mci | mciMid | mciUniq | simpUniq
deriving DecidableEq, Repr

def btflagNone : Nat := 0
def btflagUintIndex : Nat := 1
def btflagUlongIndex : Nat := 2
def btflagU128Index : Nat := 4
def btflagObc : Nat := 8
def btflagUintUint : Nat := 16
def btflagUintUlong : Nat := 32
def btflagUlongUint : Nat := 64
def btflagUlongUlong : Nat := 128
def btflagUintU128 : Nat := 256
def btflagU128Uint : Nat := 512
def btflagUlongU128 : Nat := 1024
def btflagU128Ulong : Nat := 2048
def btflagU128U128 : Nat := 4096

/-- `bts_t`.  `num` (the table or index number) is not used by the tree code. -/
structure Bts where
  ktype : ColType
  btype : BType
  ksize : Nat
  bflag : Nat
deriving DecidableEq, Repr

namespace Bts

/-- `ISVOID`. -/
def isVoid (s : Bts) : Bool := s.ksize == 8

/-- `ISUINT`. -/
def isUint (s : Bts) : Bool := s.ksize == 4

/-- The slot holds the entry itself: `KEYS` returns it by value. -/
def narrow (s : Bts) : Bool := s.isVoid || s.isUint

/-- `OBYI`. -/
def obyi (s : Bts) : Bool := s.bflag &&& btflagObc != 0

/-- `INODE_I`, `INODE_L` and `INODE_X` in one. -/
def inode (s : Bts) : Bool := s.btype == .inode && s.ktype.isNum && !s.obyi

/-- `UU`. -/
def uu (s : Bts) : Bool := s.bflag &&& btflagUintUint != 0

/-- `OTHER_BT`. -/
def otherBt (s : Bts) : Bool := s.bflag ≥ btflagUintUint

/-- `BIG_BT`. -/
def bigBt (s : Bts) : Bool := s.bflag > btflagUintUint

/-- `NORM_BT`. -/
def normBt (s : Bts) : Bool := s.bflag == btflagNone

end Bts

/-! ## Nodes and trees -/

/-- What the tree code does with a stored entry besides comparing it: the number
its key denotes (`convertStream2Key` on a numeric tree), the ghost that stands
for its key (`createStream` with a `NULL` row) and the test for one (`IS_GHOST`). -/
class RowStream (α : Type) where
  numKey : α → Nat
  ghost : α → α
  isGhost : α → Bool

/-- `bt_n`.  `dirty` is `-1` for a node without room for a dirty stream, `0` for
one with an empty slot for it and `1`, `2`, `3` by the width of the stream `ds`;
`scion` is an integer, so that a decrement too many shows. -/
structure BtN (α : Type) where
  scion : Int
  n : Nat
  leaf : Bool
  dirty : Int
  ndirty : Nat
  keys : Nat → α
  nodes : Nat → Nat
  ds : Nat → Nat

/-- `bt_data_t`: an entry, a pointer to a key slot, or a pointer to `BT_DelBuf`. -/
inductive KData (α : Type) where
  | val (k : α)
  | slot (x i : Nat)
  | delBuf
deriving DecidableEq

/-- `bt`, the heap its nodes live in, and the two globals a delete uses.  The
memory accounting (`msize`, `dsize`, `numnodes`) and the byte offsets are left
out. -/
structure Bt (α : Type) where
  heap : Nat → Option (BtN α)
  next : Nat
  root : Nat
  cmp : α → α → Int
  numkeys : Int
  t : Nat
  nbits : Nat
  s : Bts
  dirtyLeft : Nat
  dirty : Bool
  case2cPtr : Option (KData α)
  delBuf : Option α

/-- Programs over one tree. -/
abbrev BtM (α : Type) := StateT (Bt α) Option

variable {α : Type}

/-! ## Memory -/

namespace Bt

/-- The tree with the block at `x` set to `v`. -/
def setHeap (s : Bt α) (x : Nat) (v : Option (BtN α)) : Bt α :=
  { s with heap := upd s.heap x v }

@[simp] theorem setHeap_heap (s : Bt α) (x : Nat) (v : Option (BtN α)) :
    (s.setHeap x v).heap = upd s.heap x v := rfl

@[simp] theorem setHeap_next (s : Bt α) (x : Nat) (v : Option (BtN α)) :
    (s.setHeap x v).next = s.next := rfl

@[simp] theorem setHeap_root (s : Bt α) (x : Nat) (v : Option (BtN α)) :
    (s.setHeap x v).root = s.root := rfl

@[simp] theorem setHeap_t (s : Bt α) (x : Nat) (v : Option (BtN α)) :
    (s.setHeap x v).t = s.t := rfl

@[simp] theorem setHeap_setHeap (s : Bt α) (x : Nat) (v w : Option (BtN α)) :
    (s.setHeap x v).setHeap x w = s.setHeap x w := by
  simp [setHeap]

end Bt

/-- The node at `x`, which must be live. -/
def getN (x : Nat) : BtM α (BtN α) := fun s => (s.heap x).map (fun nd => (nd, s))

/-- Overwrite the live node at `x`. -/
def setN (x : Nat) (nd : BtN α) : BtM α Unit := fun s =>
  match s.heap x with
  | none => none
  | some _ => some ((), s.setHeap x (some nd))

/-- Change the live node at `x`. -/
def modN (x : Nat) (f : BtN α → BtN α) : BtM α Unit := do
  let nd ← getN x
  setN x (f nd)

/-- `malloc` of a node. -/
def mallocN (nd : BtN α) : BtM α Nat := fun s =>
  some (s.next, { s with heap := upd s.heap s.next (some nd), next := s.next + 1 })

/-- `free` of a node: the address is dead from now on. -/
def freeN (x : Nat) : BtM α Unit := fun s =>
  match s.heap x with
  | none => none
  | some _ => some ((), s.setHeap x none)

/-- Read `NODES(btr, x)[i]`; a leaf has no such array. -/
def getNode (x i : Nat) : BtM α Nat := do
  let nd ← getN x
  if nd.leaf then failure else pure (nd.nodes i)

/-- `NODES(btr, x)[i] = y`. -/
def setNode (x i y : Nat) : BtM α Unit := do
  let nd ← getN x
  if nd.leaf then failure else setN x { nd with nodes := upd nd.nodes i y }

/-- The block `if (!x->leaf) { ... }`. -/
def unlessLeaf (leaf : Bool) (m : BtM α Unit) : BtM α Unit := if leaf then pure () else m

/-- `allocbtreenode`: the block is zeroed and `leaf` is set (to `-1`). -/
def allocbtreenode [Inhabited α] (dirty : Int) : BtM α Nat :=
  mallocN { scion := 0, n := 0, leaf := true, dirty := dirty, ndirty := 0,
            keys := fun _ => default, nodes := fun _ => 0, ds := fun _ => 0 }

/-- `KEYS`. -/
def KEYS (x i : Nat) : BtM α (KData α) := do
  let nd ← getN x
  let s ← get
  if s.s.narrow then pure (.val (nd.keys i)) else pure (.slot x i)

/-- The entry a `bt_data_t` denotes in the present state of the memory. -/
def Bt.deref (s : Bt α) : KData α → Option α
  | .val k => some k
  | .slot x i => (s.heap x).map (fun nd => nd.keys i)
  | .delBuf => s.delBuf

/-- `setBTKeyRaw`: a copy of the entry `src` denotes goes to slot `i` of `x`. -/
def setBTKeyRaw (x i : Nat) (src : KData α) : BtM α Unit := do
  let s ← get
  match s.deref src with
  | none => failure
  | some k => modN x (fun nd => { nd with keys := upd nd.keys i k })

/-! ## Scion -/

/-- `incr_scion`; `decr_scion` is the same with a negative number. -/
def incrScion (x : Nat) (m : Int) : BtM α Unit :=
  modN x (fun nd => { nd with scion := nd.scion + m })

def decrScion (x : Nat) (m : Int) : BtM α Unit :=
  modN x (fun nd => { nd with scion := nd.scion - m })

/-- `move_scion`: the scions of the first `m` children of `z` are added to `y`. -/
def moveScion (y z m : Nat) : BtM α Unit :=
  (List.range m).forM fun i => do
    let c ← getNode z i
    let nd ← getN c
    incrScion y nd.scion

/-! ## Creating a tree -/

/-- `TRANS_ONE` and `TRANS_TWO`. -/
inductive Trans where
  | one | two
deriving DecidableEq, Repr

/-- `real_log2`: the loop of the C code, which halves `b` until it is `0`. -/
def realLog2Loop : Nat → Nat → Nat → Nat → Nat
  | 0, _, _, i => i
  | fuel + 1, b, a, i =>
    if b = 0 then i
    else if a ≥ 2 ^ b then realLog2Loop fuel (b / 2) (a / 2 ^ b) (2 * i + 1)
    else realLog2Loop fuel (b / 2) (a % 2 ^ b) (2 * i)

def realLog2 (a nbits : Nat) : Nat := realLog2Loop nbits ((nbits + 1) / 2) a 0

/-- `bt_create`. -/
def btCreate [Inhabited α] (cmp : α → α → Int) (trans : Trans) (s : Bts) (dirty : Bool) : Bt α :=
  let n := match trans with
    | .one => 7
    | .two => 255
  let nbits := realLog2 n 32 + 1
  { heap := upd (fun _ => none) 1 (some
      { scion := 0, n := 0, leaf := true, dirty := if dirty then 0 else -1, ndirty := 0,
        keys := fun _ => default, nodes := fun _ => 0, ds := fun _ => 0 })
    next := 2
    root := 1
    cmp := cmp
    numkeys := 0
    t := (n + 1) / 2
    nbits := 2 ^ (realLog2 nbits 32 + 1)
    s := s
    dirtyLeft := 0
    dirty := dirty
    case2cPtr := none
    delBuf := none }

end AlchemyDB
