/-
# `AlchemyDB.BTree.Search` — `findkindex` and the lookups built on it

The binary search of `bt_code.c`, which halves by powers of two, and the
accessors that walk down with it: `findnodekey`, `bt_replace`, `bt_exist`,
`bt_min` and `bt_max`.  The recursion of the walks is bounded by `fuel`; every
address ever handed out is below `next`, so `next` rounds are enough.
-/
import AlchemyDB.BTree.Dirty

namespace AlchemyDB

open Store

variable {α : Type}

/-! ## Binary search in a node -/

/-- `_log2`.  Its lookup table only remembers what `real_log2` returned. -/
def log2 (a nbits : Nat) : Nat := realLog2 a nbits

/-- The loop of `findkindex`: slots below `i` are known to be at most `k`, and
`a` slots above `i` are undecided. -/
def findkLoop (cmp : α → α → Int) (nbits : Nat) (keys : Nat → α) (k : α) : Nat → Nat → Nat → Nat
  | 0, _, i => i
  | fuel + 1, a, i =>
    if a = 0 then i
    else
      let b := log2 a nbits
      if cmp k (keys (2 ^ b + i)) < 0 then findkLoop cmp nbits keys k fuel (2 ^ b - 1) i
      else findkLoop cmp nbits keys k fuel (a - 2 ^ b) (i ||| 2 ^ b)

/-- `findkindex`: the last slot whose key is at most `k`, or `-1`, and the result
of the last comparison.  On a node without keys `r` keeps the `-1` its callers
put there. -/
def findkindex (b : Bt α) (nd : BtN α) (k : α) : Int × Int :=
  if nd.n = 0 then (-1, -1)
  else
    let i := findkLoop b.cmp b.nbits nd.keys k nd.n (nd.n - 1) 0
    let r := b.cmp k (nd.keys i)
    if r < 0 then ((i : Int) - 1, r) else (i, r)

/-! ## Accessors -/

/-- `dwm_t`. -/
structure Dwm (α : Type) where
  k : Option (KData α)
  miss : Bool
  x : Nat
  i : Int
  p : Nat
  pi : Int

/-- `getNumKey`. -/
def getNumKey [RowStream α] (nd : BtN α) (i : Nat) : Nat :=
  if i ≥ nd.n then 0 else RowStream.numKey (nd.keys i)

/-- `key_covers_miss`: the evicted rows that follow key `i` include `q`. -/
def keyCoversMiss [RowStream α] (b : Bt α) (nd : BtN α) (i : Int) (q : Nat) : Bool :=
  if !b.s.ktype.isNum then false
  else
    let i := i.toNat
    let mkey := getNumKey nd i
    let dr := nd.dr i
    mkey ≠ 0 && dr ≠ 0 && mkey ≤ q && q ≤ mkey + dr

/-- The loop of `findnodekey`. -/
def findnodekeyLoop [RowStream α] (k : α) (q : Nat) :
    Nat → Nat → Nat → Int → Dwm α → BtM α (Dwm α)
  | 0, _, _, _, _ => failure
  | fuel + 1, x, p, pi, dwm => do
    let s ← get
    let nd ← getN x
    let (i, r) := findkindex s nd k
    if 0 ≤ i ∧ r = 0 then do
      let kd ← KEYS x i.toNat
      pure { k := some kd, miss := dwm.miss, x := x, i := i, p := p, pi := pi }
    else
      let dwm : Dwm α := if keyCoversMiss s nd i q
        then { k := dwm.k, miss := true, x := x, i := i, p := p, pi := pi } else dwm
      if nd.leaf then pure { dwm with k := none }
      else do
        let c ← getNode x (i + 1).toNat
        findnodekeyLoop k q fuel c x (i + 1) dwm

/-- `findnodekey` from the root; `q` is the number `akey` holds. -/
def findnodekey [RowStream α] (k : α) (q : Nat) : BtM α (Dwm α) := do
  let s ← get
  findnodekeyLoop k q s.next s.root s.root 0
    { k := none, miss := false, x := s.root, i := 0, p := s.root, pi := 0 }

/-- `findnodekeyreplace`. -/
def findnodekeyreplace (k val : α) : Nat → Nat → BtM α (Option (KData α))
  | 0, _ => failure
  | fuel + 1, x => do
    let s ← get
    let nd ← getN x
    let (i, r) := findkindex s nd k
    if 0 ≤ i ∧ r = 0 then do
      let kd ← KEYS x i.toNat
      setBTKeyRaw x i.toNat (.val val)
      pure (some kd)
    else if nd.leaf then pure none
    else do
      let c ← getNode x (i + 1).toNat
      findnodekeyreplace k val fuel c

/-- `bt_replace`. -/
def btReplace (k val : α) : BtM α (Option (KData α)) := do
  let s ← get
  findnodekeyreplace k val s.next s.root

/-- `bt_exist`. -/
def btExistLoop [RowStream α] (k : α) (q : Nat) : Nat → Nat → BtM α Bool
  | 0, _ => failure
  | fuel + 1, x => do
    let s ← get
    let nd ← getN x
    let (i, r) := findkindex s nd k
    if 0 ≤ i ∧ r = 0 then pure true
    else if keyCoversMiss s nd i q then pure true
    else if nd.leaf then pure false
    else do
      let c ← getNode x (i + 1).toNat
      btExistLoop k q fuel c

def btExist [RowStream α] (k : α) (q : Nat) : BtM α Bool := do
  let s ← get
  btExistLoop k q s.next s.root

/-- `findminnode`. -/
def findminnode : Nat → Nat → BtM α Nat
  | 0, _ => failure
  | fuel + 1, x => do
    let nd ← getN x
    if nd.leaf then pure x
    else do
      let c ← getNode x 0
      findminnode fuel c

/-- The rightmost leaf, where `findmaxkey` stops. -/
def findmaxnode : Nat → Nat → BtM α Nat
  | 0, _ => failure
  | fuel + 1, x => do
    let nd ← getN x
    if nd.leaf then pure x
    else do
      let c ← getNode x nd.n
      findmaxnode fuel c

/-- `bt_min`; `findminkey` is the first key of `findminnode`. -/
def btMin : BtM α (Option (KData α)) := do
  let s ← get
  if s.numkeys = 0 then pure none
  else do
    let x ← findminnode s.next s.root
    let kd ← KEYS x 0
    pure (some kd)

/-- `bt_max`; `findmaxkey` is the last key of the rightmost leaf. -/
def btMax : BtM α (Option (KData α)) := do
  let s ← get
  if s.numkeys = 0 then pure none
  else do
    let x ← findmaxnode s.next s.root
    let nd ← getN x
    let kd ← KEYS x (nd.n - 1)
    pure (some kd)

end AlchemyDB
