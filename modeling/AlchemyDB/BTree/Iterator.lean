/-
# `AlchemyDB.BTree.Iterator` — the iterators of `bt_iterator.c`

An iterator stands at a key of a node and keeps the nodes above it: `bln` is the node
with the numbers of its key (`ik`) and of its child (`iN`, the field `in`), `up` are
the nodes that the pointers `parent` lead to.  `iLeaf` and `iNode` move it on; for an
OFFSET they are exchanged for functions that jump over subtrees by their scions and
count in `data`.

The iterator only reads the tree.  `none` is what the code does not survive: an assert,
a pointer that leads nowhere, a slot that is not in the block of its node.
-/
import AlchemyDB.BTree.Search

namespace AlchemyDB

open Store

variable {α κ : Type}

/-! ## Keys -/

/-- What the iterators do with keys besides comparing stored entries.  A key goes to the tree by
`createBTKey` and comes back by `convertStream2Key`; both streams may be the null pointer.  `exact`
and `isOver` are the tests of `btRangeNext`, the latter with the DR that a descending scan adds. -/
structure RangeKeys (α κ : Type) where
  bkey : κ → Option α
  num : κ → Nat
  null : α → Bool
  key : α → κ
  exact : κ → κ → Bool
  isOver : Bool → κ → Nat → κ → Bool

/-! ## Iterators -/

/-- `bt_ll_n`. -/
structure BtLlN where
  self : Nat
  ik : Int
  iN : Int
deriving DecidableEq, Repr

/-- `fol_t`. -/
structure Fol where
  cnt : Int
  ofst : Int
  diff : Int
  overBy : Int
deriving DecidableEq, Repr

/-- `btIterator`.  `numNodes` counts the slots of `nodes` in use: the nodes of the path, and those
below that it has left. -/
structure BtIterator where
  bln : BtLlN
  up : List BtLlN
  numNodes : Nat
  finished : Bool
  data : Fol
deriving DecidableEq, Repr

/-- `btSIter`; `be` is the last entry with its DR. -/
structure BtSIter (α κ : Type) where
  x : BtIterator
  high : κ
  missed : Bool
  nim : Bool
  empty : Bool
  scan : Bool
  be : Option (α × Nat)

/-- `MAX_BTREE_DEPTH`. -/
def maxBtreeDepth : Nat := 16

/-- `KEYS` at a slot; the block of a node has `2t - 1` of them. -/
def Bt.slot (b : Bt α) (nd : BtN α) (i : Int) : Option α :=
  if 0 ≤ i ∧ i < 2 * b.t - 1 then some (nd.keys i.toNat) else none

/-- `NODES` at a slot. -/
def Bt.child (b : Bt α) (nd : BtN α) (i : Int) : Option Nat :=
  if nd.leaf = false ∧ 0 ≤ i ∧ i < 2 * b.t then some (nd.nodes i.toNat) else none

/-- `get_new_iter_child`. -/
def getNewIterChild (it : BtIterator) : Option BtIterator :=
  if it.numNodes < maxBtreeDepth then some { it with numNodes := it.numNodes + 1 } else none

/-- `GET_NEW_CHILD`: the slots are handed out along the path. -/
def getNewChild (it : BtIterator) : Option BtIterator :=
  if it.up.length + 1 < it.numNodes then some it else getNewIterChild it

/-! ## Moving up -/

/-- `toparentrecurse`: the node, the nodes above it, and whether the iterator is finished. -/
def toparentrecurse (b : Bt α) : BtLlN → List BtLlN → Option (BtLlN × List BtLlN × Bool)
  | f, [] => some (f, [], true)
  | f, p :: up => do
      let x ← b.heap f.self
      let child ← b.slot x f.ik
      let y ← b.heap p.self
      let parent ← b.slot y p.ik
      if b.cmp child parent > 0 then
        let p := if p.ik + 1 < y.n then { p with ik := p.ik + 1 } else p
        if p.iN + 1 < y.n then some ({ p with iN := p.iN + 1 }, up, false)
        else toparentrecurse b p up
      else some (p, up, false)

/-- `toparentrecurserev`. -/
def toparentrecurserev (b : Bt α) : BtLlN → List BtLlN → Option (BtLlN × List BtLlN × Bool)
  | f, [] => some (f, [], true)
  | f, p :: up => do
      let x ← b.heap f.self
      let child ← b.slot x f.ik
      let y ← b.heap p.self
      let parent ← b.slot y p.ik
      let back (r : BtLlN × List BtLlN × Bool) : Option (BtLlN × List BtLlN × Bool) := do
        let z ← b.heap r.1.self
        if r.1.iN = z.n then some ({ r.1 with iN := r.1.iN - 1 }, r.2) else some r
      if b.cmp child parent < 0 then
        let p := if p.ik ≠ 0 then { p with ik := p.ik - 1 } else p
        if p.iN ≠ 0 then back ({ p with iN := p.iN - 1 }, up, false)
        else (toparentrecurserev b p up).bind back
      else back (p, up, false)

/-- The iterator above the node. -/
def toParent (b : Bt α) (asc : Bool) (it : BtIterator) : Option BtIterator :=
  (if asc then toparentrecurse b it.bln it.up else toparentrecurserev b it.bln it.up).map fun r =>
    { it with bln := r.1, up := r.2.1, finished := it.finished || r.2.2 }

/-! ## Moving down -/

/-- `to_child` and `to_child_rev`. -/
def toChild (b : Bt α) (asc : Bool) (it : BtIterator) (x : Nat) : Option BtIterator := do
  let nd ← b.heap x
  let f : BtLlN := if asc then ⟨x, 0, 0⟩ else ⟨x, nd.n - 1, nd.n⟩
  some { it with bln := f, up := it.bln :: it.up }

/-- `tochildrecurse` and `tochildrecurserev`. -/
def tochildrecurse (b : Bt α) (asc : Bool) : Nat → BtIterator → Nat → Option BtIterator
  | 0, _, _ => none
  | fuel + 1, it, x => do
      let it ← toChild b asc it x
      let nd ← b.heap x
      if nd.leaf then some it
      else do
        let it ← getNewChild it
        let c ← b.child nd it.bln.iN
        tochildrecurse b asc fuel it c

/-- The child of the node that `iN` counts, and down from there. -/
def descend (b : Bt α) (asc : Bool) (nd : BtN α) (it : BtIterator) : Option BtIterator := do
  let it ← getNewChild it
  let c ← b.child nd it.bln.iN
  tochildrecurse b asc b.next it c

/-! ## Single steps -/

/-- The frame one key on. -/
def BtIterator.at (it : BtIterator) (ik iN : Int) : BtIterator :=
  { it with bln := { it.bln with ik := ik, iN := iN } }

/-- `iter_leaf`. -/
def iterLeaf (b : Bt α) (nd : BtN α) (it : BtIterator) : Option BtIterator :=
  if it.bln.ik + 1 < nd.n then some (it.at (it.bln.ik + 1) it.bln.iN) else toParent b true it

/-- `iter_node`. -/
def iterNode (b : Bt α) (nd : BtN α) (it : BtIterator) : Option BtIterator :=
  let ik := if it.bln.ik + 1 < nd.n then it.bln.ik + 1 else it.bln.ik
  let iN := if it.bln.iN + 1 ≤ nd.n then it.bln.iN + 1 else it.bln.iN
  descend b true nd (it.at ik iN)

/-- `iter_leaf_rev`. -/
def iterLeafRev (b : Bt α) (it : BtIterator) : Option BtIterator :=
  if it.bln.ik ≠ 0 then some (it.at (it.bln.ik - 1) it.bln.iN) else toParent b false it

/-- `iter_node_rev`. -/
def iterNodeRev (b : Bt α) (nd : BtN α) (it : BtIterator) : Option BtIterator :=
  descend b false nd it

/-! ## Steps by scion -/

/-- `fl->cnt += m`, and the difference with it. -/
def Fol.count (fl : Fol) (m : Int) : Fol := { fl with cnt := fl.cnt + m, diff := fl.ofst - (fl.cnt + m) }

/-- `iter_leaf_scion`. -/
def iterLeafScion (b : Bt α) (nd : BtN α) (it : BtIterator) : Option BtIterator :=
  let fl := it.data
  let cnt : Int := nd.n - it.bln.ik
  if fl.cnt + cnt ≥ fl.ofst then some { it with data := { fl with overBy := fl.ofst - fl.cnt } }
  else toParent b true { it.at (nd.n - 1) nd.n with data := fl.count cnt }

/-- `iter_leaf_scion_rev`. -/
def iterLeafScionRev (b : Bt α) (it : BtIterator) : Option BtIterator :=
  let fl := it.data
  let cnt : Int := it.bln.ik + 1
  if fl.cnt + cnt ≥ fl.ofst then some { it with data := { fl with overBy := fl.ofst - fl.cnt } }
  else toParent b false { it.at 0 0 with data := fl.count cnt }

/-- The DR that a dirty tree adds to a key of a node. -/
def dirtyDR (b : Bt α) (nd : BtN α) (ik : Int) : Int := if b.dirty then nd.dr ik.toNat else 0

/-- `fl->over = 0`. -/
def BtIterator.stop (it : BtIterator) : BtIterator := { it with data := { it.data with overBy := 0 } }

/-- `if (!fl->diff) fl->over = 0`. -/
def BtIterator.settle (it : BtIterator) : BtIterator := if it.data.diff = 0 then it.stop else it

/-- `iter_node_scion`. -/
def iterNodeScion (b : Bt α) (nd : BtN α) (it : BtIterator) : Option BtIterator := do
  let kid ← b.child nd (if it.bln.iN = (nd.n : Int) then it.bln.iN else it.bln.iN + 1)
  let k ← b.heap kid
  let fl := it.data
  let dr := dirtyDR b nd it.bln.ik
  let ik := if it.bln.ik + 1 < nd.n then it.bln.ik + 1 else it.bln.ik
  if fl.diff > k.scion then
    let it : BtIterator := { it with data := fl.count (k.scion + 1 + dr) }
    if it.data.diff < 0 then some it.stop
    else if it.bln.iN + 1 < nd.n then some (it.at ik (it.bln.iN + 1)).settle
    else (toParent b true (it.at ik it.bln.iN)).map BtIterator.settle
  else
    let it : BtIterator := { it with data := fl.count (1 + dr) }
    if it.data.diff < 0 then some it.stop
    else (descend b true nd (it.at ik (it.bln.iN + 1))).map BtIterator.settle

/-- `iter_node_scion_rev`. -/
def iterNodeScionRev (b : Bt α) (nd : BtN α) (it : BtIterator) : Option BtIterator := do
  let kid ← b.child nd it.bln.iN
  let k ← b.heap kid
  let fl := it.data
  let dr := dirtyDR b nd it.bln.ik
  if fl.diff > k.scion then
    let it : BtIterator := { it with data := fl.count (k.scion + 1 + dr) }
    if it.data.diff < 0 then some it.stop
    else
      let ik := if it.bln.ik ≠ 0 then it.bln.ik - 1 else it.bln.ik
      if it.bln.iN ≠ 0 then some (it.at ik (it.bln.iN - 1)).settle
      else (toParent b false (it.at ik it.bln.iN)).map BtIterator.settle
  else
    let it : BtIterator := { it with data := fl.count (1 + dr) }
    if it.data.diff < 0 then some it.stop
    else (descend b false nd it).map BtIterator.settle

section Ghosts

variable [RowStream α]

/-- `isGhostRow`, as a number. -/
def ghostAt (b : Bt α) (nd : BtN α) (ik : Int) : Option Int :=
  (b.slot nd ik).map fun e => if RowStream.isGhost e then 1 else 0

/-- The loop of `iter_leaf_dirty_scion`: the DRs are added one by one. -/
def dirtyLoop (b : Bt α) (nd : BtN α) : Nat → Int → BtIterator → Option BtIterator
  | 0, _, _ => none
  | fuel + 1, cnt, it =>
      let fl := it.data
      if it.bln.ik < nd.n then do
        let g ← ghostAt b nd it.bln.ik
        let cnt := cnt + (1 - g) + nd.dr it.bln.ik.toNat
        let fcnt := fl.cnt + cnt
        if fcnt = fl.ofst then
          some { it.at (it.bln.ik + 1) it.bln.iN with data := { fl with overBy := 0 } }
        else if fcnt > fl.ofst then some { it with data := { fl with overBy := fcnt - fl.ofst } }
        else dirtyLoop b nd fuel cnt (it.at (it.bln.ik + 1) it.bln.iN)
      else toParent b true { it.at it.bln.ik nd.n with data := fl.count cnt }

/-- `iter_leaf_dirty_scion`. -/
def iterLeafDirtyScion (b : Bt α) (nd : BtN α) (it : BtIterator) : Option BtIterator :=
  dirtyLoop b nd (nd.n + 1) 0 it

/-- The loop of `iter_leaf_dirty_scion_rev`. -/
def dirtyLoopRev (b : Bt α) (nd : BtN α) : Nat → Int → BtIterator → Option BtIterator
  | 0, _, _ => none
  | fuel + 1, cnt, it =>
      let fl := it.data
      if it.bln.ik ≥ 0 then do
        let cnt := cnt + nd.dr it.bln.ik.toNat
        let fcnt := fl.cnt + cnt
        if fcnt ≥ fl.ofst then some { it with data := { fl with overBy := fcnt - fl.ofst } }
        else do
          let g ← ghostAt b nd it.bln.ik
          dirtyLoopRev b nd fuel (cnt + (1 - g)) (it.at (it.bln.ik - 1) it.bln.iN)
      else toParent b false { it.at 0 0 with data := fl.count cnt }

/-- `iter_leaf_dirty_scion_rev`. -/
def iterLeafDirtyScionRev (b : Bt α) (nd : BtN α) (it : BtIterator) : Option BtIterator :=
  dirtyLoopRev b nd (nd.n + 1) 0 it

/-! ## `btNext` -/

/-- `iLeaf` and `iNode`: step by step, or by scion. -/
inductive Pace where
  | step | scion
deriving DecidableEq, Repr

/-- `iter->iLeaf`. -/
def iLeaf (b : Bt α) (p : Pace) (asc : Bool) (nd : BtN α) (it : BtIterator) : Option BtIterator :=
  match p, asc with
  | .step, true => iterLeaf b nd it
  | .step, false => iterLeafRev b it
  | .scion, true => if b.dirty then iterLeafDirtyScion b nd it else iterLeafScion b nd it
  | .scion, false => if b.dirty then iterLeafDirtyScionRev b nd it else iterLeafScionRev b it

/-- `iter->iNode`. -/
def iNode (b : Bt α) (p : Pace) (asc : Bool) (nd : BtN α) (it : BtIterator) : Option BtIterator :=
  match p, asc with
  | .step, true => iterNode b nd it
  | .step, false => iterNodeRev b nd it
  | .scion, true => iterNodeScion b nd it
  | .scion, false => iterNodeScionRev b nd it

/-- A stream with its place; the null pointer is none. -/
abbrev Stream (α : Type) := Option (α × Nat × Int)

/-- The stream at a slot. -/
def RangeKeys.stream (K : RangeKeys α κ) (e : α) (x : Nat) (i : Int) : Stream α :=
  if K.null e then none else some (e, x, i)

/-- `btNext`. -/
def btNext (K : RangeKeys α κ) (b : Bt α) (p : Pace) (asc : Bool) (si : BtSIter α κ) :
    Option (Stream α × BtSIter α κ) :=
  let it := si.x
  if it.finished then some (none, if si.scan then { si with missed := si.nim } else si)
  else do
    let nd ← b.heap it.bln.self
    let curr ← b.slot nd it.bln.ik
    let si := if asc then { si with missed := si.nim } else si
    let si := { si with nim := decide (nd.dr it.bln.ik.toNat ≠ 0) }
    let x ← if nd.leaf then iLeaf b p asc nd it else iNode b p asc nd it
    some (K.stream curr it.bln.self it.bln.ik, { si with x := x })

/-- `streamToBTEntry` of a stream that is there: it becomes the entry, and a ghost is a miss. -/
def streamToBTEntry (b : Bt α) (e : α) (x : Nat) (i : Int) (si : BtSIter α κ) :
    Option (BtSIter α κ) := do
  let nd ← b.heap x
  let si := if RowStream.isGhost e then { si with missed := true, nim := false } else si
  some { si with be := some (e, nd.dr i.toNat) }

/-! ## Setting an iterator -/

/-- What `bt_init_iterator` returns. -/
inductive Ii where
  | fail | ok | leafExit | onlyRight | miss | lMiss
deriving DecidableEq, Repr

/-- The loop of `bt_init_iterator`; `q` is the number of the key. -/
def initLoop (b : Bt α) (k : α) (q : Nat) (lmiss : Bool) : Nat → BtIterator → Bool → Option (Ii × BtIterator)
  | 0, _, _ => none
  | fuel + 1, it, only => do
      let nd ← b.heap it.bln.self
      let (i, r) := findkindex b nd k
      let it := if nd.n = 0 then it else it.at (max i 0) (max i 0)
      if 0 ≤ i ∧ r = 0 then some (if lmiss then .lMiss else .ok, it)
      else if keyCoversMiss b nd i q then some (.miss, it)
      else
        let only := only && decide (¬ r < 0 ∧ i = nd.n - 1)
        if nd.leaf then some (if only then .onlyRight else .leafExit, it)
        else do
          let it ← getNewIterChild it
          let c ← b.child nd (i + 1)
          let it ← toChild b true it c
          initLoop b k q lmiss fuel it only

variable [DecidableEq κ]

/-- `check_min_miss`. -/
def checkMinMiss (K : RangeKeys α κ) (b : Bt α) (alow : κ) : Option Bool :=
  if b.dirtyLeft = 0 then some false
  else do
    let (kd, _) ← btMin b
    let e ← kd.bind b.deref
    some (decide (alow = K.key e))

/-- `bt_init_iterator`. -/
def btInitIterator (K : RangeKeys α κ) (b : Bt α) (k : α) (it : BtIterator) (alow : κ) :
    Option (Ii × BtIterator) := do
  let lmiss ← checkMinMiss K b alow
  initLoop b k (K.num alow) lmiss b.next it true

/-- `init_iter`. -/
def initIter (b : Bt α) : BtIterator :=
  { bln := ⟨b.root, 0, 0⟩, up := [], numNodes := 1, finished := false, data := ⟨0, 0, 0, 0⟩ }

/-- `createIterator` and `setHigh`. -/
def createIterator (b : Bt α) (high : κ) (scan : Bool) : BtSIter α κ :=
  { x := initIter b, high := high, missed := false, nim := false, empty := true, scan := scan,
    be := none }

/-- `setIter`: the stream it returns, and the iterator. -/
def setIter (K : RangeKeys α κ) (b : Bt α) (bkey : α) (si : BtSIter α κ) (alow : κ) (asc : Bool) :
    Option (Stream α × BtSIter α κ) := do
  let (ret, it) ← btInitIterator K b bkey si.x alow
  let si := { si with x := it }
  let here (si : BtSIter α κ) : Option (Stream α × BtSIter α κ) := do
    let nd ← b.heap it.bln.self
    let e ← b.slot nd it.bln.ik
    some (K.stream e it.bln.self it.bln.ik, si)
  match ret with
  | .fail => some (none, si)
  | .lMiss => some (none, { si with empty := false, nim := true, missed := true })
  | .miss => here { si with empty := false, nim := true, missed := true }
  | .ok => here { si with empty := false }
  | .onlyRight | .leafExit => do
      let nd ← b.heap it.bln.self
      let e ← b.slot nd it.bln.ik
      if b.cmp bkey e > 0 then
        if ret = .onlyRight then some (none, { si with empty := true })
        else btNext K b .step asc { si with empty := false }
      else here { si with empty := false }

/-- What a caller gets: the null pointer before or after `createIterator`, or an iterator. -/
inductive Got (σ : Type) where
  | null
  | leaked
  | iter (s : σ)

/-! ## Ranges -/

/-- `btGetRangeIter`. -/
def btGetRangeIter (K : RangeKeys α κ) (b : Bt α) (alow ahigh : κ) (asc : Bool) :
    Option (Got (BtSIter α κ)) :=
  if b.numkeys = 0 then some .null
  else
    let si := createIterator b (if asc then ahigh else alow) false
    let start := if asc then alow else ahigh
    match K.bkey start with
    | none => some .leaked
    | some bkey => do
        let (stream, si) ← setIter K b bkey si start asc
        match stream with
        | none => some .leaked
        | some (e, x, i) => (streamToBTEntry b e x i si).map .iter

/-- The tests of `btRangeNext` on the entry that is next. -/
def rangeTest (K : RangeKeys α κ) (b : Bt α) (asc : Bool) (e : α) (x : Nat) (i : Int)
    (si : BtSIter α κ) : Option (Option α × BtSIter α κ) := do
  let si ← streamToBTEntry b e x i si
  let nd ← b.heap x
  let si := if K.exact (K.key e) si.high then { si with x := { si.x with finished := true } } else si
  let past := K.isOver asc (K.key e) (nd.dr i.toNat) si.high
  let si := if past ∧ si.nim ∧ (b.s.ktype = .int ∨ b.s.ktype = .long) then { si with missed := true }
    else si
  some (if past then none else some e, si)

/-- `btRangeNext`. -/
def btRangeNext (K : RangeKeys α κ) (b : Bt α) (asc : Bool) (si : BtSIter α κ) :
    Option (Option α × BtSIter α κ) :=
  if si.empty then some (none, si)
  else do
    let (stream, si) ← btNext K b .step asc si
    match stream with
    | none => some (none, si)
    | some (e, x, i) => rangeTest K b asc e x i si

/-! ## The whole tree -/

/-- `bt_min` or `bt_max`, read at once. -/
def edgeKey (m : BtM α (Option (KData α))) (b : Bt α) : Option (Option α) := do
  let (kd, _) ← m b
  match kd with
  | none => some none
  | some kd => (b.deref kd).map some

/-- `assignMinKey` and `assignMaxKey`: both keys, unless one of them is a null pointer. -/
def edgeKeys (K : RangeKeys α κ) (b : Bt α) : Option (Option (κ × κ)) := do
  let lo ← edgeKey btMin b
  let hi ← edgeKey btMax b
  match lo, hi with
  | some lo, some hi => some (if K.null lo ∨ K.null hi then none else some (K.key lo, K.key hi))
  | _, _ => some none

/-- `btGetFullRangeIter`. -/
def btGetFullRangeIter (K : RangeKeys α κ) (b : Bt α) (asc : Bool) :
    Option (Got (BtSIter α κ)) :=
  if b.numkeys = 0 then some .null
  else do
    match ← edgeKeys K b with
    | none => some .null
    | some (lo, hi) =>
        let si := createIterator b (if asc then hi else lo) true
        let start := if asc then lo else hi
        match K.bkey start with
        | none => some .leaked
        | some bkey => do
            let (stream, si) ← setIter K b bkey si start asc
            match stream with
            | none => some (if si.missed then .iter si else .leaked)
            | some (e, x, i) =>
                (streamToBTEntry b e x i si).map fun si =>
                  .iter (if b.dirtyLeft ≠ 0 then { si with missed := true } else si)

/-! ## OFFSET in a range -/

/-- The loop of `XthIterFind`, and what it does when the OFFSET is used up. -/
def xthLoop (K : RangeKeys α κ) (b : Bt α) (asc : Bool) : Nat → BtSIter α κ → Option (BtSIter α κ)
  | 0, _ => none
  | fuel + 1, si => do
      let (stream, si) ← btNext K b .scion asc si
      if stream.isNone then some si
      else if si.x.data.overBy = -1 then xthLoop K b asc fuel si
      else
        let it := si.x
        let ik := if b.dirty then it.bln.ik
          else if asc then it.bln.ik + it.data.overBy else it.bln.ik - it.data.overBy
        let nd ← b.heap it.bln.self
        let x ← if asc then
            (if ik = nd.n then toParent b true (it.at (ik - 1) it.bln.iN)
              else some (it.at ik it.bln.iN))
          else
            (if ik < 0 then toParent b false (it.at 0 0) else some (it.at ik it.bln.iN))
        some { si with x := x }

/-- `XthIterFind`, and whether it succeeds. -/
def xthIterFind (K : RangeKeys α κ) (b : Bt α) (si : BtSIter α κ) (start : κ) (ofst : Nat)
    (asc : Bool) : Option (Bool × BtSIter α κ) :=
  match K.bkey start with
  | none => some (false, si)
  | some bkey => do
      let (stream, si) ← setIter K b bkey si start asc
      match stream with
      | none => some (false, si)
      | some (e, x, i) => do
          let si ← streamToBTEntry b e x i si
          let si := { si with x := { si.x with data := ⟨0, ofst, 0, -1⟩ } }
          let si ← xthLoop K b asc (ofst + 2 * b.next) si
          let nd ← b.heap si.x.bln.self
          let e ← b.slot nd si.x.bln.ik
          let si ← if K.null e then some si else streamToBTEntry b e si.x.bln.self si.x.bln.ik si
          let missed := b.dirty && decide (si.x.data.overBy > 0) && decide (nd.dr si.x.bln.ik.toNat ≠ 0)
          some (true, { si with nim := false, missed := missed })

/-- `btGetXthIter`. -/
def btGetXthIter (K : RangeKeys α κ) (b : Bt α) (alow ahigh : κ) (ofst : Nat) (asc : Bool) :
    Option (Got (BtSIter α κ)) :=
  if b.numkeys = 0 then some .null
  else do
    let si := createIterator b (if asc then ahigh else alow) false
    let (found, si) ← xthIterFind K b si (if asc then alow else ahigh) ofst asc
    some (.iter (if found then { si with empty := false } else si))

/-! ## OFFSET in the whole tree -/

/-- Where `btScionFind` goes on after its first loop. -/
inductive ScionAt where
  /-- The key behind a subtree. -/
  | here (it : BtIterator)
  /-- The kid, with the rest of the OFFSET. -/
  | kid (it : BtIterator) (x : Nat) (ofst : Nat)
  /-- The loop has run to its end. -/
  | fell (ofst : Nat)

/-- The first loop of `btScionFind`, over the `m` children from `i` on. -/
def scionLoop (b : Bt α) (asc : Bool) (nd : BtN α) (it : BtIterator) :
    Nat → Int → Nat → Option ScionAt
  | 0, _, ofst => some (.fell ofst)
  | m + 1, i, ofst => do
      let c ← b.child nd i
      let k ← b.heap c
      if k.scion ≥ ofst then
        let it := it.at (if i = nd.n then i - 1 else i) i
        if k.scion = ofst then some (.here (if asc then it else it.at (i - 1) (i - 1)))
        else do
          let it ← getNewIterChild it
          let it ← toChild b true it c
          some (.kid it c ofst)
      else scionLoop b asc nd it m (if asc then i + 1 else i - 1) (ofst - (k.scion.toNat + 1))

/-- The second loop of `btScionFind`, with the last DR, the keys counted and the slot. -/
def slotLoop (b : Bt α) (asc : Bool) (nd : BtN α) (isMin : Bool) (ofst : Nat) (fin : Int) :
    Nat → Int → Nat → Nat → Nat × Nat × Int
  | 0, i, dr, cnt => (dr, cnt, i)
  | fuel + 1, i, dr, cnt =>
      if i = fin then (dr, cnt, i)
      else
        let dr := nd.dr i.toNat
        let cnt := cnt + dr + (if i = 0 ∧ isMin then b.dirtyLeft else 0)
        if cnt ≥ ofst then (dr, cnt, i)
        else slotLoop b asc nd isMin ofst fin fuel (if asc then i + 1 else i - 1) dr (cnt + 1)

/-- The rest of the OFFSET, inside a node. -/
def slotFind (K : RangeKeys α κ) (b : Bt α) (asc : Bool) (x : Nat) (ofst : Nat) (si : BtSIter α κ) :
    Option (Bool × BtSIter α κ) := do
  let nd ← b.heap x
  let (minx, _) ← findminnode b.next b.root b
  let isMin := decide (x = minx)
  let fin : Int := if asc then min ofst nd.n else -1
  let last : Int := if asc then nd.n - 1 else 0
  let (dr, cnt, i) := slotLoop b asc nd isMin ofst fin nd.n (if asc then 0 else nd.n - 1) 0 0
  if (if i = fin ∧ i = last then decide ((cnt : Int) ≥ nd.scion) else decide (cnt < ofst)) then
    some (false, si)
  else do
    let si := { si with x := si.x.at i si.x.bln.iN }
    let e ← b.slot nd i
    let si ← if K.null e then some si else streamToBTEntry b e x i si
    let missed := if asc then decide (ofst + dr ≠ cnt)
      else if i = 0 ∧ isMin then decide ((ofst : Int) ≠ cnt - b.dirtyLeft) else decide (ofst ≠ cnt)
    some (true, if missed then { si with missed := true } else si)

/-- `btScionFind`; what the recursion finds is not looked at. -/
def btScionFind (K : RangeKeys α κ) (b : Bt α) (asc : Bool) :
    Nat → Nat → Nat → BtSIter α κ → Option (Bool × BtSIter α κ)
  | 0, _, _, _ => none
  | fuel + 1, x, ofst, si => do
      let nd ← b.heap x
      if nd.leaf then slotFind K b asc x ofst si
      else do
        let r ← scionLoop b asc nd si.x (nd.n + 1) (if asc then 0 else nd.n) ofst
        match r with
        | .here it => some (true, { si with x := it })
        | .fell ofst => slotFind K b asc x ofst si
        | .kid it c ofst => do
            let k ← b.heap c
            if k.leaf then slotFind K b asc c ofst { si with x := it }
            else (btScionFind K b asc fuel c ofst { si with x := it }).map fun r => (true, r.2)

/-- `btGetFullXthIter`. -/
def btGetFullXthIter (K : RangeKeys α κ) (b : Bt α) (ofst : Nat) (asc : Bool) :
    Option (Got (BtSIter α κ)) :=
  if b.numkeys = 0 then some .null
  else do
    match ← edgeKeys K b with
    | none => some .null
    | some (lo, hi) => do
        let si := createIterator b (if asc then hi else lo) false
        let (found, si) ← btScionFind K b asc b.next b.root ofst si
        some (.iter (if found then { si with empty := false } else si))

end Ghosts

end AlchemyDB
