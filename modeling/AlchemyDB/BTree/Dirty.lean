/-
# `AlchemyDB.BTree.Dirty` — the dirty streams

A key carries a DR, the number of evicted rows that follow it.  The DRs of one
node are its dirty stream, which exists only while some DR of the node is not
zero: `setDR` on a node without one allocates a NEW block with room for the
stream, copies the node there, patches `NODES(p)[pi]` (or the root pointer) and
frees the old block; `zeroDR` of the last DR releases the stream.  Hence every
function here takes the place `(p, pi)` the node hangs from, and returns the
node's address.
-/
import AlchemyDB.BTree.Node

namespace AlchemyDB

open Store

variable {α : Type}

/-! ## One node -/

namespace BtN

/-- `getDR`. -/
def dr (nd : BtN α) (i : Nat) : Nat := if nd.dirty ≤ 0 then 0 else nd.ds i

/-- `release_dirty_stream`. -/
def releaseDirtyStream (nd : BtN α) : BtN α :=
  { nd with dirty := 0, ndirty := 0, ds := fun _ => 0 }

/-- `incr_ds`: a stream of wider entries, into which `2t` entries of a leaf but
only `t` entries of an inner node are copied. -/
def incrDs (t : Nat) (nd : BtN α) : BtN α :=
  let num := if nd.leaf then t * 2 else t
  { nd with dirty := nd.dirty + 1, ds := fun i => if i < num then nd.ds i else 0 }

/-- The stream of `__setDR` after its width checks: wide enough for `dr`. -/
def widen (t : Nat) (nd : BtN α) (dr : Nat) : BtN α :=
  let nd := if nd.dirty = 1 ∧ dr > 255 then nd.incrDs t else nd
  if nd.dirty = 2 ∧ dr > 65535 then nd.incrDs t else nd

/-- `__setDR` on a node that has a stream. -/
def setDRRaw (t : Nat) (nd : BtN α) (i dr : Nat) : BtN α :=
  let nd := nd.widen t dr
  let odr := nd.ds i
  let nd := { nd with ds := upd nd.ds i dr }
  let nd :=
    if odr = 0 ∧ dr ≠ 0 then { nd with ndirty := nd.ndirty + 1 }
    else if odr ≠ 0 ∧ dr = 0 then { nd with ndirty := nd.ndirty - 1 }
    else nd
  if nd.ndirty = 0 then nd.releaseDirtyStream else nd

end BtN

/-- `getDR`. -/
def getDR (x i : Nat) : BtM α Nat := do
  let nd ← getN x
  pure (nd.dr i)

/-- `get_scion_range`. -/
def getScionRange (x beg fin : Nat) : BtM α Int := do
  let nd ← getN x
  if nd.dirty ≤ 0 then pure ((fin : Int) - beg)
  else pure (((List.range' beg (fin - beg)).map (fun i => 1 + (nd.dr i : Int))).sum)

/-! ## Changing a DR -/

/-- `addDStoBTN`: move the node to a block with a dirty stream. -/
def addDStoBTN (x p pi : Nat) (dirty : Int) : BtM α Nat := do
  let nd ← getN x
  let y ← mallocN { nd with dirty := dirty, ds := fun _ => 0 }
  modify (fun s => { s with dirty := true })
  let s ← get
  if x = s.root then modify (fun s => { s with root := y })
  else setNode p pi y
  freeN x
  pure y

/-- `__setDR`; a node without a stream is the assertion `setDR ERROR`. -/
def setDRRaw (x i dr : Nat) : BtM α Unit := do
  let s ← get
  let nd ← getN x
  if nd.dirty ≤ 0 then failure
  else setN x (nd.setDRRaw s.t i dr)

/-- `setDR`: a zero DR changes nothing. -/
def setDR (x i dr p pi : Nat) : BtM α Nat :=
  if dr = 0 then pure x
  else do
    let nd ← getN x
    let x ← if nd.dirty ≤ 0 then addDStoBTN x p pi 1 else pure x
    setDRRaw x i dr
    pure x

/-- `zeroDR`; it takes `p` and `pi` in the source, and does not use them. -/
def zeroDR (x i : Nat) : BtM α Nat := do
  let nd ← getN x
  if nd.dirty ≤ 0 then pure x
  else do
    setDRRaw x i 0
    pure x

/-- `incrDR`. -/
def incrDR (x i dr p pi : Nat) : BtM α Nat :=
  if dr = 0 then pure x
  else do
    let nd ← getN x
    let x ← if nd.dirty ≤ 0 then addDStoBTN x p pi 1 else pure x
    let odr ← getDR x i
    setDR x i (odr + dr) p pi

/-- `overwriteDR`. -/
def overwriteDR (x i dr p pi : Nat) : BtM α Nat :=
  if dr ≠ 0 then setDR x i dr p pi else zeroDR x i

/-! ## Moving keys with their DRs -/

/-- `setBTKey`: copy key `si` of `sx` to slot `di` of `dx`.  The source DR is
zeroed; it goes to the destination only if `drt`. -/
def setBTKey (dx di sx si : Nat) (drt : Bool) (pd pdi : Nat) : BtM α Nat := do
  let dx ← if drt then do
      let dr ← getDR sx si
      let dx ← overwriteDR dx di dr pd pdi
      let _ ← zeroDR sx si
      pure dx
    else do
      let _ ← zeroDR sx si
      pure dx
  let k ← KEYS sx si
  setBTKeyRaw dx di k
  pure dx

/-- One round of the loop of `mvXKeys`: slot `sii` of `sx` to slot `dii` of `dx`. -/
def mvXKeysStep (x2x : Bool) (dii sii pd pdi : Nat) (dx sx : Nat) : BtM α (Nat × Nat) := do
  let drs ← getDR sx sii
  let drd ← getDR dx dii
  let (dx, sx) ←
    if drs ≠ 0 then do
      let dx ← setDR dx dii drs pd pdi
      let sx := if x2x then dx else sx
      let sx ← zeroDR sx sii
      pure (if x2x then sx else dx, sx)
    else if drd ≠ 0 then do
      let dx ← zeroDR dx dii
      pure (dx, if x2x then dx else sx)
    else pure (dx, sx)
  let nds ← getN sx
  modN dx (fun nd => { nd with keys := upd nd.keys dii (nds.keys sii) })
  pure (dx, sx)

/-- The rounds of `mvXKeys`: from the last slot down when the keys move up, from
the first one up when they move down. -/
def mvXKeysOrder (di si num : Nat) : List Nat :=
  if di ≥ si then (List.range num).reverse else List.range num

/-- `mvXKeys`: move `num` keys from slot `si` of `sx` to slot `di` of `dx`.  The
new addresses of both nodes are returned (the C code updates them in place). -/
def mvXKeys (dx di sx si num pd pdi : Nat) : BtM α (Nat × Nat) :=
  (mvXKeysOrder di si num).foldlM
    (fun ds i => mvXKeysStep (dx == sx) (di + i) (si + i) pd pdi ds.1 ds.2) (dx, sx)

/-- `mvXNodes`: a `memmove` of `num` child pointers. -/
def mvXNodes (x xofst z zofst num : Nat) : BtM α Unit := do
  let nz ← getN z
  let nx ← getN x
  if nz.leaf || nx.leaf then failure
  else setN x { nx with nodes := fun j =>
    if xofst ≤ j ∧ j < xofst + num then nz.nodes (zofst + (j - xofst)) else nx.nodes j }

/-- `trimBTN`: the slot it clears is `n`, not the last one. -/
def trimBTN (x : Nat) (drt : Bool) : BtM α Nat := do
  let nd ← getN x
  let x ← if drt then zeroDR x nd.n else pure x
  modN x (fun nd => { nd with n := nd.n - 1 })
  pure x

end AlchemyDB
