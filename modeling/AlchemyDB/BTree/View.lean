/-
# `AlchemyDB.BTree.View` — what a proof looks at in a node

The programs of `Dirty.lean` change the dirty stream of a node in many places,
and most theorems do not care about it.  A `View` says what is observed of an
entry and its DR, and which discipline `P` the dirty streams keep; its laws are
the facts about `zeroDR` and `setDR` that the moves of keys rest on.  A stream
that is widened may lose DRs, so an entry is promised to stay what it was only
if it is `ok`.  The clean
tree, the tree of which only the keys are looked at, and the tree with all its
DRs are three views, and every balancing step is proved once, for any view.

The first section gives the DR functions as functions on the node's contents,
without the relocation.
-/
import Mathlib.Data.Set.Card
import AlchemyDB.BTree.Dirty

namespace AlchemyDB

open Store

variable {α β : Type}

/-! ## DR functions on the contents of a node -/

namespace BtN

/-- `zeroDR`. -/
def zDR (t : Nat) (nd : BtN α) (i : Nat) : BtN α :=
  if nd.dirty ≤ 0 then nd else nd.setDRRaw t i 0

/-- The contents after `addDStoBTN`. -/
def addDS (nd : BtN α) : BtN α := { nd with dirty := 1, ds := fun _ => 0 }

/-- `setDR`. -/
def stDR (t : Nat) (nd : BtN α) (i v : Nat) : BtN α :=
  if v = 0 then nd else (if nd.dirty ≤ 0 then nd.addDS else nd).setDRRaw t i v

/-- `overwriteDR`. -/
def owDR (t : Nat) (nd : BtN α) (i v : Nat) : BtN α :=
  if v ≠ 0 then nd.stDR t i v else nd.zDR t i

def setKey (nd : BtN α) (i : Nat) (k : α) : BtN α := { nd with keys := upd nd.keys i k }

def setKid (nd : BtN α) (i a : Nat) : BtN α := { nd with nodes := upd nd.nodes i a }

/-- `incr_scion`. -/
def addSc (nd : BtN α) (m : Int) : BtN α := { nd with scion := nd.scion + m }

def addN (nd : BtN α) (m : Nat) : BtN α := { nd with n := nd.n + m }

def withSc (nd : BtN α) (m : Int) : BtN α := { nd with scion := m }

def withN (nd : BtN α) (m : Nat) : BtN α := { nd with n := m }

/-- Two nodes that differ in the dirty stream only. -/
def Redirt (nd nd' : BtN α) : Prop :=
  ∃ d m f, nd' = { nd with dirty := d, ndirty := m, ds := f }

theorem Redirt.rfl' (nd : BtN α) : Redirt nd nd := ⟨nd.dirty, nd.ndirty, nd.ds, rfl⟩

theorem Redirt.trans {a b c : BtN α} (h : Redirt a b) (h' : Redirt b c) : Redirt a c := by
  obtain ⟨d, m, f, rfl⟩ := h
  obtain ⟨d', m', f', rfl⟩ := h'
  exact ⟨d', m', f', rfl⟩

theorem redirt_widen (t : Nat) (nd : BtN α) (v : Nat) : Redirt nd (nd.widen t v) := by
  unfold widen incrDs
  simp only
  split_ifs <;> exact ⟨_, _, _, rfl⟩

theorem redirt_setDRRaw (t : Nat) (nd : BtN α) (i v : Nat) :
    Redirt nd (nd.setDRRaw t i v) := by
  refine (redirt_widen t nd v).trans ?_
  unfold setDRRaw releaseDirtyStream
  simp only
  split_ifs <;> exact ⟨_, _, _, rfl⟩

theorem redirt_zDR (t : Nat) (nd : BtN α) (i : Nat) : Redirt nd (nd.zDR t i) := by
  unfold zDR
  split_ifs
  · exact Redirt.rfl' nd
  · exact redirt_setDRRaw t nd i 0

theorem redirt_stDR (t : Nat) (nd : BtN α) (i v : Nat) : Redirt nd (nd.stDR t i v) := by
  unfold stDR
  split_ifs
  · exact Redirt.rfl' nd
  · exact Redirt.trans ⟨_, _, _, rfl⟩ (redirt_setDRRaw t nd.addDS i v)
  · exact redirt_setDRRaw t nd i v

theorem redirt_owDR (t : Nat) (nd : BtN α) (i v : Nat) : Redirt nd (nd.owDR t i v) := by
  unfold owDR
  split_ifs
  · exact redirt_stDR t nd i v
  · exact redirt_zDR t nd i

section Fields

variable {nd nd' : BtN α}

theorem Redirt.scion (h : Redirt nd nd') : nd'.scion = nd.scion := by
  obtain ⟨d, m, f, rfl⟩ := h; rfl

theorem Redirt.n (h : Redirt nd nd') : nd'.n = nd.n := by
  obtain ⟨d, m, f, rfl⟩ := h; rfl

theorem Redirt.leaf (h : Redirt nd nd') : nd'.leaf = nd.leaf := by
  obtain ⟨d, m, f, rfl⟩ := h; rfl

theorem Redirt.keys (h : Redirt nd nd') : nd'.keys = nd.keys := by
  obtain ⟨d, m, f, rfl⟩ := h; rfl

theorem Redirt.nodes (h : Redirt nd nd') : nd'.nodes = nd.nodes := by
  obtain ⟨d, m, f, rfl⟩ := h; rfl

end Fields

section Simp

variable (t : Nat) (nd : BtN α) (i v : Nat) (k : α)

@[simp] theorem zDR_scion : (nd.zDR t i).scion = nd.scion := (redirt_zDR t nd i).scion
@[simp] theorem zDR_n : (nd.zDR t i).n = nd.n := (redirt_zDR t nd i).n
@[simp] theorem zDR_leaf : (nd.zDR t i).leaf = nd.leaf := (redirt_zDR t nd i).leaf
@[simp] theorem zDR_keys : (nd.zDR t i).keys = nd.keys := (redirt_zDR t nd i).keys
@[simp] theorem zDR_nodes : (nd.zDR t i).nodes = nd.nodes := (redirt_zDR t nd i).nodes
@[simp] theorem stDR_scion : (nd.stDR t i v).scion = nd.scion := (redirt_stDR t nd i v).scion
@[simp] theorem stDR_n : (nd.stDR t i v).n = nd.n := (redirt_stDR t nd i v).n
@[simp] theorem stDR_leaf : (nd.stDR t i v).leaf = nd.leaf := (redirt_stDR t nd i v).leaf
@[simp] theorem stDR_keys : (nd.stDR t i v).keys = nd.keys := (redirt_stDR t nd i v).keys
@[simp] theorem stDR_nodes : (nd.stDR t i v).nodes = nd.nodes := (redirt_stDR t nd i v).nodes
@[simp] theorem owDR_scion : (nd.owDR t i v).scion = nd.scion := (redirt_owDR t nd i v).scion
@[simp] theorem owDR_n : (nd.owDR t i v).n = nd.n := (redirt_owDR t nd i v).n
@[simp] theorem owDR_leaf : (nd.owDR t i v).leaf = nd.leaf := (redirt_owDR t nd i v).leaf
@[simp] theorem owDR_keys : (nd.owDR t i v).keys = nd.keys := (redirt_owDR t nd i v).keys
@[simp] theorem owDR_nodes : (nd.owDR t i v).nodes = nd.nodes := (redirt_owDR t nd i v).nodes

@[simp] theorem setKey_scion : (nd.setKey i k).scion = nd.scion := rfl
@[simp] theorem setKey_n : (nd.setKey i k).n = nd.n := rfl
@[simp] theorem setKey_leaf : (nd.setKey i k).leaf = nd.leaf := rfl
@[simp] theorem setKey_keys : (nd.setKey i k).keys = upd nd.keys i k := rfl
@[simp] theorem setKey_nodes : (nd.setKey i k).nodes = nd.nodes := rfl
@[simp] theorem setKey_dr (j : Nat) : (nd.setKey i k).dr j = nd.dr j := rfl
@[simp] theorem setKid_scion : (nd.setKid i v).scion = nd.scion := rfl
@[simp] theorem setKid_n : (nd.setKid i v).n = nd.n := rfl
@[simp] theorem setKid_leaf : (nd.setKid i v).leaf = nd.leaf := rfl
@[simp] theorem setKid_keys : (nd.setKid i v).keys = nd.keys := rfl
@[simp] theorem setKid_nodes : (nd.setKid i v).nodes = upd nd.nodes i v := rfl
@[simp] theorem setKid_dr (j : Nat) : (nd.setKid i v).dr j = nd.dr j := rfl

@[simp] theorem addSc_scion (m : Int) : (nd.addSc m).scion = nd.scion + m := rfl
@[simp] theorem addSc_n (m : Int) : (nd.addSc m).n = nd.n := rfl
@[simp] theorem addSc_leaf (m : Int) : (nd.addSc m).leaf = nd.leaf := rfl
@[simp] theorem addSc_keys (m : Int) : (nd.addSc m).keys = nd.keys := rfl
@[simp] theorem addSc_nodes (m : Int) : (nd.addSc m).nodes = nd.nodes := rfl
@[simp] theorem addSc_dr (m : Int) (j : Nat) : (nd.addSc m).dr j = nd.dr j := rfl
@[simp] theorem addN_scion : (nd.addN v).scion = nd.scion := rfl
@[simp] theorem addN_n : (nd.addN v).n = nd.n + v := rfl
@[simp] theorem addN_leaf : (nd.addN v).leaf = nd.leaf := rfl
@[simp] theorem addN_keys : (nd.addN v).keys = nd.keys := rfl
@[simp] theorem addN_nodes : (nd.addN v).nodes = nd.nodes := rfl
@[simp] theorem addN_dr (j : Nat) : (nd.addN v).dr j = nd.dr j := rfl
@[simp] theorem withSc_scion (m : Int) : (nd.withSc m).scion = m := rfl
@[simp] theorem withSc_n (m : Int) : (nd.withSc m).n = nd.n := rfl
@[simp] theorem withSc_leaf (m : Int) : (nd.withSc m).leaf = nd.leaf := rfl
@[simp] theorem withSc_nodes (m : Int) : (nd.withSc m).nodes = nd.nodes := rfl
@[simp] theorem withN_scion : (nd.withN v).scion = nd.scion := rfl
@[simp] theorem withN_n : (nd.withN v).n = v := rfl
@[simp] theorem withN_leaf : (nd.withN v).leaf = nd.leaf := rfl
@[simp] theorem withN_nodes : (nd.withN v).nodes = nd.nodes := rfl

theorem setKid_self (h : nd.nodes i = v) : nd.setKid i v = nd := by
  subst h
  simp [setKid]

@[simp] theorem setKid_setKid (w : Nat) : (nd.setKid i v).setKid i w = nd.setKid i w := by
  simp [setKid]

/-- The node has a dirty stream wherever one of its DRs is not zero. -/
theorem dirty_of_dr {nd : BtN α} {i : Nat} (h : nd.dr i ≠ 0) : ¬ nd.dirty ≤ 0 := by
  intro hd
  simp [dr, hd] at h

end Simp

/-- Agreement outside keys and dirty stream. -/
structure Like (nd' nd : BtN α) : Prop where
  scion : nd'.scion = nd.scion
  n : nd'.n = nd.n
  leaf : nd'.leaf = nd.leaf
  nodes : nd'.nodes = nd.nodes

theorem Like.rfl' (nd : BtN α) : Like nd nd := ⟨rfl, rfl, rfl, rfl⟩

theorem Like.trans {a b c : BtN α} (h : Like a b) (h' : Like b c) : Like a c :=
  ⟨h.scion.trans h'.scion, h.n.trans h'.n, h.leaf.trans h'.leaf, h.nodes.trans h'.nodes⟩

end BtN

/-! ## Views -/

/-- What is observed of the entries of a tree, and the discipline of its dirty
streams: `see k dr` is the observation of a key with its DR, `fits` the DRs that
may be stored.  When the tree `counts`, the scion of a node is the sum of the
weights of the entries below it. -/
structure View (α β : Type) where
  t : Nat
  two_le : 2 ≤ t
  P : BtN α → Prop
  fits : Nat → Prop
  see : α → Nat → β
  ok : β → Prop
  counts : Prop
  wt : β → Int
  wt_see : counts → ∀ k dr, wt (see k dr) = 1 + dr
  shape : ∀ {nd nd' : BtN α}, nd'.dirty = nd.dirty → nd'.ndirty = nd.ndirty →
    nd'.ds = nd.ds → P nd → P nd'
  blank : ∀ {src nd : BtN α}, P src → nd.dirty = src.dirty → nd.ndirty = 0 →
    (nd.ds = fun _ => 0) → P nd
  zero : ∀ {nd : BtN α} (i : Nat), P nd → P (nd.zDR t i)
  set : ∀ {nd : BtN α} (i : Nat) {v : Nat}, P nd → fits v → P (nd.stDR t i v)
  fits_dr : ∀ {nd : BtN α} (i : Nat), P nd → fits (nd.dr i)
  zero_dr : ∀ {nd : BtN α} (i j : Nat), P nd →
    (nd.zDR t i).dr j = if j = i then 0 else nd.dr j
  set_dr : ∀ {nd : BtN α} (i : Nat) {v : Nat}, P nd → fits v → v ≠ 0 →
    (nd.stDR t i v).dr i = v
  see_set_ne : ∀ {nd : BtN α} (k : α) {i j : Nat} {v : Nat}, P nd → fits v → j ≠ i →
    ok (see k (nd.dr j)) → see k ((nd.stDR t i v).dr j) = see k (nd.dr j)

namespace View

variable (V : View α β)

/-- Entry `j` of a node as the view shows it. -/
def entry (nd : BtN α) (j : Nat) : β := V.see (nd.keys j) (nd.dr j)

variable {V} {nd nd' : BtN α}

theorem P_setKey (i : Nat) (k : α) (h : V.P nd) : V.P (nd.setKey i k) :=
  V.shape (Eq.refl nd.dirty) (Eq.refl nd.ndirty) (Eq.refl nd.ds) h

theorem P_setKid (i a : Nat) (h : V.P nd) : V.P (nd.setKid i a) :=
  V.shape (Eq.refl nd.dirty) (Eq.refl nd.ndirty) (Eq.refl nd.ds) h

theorem P_addSc (m : Int) (h : V.P nd) : V.P (nd.addSc m) :=
  V.shape (Eq.refl nd.dirty) (Eq.refl nd.ndirty) (Eq.refl nd.ds) h

theorem P_addN (m : Nat) (h : V.P nd) : V.P (nd.addN m) :=
  V.shape (Eq.refl nd.dirty) (Eq.refl nd.ndirty) (Eq.refl nd.ds) h

theorem P_withSc (m : Int) (h : V.P nd) : V.P (nd.withSc m) :=
  V.shape (Eq.refl nd.dirty) (Eq.refl nd.ndirty) (Eq.refl nd.ds) h

theorem P_withN (m : Nat) (h : V.P nd) : V.P (nd.withN m) :=
  V.shape (Eq.refl nd.dirty) (Eq.refl nd.ndirty) (Eq.refl nd.ds) h

@[simp] theorem entry_addSc (m : Int) (j : Nat) : V.entry (nd.addSc m) j = V.entry nd j := rfl

@[simp] theorem entry_addN (m j : Nat) : V.entry (nd.addN m) j = V.entry nd j := rfl

@[simp] theorem entry_setKid (i a j : Nat) : V.entry (nd.setKid i a) j = V.entry nd j := rfl

theorem see_zero_at (V : View α β) {nd : BtN α} (k : α) (i : Nat) (h : V.P nd) :
    V.see k ((nd.zDR V.t i).dr i) = V.see k 0 := by
  rw [V.zero_dr i i h, if_pos rfl]

theorem see_zero_ne (V : View α β) {nd : BtN α} (k : α) {i j : Nat} (h : V.P nd) (hj : j ≠ i) :
    V.see k ((nd.zDR V.t i).dr j) = V.see k (nd.dr j) := by
  rw [V.zero_dr i j h, if_neg hj]

theorem see_set_at (V : View α β) {nd : BtN α} (k : α) (i : Nat) {v : Nat} (h : V.P nd)
    (hv : V.fits v) (h0 : v ≠ 0) : V.see k ((nd.stDR V.t i v).dr i) = V.see k v := by
  rw [V.set_dr i h hv h0]

theorem P_ow {i v : Nat} (h : V.P nd) (hv : V.fits v) : V.P (nd.owDR V.t i v) := by
  unfold BtN.owDR
  split_ifs
  · exact V.set i h hv
  · exact V.zero i h

theorem see_ow_at (k : α) {i v : Nat} (h : V.P nd) (hv : V.fits v) :
    V.see k ((nd.owDR V.t i v).dr i) = V.see k v := by
  unfold BtN.owDR
  split_ifs with h0
  · exact V.see_set_at k i h hv h0
  · rw [not_not.1 h0]
    exact V.see_zero_at k i h

theorem see_ow_ne (k : α) {i j v : Nat} (h : V.P nd) (hv : V.fits v) (hj : j ≠ i)
    (ho : V.ok (V.see k (nd.dr j))) :
    V.see k ((nd.owDR V.t i v).dr j) = V.see k (nd.dr j) := by
  unfold BtN.owDR
  split_ifs
  · exact V.see_set_ne k h hv hj ho
  · exact V.see_zero_ne k h hj

theorem entry_setKey_at (i : Nat) (k : α) : V.entry (nd.setKey i k) i = V.see k (nd.dr i) := by
  simp [entry]

theorem entry_setKey_ne {i j : Nat} (k : α) (h : j ≠ i) :
    V.entry (nd.setKey i k) j = V.entry nd j := by
  simp [entry, h]

/-! ## One key moves -/

/-- The key of slot `si` has gone to slot `di` of the same node, with its DR; the
other slots show what they did. -/
structure Slid (V : View α β) (nd nd' : BtN α) (di si : Nat) : Prop where
  ok : V.P nd'
  like : BtN.Like nd' nd
  keys : nd'.keys = upd nd.keys di (nd.keys si)
  here : V.entry nd' di = V.entry nd si
  gone : ∀ k, V.see k (nd'.dr si) = V.see k 0
  off : ∀ j, j ≠ di → j ≠ si → V.ok (V.entry nd j) → V.entry nd' j = V.entry nd j

/-- The key of slot `si` of `ns` has gone to slot `di` of `nd`. -/
structure Passed (V : View α β) (nd nd' ns ns' : BtN α) (di si : Nat) : Prop where
  ok : V.P nd'
  like : BtN.Like nd' nd
  keys : nd'.keys = upd nd.keys di (ns.keys si)
  here : V.entry nd' di = V.entry ns si
  off : ∀ j, j ≠ di → V.ok (V.entry nd j) → V.entry nd' j = V.entry nd j
  src : V.P ns'
  srcLike : BtN.Like ns' ns
  srcKeys : ns'.keys = ns.keys
  srcDr : ∀ j, j ≠ si → ns'.dr j = ns.dr j

theorem Passed.srcOff {V : View α β} {nd nd' ns ns' : BtN α} {di si : Nat}
    (h : Passed V nd nd' ns ns' di si) (j : Nat) (hj : j ≠ si) :
    V.entry ns' j = V.entry ns j := by
  rw [entry, h.srcKeys, h.srcDr j hj]
  rfl

end View

namespace BtN

/-- One round of `mvXKeys` within a node. -/
def mvIn (t : Nat) (nd : BtN α) (di si : Nat) : BtN α :=
  (if nd.dr si ≠ 0 then (nd.stDR t di (nd.dr si)).zDR t si
    else if nd.dr di ≠ 0 then nd.zDR t di else nd).setKey di (nd.keys si)

/-- `setBTKey` within a node, with `drt`. -/
def cpIn (t : Nat) (nd : BtN α) (di si : Nat) : BtN α :=
  ((nd.owDR t di (nd.dr si)).zDR t si).setKey di (nd.keys si)

/-- One round of `mvXKeys` between two nodes: the destination. -/
def mvDst (t : Nat) (nd ns : BtN α) (di si : Nat) : BtN α :=
  (if ns.dr si ≠ 0 then nd.stDR t di (ns.dr si)
    else if nd.dr di ≠ 0 then nd.zDR t di else nd).setKey di (ns.keys si)

/-- One round of `mvXKeys` between two nodes: the source. -/
def mvSrc (t : Nat) (ns : BtN α) (si : Nat) : BtN α :=
  if ns.dr si ≠ 0 then ns.zDR t si else ns

/-- One round of `mvXKeys` between two nodes. -/
def mvAcross (t : Nat) (w : BtN α × BtN α) (di si : Nat) : BtN α × BtN α :=
  (w.1.mvDst t w.2 di si, w.2.mvSrc t si)

/-- `trimBTN`. -/
def trim (t : Nat) (nd : BtN α) (drt : Bool) : BtN α :=
  let nd' := if drt then nd.zDR t nd.n else nd
  { nd' with n := nd'.n - 1 }

/-- `mvXNodes`, from an array of child pointers. -/
def mvKids (nd : BtN α) (src : Nat → Nat) (xo zo num : Nat) : BtN α :=
  { nd with nodes := fun j => if xo ≤ j ∧ j < xo + num then src (zo + (j - xo)) else nd.nodes j }

/-- `setBTKey` between two nodes: the destination. -/
def cpDst (t : Nat) (nd ns : BtN α) (di si : Nat) (drt : Bool) : BtN α :=
  (if drt then nd.owDR t di (ns.dr si) else nd).setKey di (ns.keys si)

end BtN

namespace BtN

section Trim

variable (t : Nat) (nd : BtN α) (drt : Bool)

@[simp] theorem trim_n : (nd.trim t drt).n = nd.n - 1 := by
  cases drt <;> simp [trim]

@[simp] theorem trim_leaf : (nd.trim t drt).leaf = nd.leaf := by
  cases drt <;> simp [trim]

@[simp] theorem trim_scion : (nd.trim t drt).scion = nd.scion := by
  cases drt <;> simp [trim]

@[simp] theorem trim_keys : (nd.trim t drt).keys = nd.keys := by
  cases drt <;> simp [trim]

@[simp] theorem trim_nodes : (nd.trim t drt).nodes = nd.nodes := by
  cases drt <;> simp [trim]

end Trim

section Kids

variable {nd : BtN α} {src : Nat → Nat} {xo zo num j : Nat}

@[simp] theorem mvKids_n : (nd.mvKids src xo zo num).n = nd.n := rfl
@[simp] theorem mvKids_leaf : (nd.mvKids src xo zo num).leaf = nd.leaf := rfl
@[simp] theorem mvKids_scion : (nd.mvKids src xo zo num).scion = nd.scion := rfl

theorem mvKids_in (h : j < num) : (nd.mvKids src xo zo num).nodes (xo + j) = src (zo + j) := by
  simp [mvKids, h]

theorem mvKids_out (h : j < xo ∨ xo + num ≤ j) :
    (nd.mvKids src xo zo num).nodes j = nd.nodes j := by
  have : ¬ (xo ≤ j ∧ j < xo + num) := by omega
  simp [mvKids, this]

end Kids

end BtN

namespace View

variable {V : View α β} {nd ns : BtN α}

theorem P_trim (drt : Bool) (h : V.P nd) : V.P (nd.trim V.t drt) := by
  cases drt with
  | false => exact V.shape (Eq.refl nd.dirty) (Eq.refl nd.ndirty) (Eq.refl nd.ds) h
  | true =>
      have hz := V.zero nd.n h
      exact V.shape (Eq.refl (nd.zDR V.t nd.n).dirty) (Eq.refl (nd.zDR V.t nd.n).ndirty)
        (Eq.refl (nd.zDR V.t nd.n).ds) hz

theorem P_mvKids {src : Nat → Nat} {xo zo num : Nat} (h : V.P nd) :
    V.P (nd.mvKids src xo zo num) :=
  V.shape (Eq.refl nd.dirty) (Eq.refl nd.ndirty) (Eq.refl nd.ds) h

/-- The slot `trimBTN` clears is not one of the keys. -/
theorem entry_trim (drt : Bool) (h : V.P nd) {j : Nat} (hj : j ≠ nd.n) :
    V.entry (nd.trim V.t drt) j = V.entry nd j := by
  cases drt with
  | false => rfl
  | true =>
      have hz := V.see_zero_ne (nd.keys j) h hj
      simp only [entry, BtN.trim_keys]
      exact hz

theorem slid_mvIn {di si : Nat} (h : V.P nd) (hne : di ≠ si) :
    Slid V nd (nd.mvIn V.t di si) di si := by
  unfold BtN.mvIn
  split_ifs with h1 h2
  · have hv := V.fits_dr si h
    have hs := V.set di h hv
    refine ⟨P_setKey _ _ (V.zero si hs), ⟨by simp, by simp, by simp, by simp⟩, by simp, ?_,
      fun k => V.see_zero_at k si hs, ?_⟩
    · rw [entry_setKey_at, V.see_zero_ne _ hs hne, V.see_set_at _ _ h hv h1]
      rfl
    · intro j hj hj' ho
      rw [entry_setKey_ne _ hj]
      simp only [entry, BtN.zDR_keys, BtN.stDR_keys]
      rw [V.see_zero_ne _ hs hj', V.see_set_ne _ h hv hj ho]
  · refine ⟨P_setKey _ _ (V.zero di h), ⟨by simp, by simp, by simp, by simp⟩, by simp, ?_,
      fun k => ?_, ?_⟩
    · rw [entry_setKey_at, V.see_zero_at _ _ h, entry, not_not.1 h1]
    · rw [BtN.setKey_dr, V.see_zero_ne _ h hne.symm, not_not.1 h1]
    · intro j hj _ _
      rw [entry_setKey_ne _ hj]
      simp only [entry, BtN.zDR_keys]
      rw [V.see_zero_ne _ h hj]
  · refine ⟨P_setKey _ _ h, ⟨rfl, rfl, rfl, rfl⟩, rfl, ?_, fun k => ?_, ?_⟩
    · rw [entry_setKey_at, entry, not_not.1 h1, not_not.1 h2]
    · rw [BtN.setKey_dr, not_not.1 h1]
    · exact fun j hj _ _ => entry_setKey_ne _ hj

theorem slid_cpIn {di si : Nat} (h : V.P nd) (hne : di ≠ si) :
    Slid V nd (nd.cpIn V.t di si) di si := by
  have hv := V.fits_dr si h
  have hs : V.P (nd.owDR V.t di (nd.dr si)) := P_ow h hv
  refine ⟨P_setKey _ _ (V.zero si hs), ⟨by simp [BtN.cpIn], by simp [BtN.cpIn],
    by simp [BtN.cpIn], by simp [BtN.cpIn]⟩, by simp [BtN.cpIn], ?_,
    fun k => V.see_zero_at k si hs, ?_⟩
  · rw [BtN.cpIn, entry_setKey_at, V.see_zero_ne _ hs hne, see_ow_at _ h hv]
    rfl
  · intro j hj hj' ho
    rw [BtN.cpIn, entry_setKey_ne _ hj]
    simp only [entry, BtN.zDR_keys, BtN.owDR_keys]
    rw [V.see_zero_ne _ hs hj', see_ow_ne _ h hv hj ho]

theorem passed_mv {di si : Nat} (h : V.P nd) (h' : V.P ns) :
    Passed V nd (nd.mvDst V.t ns di si) ns (ns.mvSrc V.t si) di si := by
  have hv := V.fits_dr si h'
  have hsrc : V.P (ns.mvSrc V.t si) ∧ BtN.Like (ns.mvSrc V.t si) ns ∧
      (ns.mvSrc V.t si).keys = ns.keys ∧
      ∀ j, j ≠ si → (ns.mvSrc V.t si).dr j = ns.dr j := by
    unfold BtN.mvSrc
    split_ifs
    · refine ⟨V.zero si h', ⟨by simp, by simp, by simp, by simp⟩, by simp, fun j hj => ?_⟩
      rw [V.zero_dr si j h', if_neg hj]
    · exact ⟨h', BtN.Like.rfl' ns, rfl, fun _ _ => rfl⟩
  obtain ⟨s1, s2, s3, s4⟩ := hsrc
  unfold BtN.mvDst
  split_ifs with h1 h2
  · refine ⟨P_setKey _ _ (V.set di h hv), ⟨by simp, by simp, by simp, by simp⟩, by simp, ?_, ?_,
      s1, s2, s3, s4⟩
    · rw [entry_setKey_at, V.see_set_at _ _ h hv h1]
      rfl
    · intro j hj ho
      rw [entry_setKey_ne _ hj]
      simp only [entry, BtN.stDR_keys]
      rw [V.see_set_ne _ h hv hj ho]
  · refine ⟨P_setKey _ _ (V.zero di h), ⟨by simp, by simp, by simp, by simp⟩, by simp, ?_, ?_,
      s1, s2, s3, s4⟩
    · rw [entry_setKey_at, V.see_zero_at _ _ h, entry, not_not.1 h1]
    · intro j hj _
      rw [entry_setKey_ne _ hj]
      simp only [entry, BtN.zDR_keys, V.see_zero_ne _ h hj]
  · refine ⟨P_setKey _ _ h, ⟨rfl, rfl, rfl, rfl⟩, rfl, ?_, ?_, s1, s2, s3, s4⟩
    · rw [entry_setKey_at, entry, not_not.1 h1, not_not.1 h2]
    · exact fun j hj _ => entry_setKey_ne _ hj

/-- With `drt` the DR goes along; without it the destination keeps the DR its slot
happens to have. -/
theorem passed_cp (drt : Bool) (di si : Nat) (h : V.P nd) (h' : V.P ns)
    (hdr : drt = false → V.see (ns.keys si) (nd.dr di) = V.entry ns si) :
    Passed V nd (nd.cpDst V.t ns di si drt) ns (ns.zDR V.t si) di si := by
  have hv := V.fits_dr si h'
  have hoff : ∀ j, j ≠ si → (ns.zDR V.t si).dr j = ns.dr j := by
    intro j hj
    rw [V.zero_dr si j h', if_neg hj]
  have hlike : BtN.Like (ns.zDR V.t si) ns := ⟨by simp, by simp, by simp, by simp⟩
  unfold BtN.cpDst
  cases drt with
  | false =>
      simp only [Bool.false_eq_true, if_false]
      refine ⟨P_setKey _ _ h, ⟨rfl, rfl, rfl, rfl⟩, rfl, ?_, fun j hj _ => entry_setKey_ne _ hj,
        V.zero si h', hlike, by simp, hoff⟩
      rw [entry_setKey_at]
      exact hdr rfl
  | true =>
      simp only [if_true]
      refine ⟨P_setKey _ _ (P_ow h hv), ⟨by simp, by simp, by simp, by simp⟩, by simp, ?_, ?_,
        V.zero si h', hlike, by simp, hoff⟩
      · rw [entry_setKey_at, see_ow_at _ h hv]
        rfl
      · intro j hj ho
        rw [entry_setKey_ne _ hj]
        simp only [entry, BtN.owDR_keys]
        rw [see_ow_ne _ h hv hj ho]

/-! ## Rows of keys move -/

/-- Rounds from the last one down: `m` keys from slot `i` on move up one slot. -/
theorem slide_up {f : BtN α → Nat → BtN α} {i : Nat}
    (hf : ∀ nd m, V.P nd → Slid V nd (f nd m) (i + 1 + m) (i + m)) :
    ∀ (m : Nat) (nd : BtN α), V.P nd → ∃ nd', (List.range m).reverse.foldl f nd = nd' ∧
      V.P nd' ∧ BtN.Like nd' nd ∧
      (∀ j, i < j → j ≤ i + m → V.ok (V.entry nd (j - 1)) →
        V.entry nd' j = V.entry nd (j - 1)) ∧
      (∀ j, j < i ∨ i + m < j → V.ok (V.entry nd j) → V.entry nd' j = V.entry nd j) ∧
      (0 < m → ∀ k, V.see k (nd'.dr i) = V.see k 0) := by
  intro m
  induction m with
  | zero =>
      intro nd h
      exact ⟨nd, rfl, h, BtN.Like.rfl' nd, fun j _ _ => by omega, fun j _ _ => rfl, by omega⟩
  | succ m ih =>
      intro nd h
      have hs := hf nd m h
      obtain ⟨nd', hr, hp, hl, h1, h2, h3⟩ := ih (f nd m) hs.ok
      refine ⟨nd', ?_, hp, hl.trans hs.like, ?_, ?_, fun _ k => ?_⟩
      · rw [List.range_succ, List.reverse_append, List.reverse_singleton,
          List.singleton_append, List.foldl_cons, hr]
      · intro j hj hj' ho
        by_cases hm : j = i + 1 + m
        · rw [show j - 1 = i + m by omega] at ho ⊢
          rw [← hs.here] at ho
          rw [h2 j (by omega) (by rwa [hm]), hm, hs.here]
        · have he := hs.off (j - 1) (by omega) (by omega) ho
          rw [h1 j hj (by omega) (by rwa [he]), he]
      · intro j hj ho
        have he := hs.off j (by omega) (by omega) ho
        rw [h2 j (by omega) (by rwa [he]), he]
      · rcases Nat.eq_zero_or_pos m with rfl | hm
        · have hnd : nd' = f nd 0 := by rw [← hr]; rfl
          rw [hnd]
          exact hs.gone k
        · exact h3 hm k

/-- Rounds from the first one up: `m` keys from slot `i + 1` on move down one slot. -/
theorem slide_down {f : BtN α → Nat → BtN α} {i : Nat}
    (hf : ∀ nd m, V.P nd → Slid V nd (f nd m) (i + m) (i + 1 + m)) :
    ∀ (m : Nat) (nd : BtN α), V.P nd → ∃ nd', (List.range m).foldl f nd = nd' ∧
      V.P nd' ∧ BtN.Like nd' nd ∧
      (∀ j, i ≤ j → j < i + m → V.ok (V.entry nd (j + 1)) →
        V.entry nd' j = V.entry nd (j + 1)) ∧
      (∀ j, j < i ∨ i + m < j → V.ok (V.entry nd j) → V.entry nd' j = V.entry nd j) ∧
      (∀ j, i ≤ j → j < i + m → nd'.keys j = nd.keys (j + 1)) ∧
      ∀ j, j < i ∨ i + m ≤ j → nd'.keys j = nd.keys j := by
  intro m
  induction m with
  | zero =>
      intro nd h
      exact ⟨nd, rfl, h, BtN.Like.rfl' nd, fun j _ _ => by omega, fun j _ _ => rfl,
        fun j _ _ => by omega, fun j _ => rfl⟩
  | succ m ih =>
      intro nd h
      obtain ⟨nd', hr, hp, hl, h1, h2, h3, h4⟩ := ih nd h
      have hs := hf nd' m hp
      refine ⟨f nd' m, ?_, hs.ok, hs.like.trans hl, ?_, ?_, ?_, ?_⟩
      · rw [List.range_succ, List.foldl_append, hr]
        rfl
      · intro j hj hj' ho
        by_cases hm : j = i + m
        · rw [show j + 1 = i + 1 + m by omega] at ho ⊢
          rw [hm, hs.here, h2 _ (by omega) ho]
        · have he := h1 j hj (by omega) ho
          rw [hs.off j hm (by omega) (by rwa [he]), he]
      · intro j hj ho
        have he := h2 j (by omega) ho
        rw [hs.off j (by omega) (by omega) (by rwa [he]), he]
      · intro j hj hj'
        rw [hs.keys]
        by_cases hm : j = i + m
        · rw [hm, upd_same, h4 _ (by omega)]
          congr 1
          omega
        · rw [upd_ne _ _ hm, h3 j hj (by omega)]
      · intro j hj
        rw [hs.keys, upd_ne _ _ (by omega), h4 j (by omega)]

/-- Rounds from the last one down: `m` keys go from slot `si` of `ns` to slot `di` of
`nd`. -/
theorem pass_down {f : BtN α × BtN α → Nat → BtN α × BtN α} (di si : Nat)
    (hf : ∀ nd ns m, V.P nd → V.P ns →
      Passed V nd (f (nd, ns) m).1 ns (f (nd, ns) m).2 (di + m) (si + m)) :
    ∀ (m : Nat) (nd ns : BtN α), V.P nd → V.P ns →
      ∃ nd' ns', (List.range m).reverse.foldl f (nd, ns) = (nd', ns') ∧
      V.P nd' ∧ BtN.Like nd' nd ∧ V.P ns' ∧ BtN.Like ns' ns ∧
      (∀ j, di ≤ j → j < di + m → V.ok (V.entry ns (j - di + si)) →
        V.entry nd' j = V.entry ns (j - di + si)) ∧
      ∀ j, j < di ∨ di + m ≤ j → V.ok (V.entry nd j) → V.entry nd' j = V.entry nd j := by
  intro m
  induction m with
  | zero =>
      intro nd ns h h'
      exact ⟨nd, ns, rfl, h, BtN.Like.rfl' nd, h', BtN.Like.rfl' ns, fun j _ _ => by omega,
        fun j _ _ => rfl⟩
  | succ m ih =>
      intro nd ns h h'
      have hs := hf nd ns m h h'
      obtain ⟨nd', ns', hr, hp, hl, hp', hl', h1, h2⟩ := ih _ _ hs.ok hs.src
      refine ⟨nd', ns', ?_, hp, hl.trans hs.like, hp', hl'.trans hs.srcLike, ?_, ?_⟩
      · rw [List.range_succ, List.reverse_append, List.reverse_singleton,
          List.singleton_append, List.foldl_cons, hr]
      · intro j hj hj' ho
        by_cases hm : j = di + m
        · rw [show j - di + si = si + m by omega] at ho ⊢
          rw [← hs.here] at ho
          rw [h2 j (by omega) (by rwa [hm]), hm, hs.here]
        · have he := hs.srcOff (j - di + si) (by omega)
          rw [h1 j hj (by omega) (by rwa [he]), he]
      · intro j hj ho
        have he := hs.off j (by omega) ho
        rw [h2 j (by omega) (by rwa [he]), he]

/-- Rounds from the first one up, between two nodes. -/
theorem pass_up {f : BtN α × BtN α → Nat → BtN α × BtN α} {si : Nat}
    (hf : ∀ nd ns m, V.P nd → V.P ns →
      Passed V nd (f (nd, ns) m).1 ns (f (nd, ns) m).2 m (m + si)) :
    ∀ (m : Nat) (nd ns : BtN α), V.P nd → V.P ns →
      ∃ nd' ns', (List.range m).foldl f (nd, ns) = (nd', ns') ∧
      V.P nd' ∧ BtN.Like nd' nd ∧ V.P ns' ∧ BtN.Like ns' ns ∧ ns'.keys = ns.keys ∧
      (∀ j, j < m → V.ok (V.entry ns (j + si)) → V.entry nd' j = V.entry ns (j + si)) ∧
      ∀ j, j < si ∨ si + m ≤ j → ns'.dr j = ns.dr j := by
  intro m
  induction m with
  | zero =>
      intro nd ns h h'
      exact ⟨nd, ns, rfl, h, BtN.Like.rfl' nd, h', BtN.Like.rfl' ns, rfl, fun j _ => by omega,
        fun j _ => rfl⟩
  | succ m ih =>
      intro nd ns h h'
      obtain ⟨nd', ns', hr, hp, hl, hp', hl', hk, h1, h2⟩ := ih nd ns h h'
      have hs := hf nd' ns' m hp hp'
      refine ⟨_, _, ?_, hs.ok, hs.like.trans hl, hs.src, hs.srcLike.trans hl',
        hs.srcKeys.trans hk, ?_, ?_⟩
      · rw [List.range_succ, List.foldl_append, hr]
        rfl
      · intro j hj ho
        by_cases hm : j = m
        · rw [hm, hs.here, entry, hk, h2 _ (by omega)]
          rfl
        · have he := h1 j (by omega) ho
          rw [hs.off j hm (by rwa [he]), he]
      · intro j hj
        rw [hs.srcDr j (by omega), h2 j (by omega)]

end View

end AlchemyDB
