/-
# `hash.c` — the table of a sparse row

An open addressing table from column numbers to packed offsets.  An entry that does
not fit its own slot goes to one of the next `max_colijns` slots, around the end of
the table, and its own slot counts how far entries were put; when there is no room
the table grows by a quarter and everything is entered again.  `hash16` is a copy of
`hash32` with narrower fields; the copies are one definition here, over the widths.

The number of collisions of a `hash16` entry is an `uchar`.
-/
import AlchemyDB.Lib.Bytes
import AlchemyDB.Lib.Store

namespace AlchemyDB.Format

open Bytes Store

/-- The sizes of the fields of an entry, in bytes. -/
structure Width where
  count : Nat
  key : Nat
  val : Nat
  deriving DecidableEq, Repr

def hash16 : Width := ⟨1, 2, 4⟩
def hash32 : Width := ⟨4, 4, 8⟩

/-- `sizeof(ahash16_entry)` and `sizeof(ahash32_entry)`. -/
def Width.entry (w : Width) : Nat := w.count + w.key + w.val

structure Entry where
  nColijns : Nat
  key : Nat
  val : Nat
  deriving DecidableEq, Repr

/-- `ahash16` and `ahash32`; of the array only the slots below `nentries` count. -/
structure Ahash where
  nvalid : Nat
  nentries : Nat
  maxColijns : Nat
  entries : Nat → Entry

namespace Ahash

/-- A slot is free when its key is `HASH_NULL`. -/
def free : Entry := ⟨0, 0, 0⟩

def make (nentries : Nat) : Ahash := ⟨0, if nentries = 0 then 2 else nentries, 25, fun _ => free⟩

/-- `alc_hash16_size` and `alc_hash32_size`, in 32 bits. -/
def size (w : Width) (nentries : Nat) : Nat := (nentries * w.entry + 24) % 4294967296

/-- The slots behind `index` that a search goes to, around the end of the table. -/
def probes (n index count wrap : Nat) : List Nat :=
  if index + count ≥ n then List.range' (index + 1) (n - 1 - index) ++ List.range wrap
  else List.range' (index + 1) count

/-- `lookup_16entry` and `lookup_32entry`. -/
def lookupEntry (n : Nat) (entries : Nat → Entry) (key : Nat) : Option Nat :=
  let index := key % n
  let c := (entries index).nColijns
  if (entries index).key = key then some index
  else if c > 0 then
    (probes n index c (index + c - n + 1)).find? fun i => decide ((entries i).key = key)
  else none

/-- `alc_hash16_fetch` and `alc_hash32_fetch`. -/
def fetch (n : Nat) (entries : Nat → Entry) (key : Nat) : Nat :=
  if key = 0 then 0
  else
    match lookupEntry n entries key with
    | some i => (entries i).val
    | none => 0

/-- `lookup_16insert_entry` and `lookup_32insert_entry`: a slot for the key, and how far it is from
the key's own slot. -/
def lookupInsertEntry (ht : Ahash) (key : Nat) : Option (Nat × Nat) :=
  let n := ht.nentries
  let index := key % n
  let fits (i : Nat) : Bool := decide ((ht.entries i).key = key ∨ (ht.entries i).key = 0)
  if fits index then some (index, 0)
  else
    ((probes n index ht.maxColijns (min n (index + ht.maxColijns - n + 1))).zipIdx 1).find?
      fun s => fits s.1

/-- A key enters a slot; its own slot counts the distance, in the bytes of the field. -/
def enter (w : Width) (ht : Ahash) (key val slot dist : Nat) : Ahash :=
  let home := key % ht.nentries
  let es :=
    if dist > (ht.entries home).nColijns then
      upd ht.entries home { ht.entries home with nColijns := dist % 256 ^ w.count }
    else ht.entries
  { ht with
    nvalid := if (ht.entries slot).key = key then ht.nvalid else ht.nvalid + 1
    entries := upd es slot { es slot with key := key, val := val } }

/-- The inner loop of the insertion, on a table that is to be left: `max_colijns` grows by half,
until the key would find a slot or the whole table is searched. -/
def expand (key : Nat) : Nat → Ahash → Ahash
  | 0, ht => ht
  | fuel + 1, ht =>
      if ht.maxColijns = ht.nentries then ht
      else
        let ht := { ht with maxColijns := min (ht.maxColijns + ht.maxColijns / 2) ht.nentries }
        if (ht.lookupInsertEntry key).isSome then ht else expand key fuel ht

/-- The larger table of a rehash, still empty. -/
def grown (ht : Ahash) : Ahash :=
  { nvalid := 0
    nentries := ht.nentries + max 2 (ht.nentries / 4)
    maxColijns := if ht.maxColijns = 0 then 25 else ht.maxColijns
    entries := fun _ => free }

/-- `hash16_insert` and `hash32_insert`, with `rehash16` and `rehash32`: a rehash enters the old
entries slot by slot, and may have to rehash in turn. -/
def insert (w : Width) : Nat → Nat → Nat → Nat → Ahash → Option Ahash
  | 0, _, _, _, _ => none
  | fuel + 1, key, val, lvl, ht =>
      if key = 0 then some ht
      else
        match ht.lookupInsertEntry key with
        | some (slot, dist) => some (enter w ht key val slot dist)
        | none =>
            let ht := if lvl > 1 then expand key (ht.nentries + 2) ht else ht
            let moved := (List.range ht.nentries).foldlM
              (fun acc i =>
                let e := ht.entries i
                if e.key = 0 then some acc else insert w fuel e.key e.val (lvl + 1) acc)
              ht.grown
            moved.bind (insert w fuel key val lvl)

/-- The bytes of an entry. -/
def entryBytes (w : Width) (e : Entry) : List UInt8 :=
  le w.count e.nColijns ++ le w.key e.key ++ le w.val e.val

/-- The table in a row: the structure, with four bytes of padding and a null pointer for the entries,
and the entries behind it. -/
def bytes (w : Width) (ht : Ahash) : List UInt8 :=
  le 4 ht.nvalid ++ le 4 ht.nentries ++ le 4 ht.maxColijns ++ le 12 0 ++
    (List.range ht.nentries).flatMap fun i => entryBytes w (ht.entries i)

/-- The number of entries of the table at an address. -/
def nentriesAt (m : Nat → UInt8) (o : Nat) : Nat := ofLe (peek m (o + 4) 4)

/-- The entries of the table at an address, which come right behind the structure. -/
def entriesAt (w : Width) (m : Nat → UInt8) (o i : Nat) : Entry :=
  let a := o + 24 + i * w.entry
  { nColijns := ofLe (peek m a w.count)
    key := ofLe (peek m (a + w.count) w.key)
    val := ofLe (peek m (a + w.count + w.key) w.val) }

end Ahash

end AlchemyDB.Format
