/-
# `row.c`, writing — the format of a row

    normal row:  flag | ncols | offsets, 1, 2 or 4 bytes each | columns
    hash row:    flag | rlen | ncols | table of offsets       | columns

The primary key is not in the row, and empty columns at the end are not stored.  An
offset is the end of its column.  Lengths are kept in 32 bits, and the block for the
row is asked for in 32 bits; to write past its end is a fault.  A row with texts may be
compressed: either every text is packed by `sixbit.c`, or every text goes through the
LZF library, which is a parameter here.
-/
import AlchemyDB.Format.Number
import AlchemyDB.Format.Hash
import AlchemyDB.Format.Sixbit
import AlchemyDB.Row.Packed
import Mathlib.Data.List.DropRight

namespace AlchemyDB.Format

open Bytes Row

/-- A number of 32 bits. -/
def u32 (n : Nat) : Nat := n % 4294967296

/-! ## Columns -/

/-- A column of a row by its type, empty or with a value.  A FLOAT is four bytes; the length of a
TEXT is a number of 32 bits. -/
inductive Field where
  | int (v : Option UInt32)
  | long (v : Option UInt64)
  | u128 (v : Option (BitVec 128))
  | float (v : Option (BitVec 32))
  | text (v : Option { s : List UInt8 // s.length < 4294967296 })

/-- `crd_t`, as far as the type of the column uses it. -/
inductive ColData where
  | num (isi : Bool) (iflags icols : Nat)
  | u128 (xcols : Nat)
  | float (fflags : Bool) (fcols : Nat)
  | text (strs : List UInt8)
  deriving DecidableEq, Repr

namespace Field

def empty : Field → Bool
  | int v => v.isNone
  | long v => v.isNone
  | u128 v => v.isNone
  | float v => v.isNone
  | text v => v.isNone

/-- The length and the data of a column: `cr8IcolFromStr`, `cr8LcolFromStr`, `cr8XcolFromStr`,
`cr8FColFromStr`, and for a TEXT the text between its delimiters. -/
def data : Field → Nat × ColData
  | int none => (0, .num true 0 0)
  | int (some i) =>
      let c := cIcol i.toNat true
      (c.len, .num true c.sflag c.col)
  | long none => (0, .num false 0 0)
  | long (some l) =>
      let c := cIcol l.toNat false
      (c.len, .num false c.sflag c.col)
  | u128 none => (0, .u128 0)
  | u128 (some x) => (16, .u128 x.toNat)
  | float none => (0, .float false 0)
  | float (some f) => (4, .float true f.toNat)
  | text none => (0, .text [])
  | text (some s) => (s.val.length, .text s.val)

end Field

/-- `writeUIntCol` and `writeULongCol`, `writeU128Col`, `writeFloatCol`, and the copy of a TEXT. -/
def ColData.bytes : ColData → List UInt8
  | num isi iflags icols => wUCol iflags icols isi
  | u128 xcols => le 16 xcols
  | float fflags fcols => if fflags then le 4 fcols else []
  | text strs => strs

structure Crd where
  data : ColData
  empty : Bool
  mcofsts : Nat
  deriving DecidableEq, Repr

/-- `cr_t` with its columns; the primary key is the column before them. -/
structure Cr where
  rlen : Nat
  cnt : Nat
  cols : List Crd
  deriving DecidableEq, Repr

def Cr.ncols (cr : Cr) : Nat := cr.cols.length + 1

/-- The columns, each with the length of the row up to its end. -/
def crdsFrom : Nat → List Field → List Crd
  | _, [] => []
  | rlen, f :: fs =>
      ⟨f.data.2, f.empty, u32 (rlen + f.data.1)⟩ :: crdsFrom (u32 (rlen + f.data.1)) fs

/-- `createRow` of a normal table, up to `writeRow`: starting from the right, only filled columns are
written. -/
def createRow (fields : List Field) : Cr :=
  let st := fields.rdropWhile Field.empty
  { rlen := u32 (st.map (·.data.1)).sum
    cnt := st.countP (!·.empty)
    cols := crdsFrom 0 st }

/-! ## Compression -/

/-- The LZF library: the compressed bytes if they fit into a buffer, and back again. -/
structure Lzf where
  compress : List UInt8 → Nat → Option (List UInt8)
  decompress : List UInt8 → Nat → Option (List UInt8)

/-- `cz_t.type`. -/
inductive Czip where
  | none | six | lzf
  deriving DecidableEq, Repr

/-- The texts of a row. -/
def texts (cols : List Crd) : List (List UInt8) :=
  cols.filterMap fun c =>
    match c.data with
    | .text s => some s
    | _ => .none

/-- A column of `czd_t` that LZF wrote: the length of the text and its compressed bytes. -/
def lzfZipCol (z : Lzf) (s : List UInt8) : Option (List UInt8) :=
  let c := cIcol s.length true
  (z.compress s (max 4 (u32 (s.length + 4)))).map fun b => le c.len c.col ++ b

/-- The loop over the texts: the lengths that were counted, and the columns, of which the first that
could not be compressed and all behind it were never written. -/
def lzfLoop (z : Lzf) : List (List UInt8) → Nat × Nat × List (Option (List UInt8))
  | [] => (0, 0, [])
  | s :: ss =>
      match lzfZipCol z s with
      | some b =>
          let r := lzfLoop z ss
          (u32 (s.length + r.1), u32 (b.length + r.2.1), some b :: r.2.2)
      | .none => (s.length, 0, .none :: ss.map fun _ => .none)

/-- The loop that packs every text: a fault, a text that cannot be packed, or all of them. -/
def sixLoop : List (List UInt8) → Option (Option (List (List UInt8)))
  | [] => some (some [])
  | s :: ss =>
      match createSixBit s with
      | .none => .none
      | some .none => some .none
      | some (some b) => (sixLoop ss).map (Option.map (b :: ·))

/-- The choice of `zipCol`, and the bytes of every text.  When LZF gives up on a column the type stays
what it is, and columns that were never written are used: that is the fault. -/
def zipTexts (z : Lzf) (ts : List (List UInt8)) : Option (Czip × List (List UInt8)) :=
  let long := ts.any fun s => decide (s.length > 20)
  let r := lzfLoop z ts
  if long && decide (r.2.1 < r.1) then (r.2.2.mapM id).map fun bs => (.lzf, bs)
  else
    match sixLoop ts with
    | .none => .none
    | some .none => some (.none, ts)
    | some (some bs) => some (.six, bs)

/-- The last loop of `zipCol`: the ends of the columns, less what the texts up to there shrank. -/
def shrink : Int → List Crd → List (List UInt8) → List Crd × Int
  | shrunk, [], _ => ([], shrunk)
  | shrunk, c :: cs, bs =>
      match c.data, bs with
      | .text s, b :: bs =>
          let shrunk := shrunk + ((s.length : Int) - b.length)
          let r := shrink shrunk cs bs
          ({ c with data := .text b, mcofsts := (((c.mcofsts : Int) - shrunk) % 4294967296).toNat } ::
            r.1, r.2)
      | _, bs =>
          let r := shrink shrunk cs bs
          ({ c with mcofsts := (((c.mcofsts : Int) - shrunk) % 4294967296).toNat } :: r.1, r.2)

/-- `zipCol`; the texts that are written take the place of the texts of the row. -/
def zipCol (z : Lzf) (cr : Cr) : Option (Czip × Cr) :=
  (zipTexts z (texts cr.cols)).map fun t =>
    if t.1 = .none then (.none, cr)
    else
      let r := shrink 0 cr.cols t.2
      (t.1, { cr with rlen := (((cr.rlen : Int) - r.2) % 4294967296).toNat, cols := r.1 })

/-! ## Rows -/

/-- `assign_rflag`. -/
def assignRflag (rlen : Nat) (ztype : Czip) : Nat :=
  (if rlen < 255 then 1 else if rlen < 65535 then 2 else 4) +
    (match ztype with
     | .none => 0
     | .six => 8
     | .lzf => 16)

/-- `set_col_offst`. -/
def setColOffst (rflag cofst : Nat) : List UInt8 :=
  if rflag &&& 1 ≠ 0 then le 1 cofst
  else if rflag &&& 2 ≠ 0 then le 2 cofst
  else le 4 cofst

/-- `createRowBlob` and the offsets behind it: the bytes before the columns. -/
def normalHead (cr : Cr) (rflag : Nat) : List UInt8 :=
  UInt8.ofNat rflag :: numBytes (cr.ncols - 1) true ++
    cr.cols.flatMap fun c => setColOffst rflag c.mcofsts

/-- The block that `createRowBlob` asks for. -/
def normalMalloc (cr : Cr) (rflag : Nat) : Nat :=
  u32 (1 + getCSize (cr.ncols - 1) true + cr.ncols * rflag + cr.rlen)

/-- The start and the end of a column in one number, in `createHash16Row` and `createHash32Row`. -/
def hval (use16 : Bool) (prev cur : Nat) : Nat :=
  if use16 then u32 (cur + prev * 65535)
  else ((int32 cur + int32 prev * 4294967295) % 18446744073709551616).toNat

/-- The loop of `createHash16Row` and `createHash32Row` over the columns from number `i` on. -/
def hashCols (w : Width) (use16 : Bool) (fuel : Nat) : Nat → Nat → List Crd → Ahash → Option Ahash
  | _, _, [], ht => some ht
  | i, prev, c :: cs, ht =>
      if c.empty then hashCols w use16 fuel (i + 1) c.mcofsts cs ht
      else
        (ht.insert w fuel i (hval use16 prev c.mcofsts) 0).bind
          (hashCols w use16 fuel (i + 1) c.mcofsts cs)

/-- `createHashRow`: the flag and the table, when the row is sparse enough and the table is smaller
than the offsets by a fifth.  The two comparisons are of `double`s that are exact enough. -/
def createHashRow (cr : Cr) (rflag : Nat) : Option (Option (Nat × Width × Ahash)) :=
  if cr.ncols < 100 ∨ cr.ncols < 4 * cr.cnt then some none
  else
    let sflag := rflag &&& 7
    let use16 := decide (rflag &&& 4 = 0) && decide (cr.ncols < 65535)
    let w := if use16 then hash16 else hash32
    (hashCols w use16 (cr.ncols + 2) 1 0 cr.cols (Ahash.make 2)).map fun ht =>
      if 5 * u32 (cr.ncols * sflag) > 6 * Ahash.size w ht.nentries then
        some (rflag ||| (if use16 then 32 else 64), w, ht)
      else none

/-- The bytes of a hash row before the columns. -/
def hashHead (cr : Cr) (rflag : Nat) (w : Width) (ht : Ahash) : List UInt8 :=
  UInt8.ofNat rflag :: numBytes cr.rlen true ++ numBytes (cr.ncols - 1) true ++ ht.bytes w

/-- The block of a hash row. -/
def hashMalloc (cr : Cr) (w : Width) (ht : Ahash) : Nat :=
  u32 (Ahash.size w ht.nentries + 1 + getCSize cr.rlen true + getCSize (cr.ncols - 1) true +
    cr.rlen)

/-- The bytes before the columns, and the block for the row. -/
def rowHead (cr : Cr) (ztype : Czip) : Option (List UInt8 × Nat) :=
  let rflag := assignRflag cr.rlen ztype
  (createHashRow cr rflag).map fun h =>
    match h with
    | some (rflag, w, ht) => (hashHead cr rflag w ht, hashMalloc cr w ht)
    | none => (normalHead cr rflag, normalMalloc cr rflag)

/-- `writeRow` behind `zipCol`. -/
def writeCols (cr : Cr) (ztype : Czip) : Option (List UInt8) :=
  (rowHead cr ztype).bind fun h =>
    let row := h.1 ++ cr.cols.flatMap (·.data.bytes)
    if row.length ≤ h.2 then some row else none

/-- `writeRow`, with `GlobalZipSwitch`. -/
def writeRow (zip : Bool) (z : Lzf) (cr : Cr) : Option (List UInt8) :=
  if zip && !(texts cr.cols).isEmpty then
    (zipCol z cr).bind fun r => writeCols r.2 r.1
  else writeCols cr .none

end AlchemyDB.Format
