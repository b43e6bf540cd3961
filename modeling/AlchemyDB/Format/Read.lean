/-
# `row.c`, reading — a column of a row in memory

The reader finds a column from the fields of the row itself.  It takes the length of a
normal row from the last offset, and the beginning of the offsets from the number of
columns less one.
-/
import AlchemyDB.Format.Write

namespace AlchemyDB.Format

open Bytes Row

/-- What `getRowPayload` returns: the flag, the number of columns, the length of the row with its
header, and the address of the columns. -/
structure Payload where
  rflag : Nat
  ncols : Nat
  rlen : Nat
  row : Nat
  deriving DecidableEq, Repr

/-- `getHashFromRow`. -/
def getHashFromRow (m : Nat → UInt8) : Nat :=
  let r := 1 + (sI2I m 1 true).2
  r + (sI2I m r true).2

/-- `getRowPayload` of the row at address 0. -/
def getRowPayload (m : Nat → UInt8) : Payload :=
  let rflag := (m 0).toNat
  if rflag &&& 96 ≠ 0 then
    let rlen := u32 (sI2I m 1 true).1
    let r := 1 + (sI2I m 1 true).2
    let ncols := u32 (sI2I m r true).1
    let o := r + (sI2I m r true).2
    let w := if rflag &&& 64 ≠ 0 then hash32 else hash16
    let row := o + Ahash.size w (Ahash.nentriesAt m o)
    ⟨rflag, ncols, u32 (rlen + row), row⟩
  else
    let ncols := u32 (sI2I m 1 true).1
    let row := 1 + (sI2I m 1 true).2 + u32 (ncols * (rflag &&& 7))
    let rlen :=
      if rflag &&& 1 ≠ 0 then ofLe (peek m (row - 1) 1)
      else if rflag &&& 2 ≠ 0 then ofLe (peek m (row - 2) 2)
      else ofLe (peek m (row - 4) 4)
    ⟨rflag, ncols, u32 (rlen + row), row⟩

def getRowMallocSize (m : Nat → UInt8) : Nat := (getRowPayload m).rlen

/-- Where `getColData` looks for the offsets of a normal row. -/
def cofstAt (m : Nat → UInt8) : Nat :=
  1 + getCSize (u32 ((getRowPayload m).ncols + 4294967295)) true

/-- An offset of a normal row. -/
def getCofst (m : Nat → UInt8) (rflag i : Nat) : Nat :=
  let a := cofstAt m
  if rflag &&& 1 ≠ 0 then ofLe (peek m (a + i) 1)
  else if rflag &&& 2 ≠ 0 then ofLe (peek m (a + i * (rflag &&& 7)) 2)
  else ofLe (peek m (a + i * (rflag &&& 7)) 4)

/-- `getColData`: the address and the length of a column. -/
def getColData (m : Nat → UInt8) (cmatch : Nat) : Nat × Nat :=
  let p := getRowPayload m
  let piece (start next : Nat) : Nat × Nat := (p.row + start, u32 (next + 4294967296 - start))
  if cmatch > p.ncols then (p.row, 0)
  else if p.rflag &&& 64 ≠ 0 then
    let o := getHashFromRow m
    let ul := Ahash.fetch (Ahash.nentriesAt m o) (Ahash.entriesAt hash32 m o) cmatch
    let val := Index.wrap64 ul
    piece (val.tdiv 4294967295 % 4294967296).toNat (val.tmod 4294967295 % 4294967296).toNat
  else if p.rflag &&& 32 ≠ 0 then
    let o := getHashFromRow m
    let val := Ahash.fetch (Ahash.nentriesAt m o) (Ahash.entriesAt hash16 m o) (cmatch % 65536)
    piece (val / 65535 % 65536) (val % 65535)
  else
    piece (if cmatch = 1 then 0 else getCofst m p.rflag (cmatch - 2))
      (getCofst m p.rflag (cmatch - 1))

/-- The types of columns. -/
inductive CType where
  | int | long | u128 | float | text
  deriving DecidableEq, Repr

def Field.ctype : Field → CType
  | int _ => .int
  | long _ => .long
  | u128 _ => .u128
  | float _ => .float
  | text _ => .text

/-- `streamLZFTextToString`; a failure is a text of length 0. -/
def streamLZFTextToString (z : Lzf) (m : Nat → UInt8) (o len : Nat) : List UInt8 :=
  let n := sI2I m o true
  (z.decompress (peek m (o + n.2) (u32 (len + 4294967296 - n.2))) (u32 n.1)).getD []

/-- What `getRawCol` returns for a column: its value, or an empty `aobj`. -/
inductive Value where
  | empty
  | int (i : UInt32)
  | long (l : UInt64)
  | u128 (x : BitVec 128)
  | float (f : BitVec 32)
  | text (s : List UInt8)
  deriving DecidableEq, Repr

/-- `getRawCol`, for the columns behind the primary key. -/
def getRawCol (z : Lzf) (t : CType) (m : Nat → UInt8) (cmatch : Nat) : Value :=
  let d := getColData m cmatch
  let rflag := (getRowPayload m).rflag
  if d.2 = 0 then .empty
  else
    match t with
    | .int => .int (UInt32.ofNat (sI2I m d.1 true).1)
    | .long => .long (UInt64.ofNat (sI2I m d.1 false).1)
    | .u128 => .u128 (BitVec.ofNat 128 (ofLe (peek m d.1 16)))
    | .float => .float (BitVec.ofNat 32 (ofLe (peek m d.1 4)))
    | .text =>
        if rflag &&& 8 ≠ 0 then .text (unpackSixBit m d.1 d.2)
        else if rflag &&& 16 ≠ 0 then .text (streamLZFTextToString z m d.1 d.2)
        else .text (peek m d.1 d.2)

/-- The value that a column should read as: a text of length 0 reads as empty. -/
def Field.value : Field → Value
  | int none | long none | u128 none | float none | text none => .empty
  | int (some i) => .int i
  | long (some l) => .long l
  | u128 (some x) => .u128 x
  | float (some f) => .float f
  | text (some s) => if s.val = [] then .empty else .text s.val

end AlchemyDB.Format
