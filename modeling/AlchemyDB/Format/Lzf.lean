/-
# `lzf_c.c` and `lzf_d.c` — the compressor of long texts

`lzf_compress` looks for the last place at which the next three bytes stood, in a
table that it fills as it goes, and writes runs of bytes and references to what it
read before.  The length of a run is written in front of it when it ends.  The
output is a memory that is written byte by byte; `top` is how far, which the code
does not know and the limits are about.  `lzf_decompress` reads any bytes.
-/
import AlchemyDB.Lib.Bytes
import AlchemyDB.Format.Write

namespace AlchemyDB.Format

open Bytes

namespace Lzf

/-! ## `lzf_compress` -/

/-- `MAX_LIT`, `MAX_OFF` and `MAX_REF`. -/
def maxLit : Nat := 32

def maxOff : Nat := 8192

def maxRef : Nat := 264

/-- A byte of the input; one behind it is read by `FRST` when there is only one byte, and not looked
at. -/
def byteAt (s : List UInt8) (p : Nat) : UInt8 := s.getD p 0

/-- `FRST`. -/
def frst (s : List UInt8) (p : Nat) : UInt32 :=
  ((byteAt s p).toUInt32 <<< 8) ||| (byteAt s (p + 1)).toUInt32

/-- `NEXT`. -/
def next (hval : UInt32) (s : List UInt8) (p : Nat) : UInt32 :=
  (hval <<< 8) ||| (byteAt s (p + 2)).toUInt32

/-- `IDX`, for `VERY_FAST` and a `HLOG` of 16. -/
def idx (h : UInt32) : Nat := (((h >>> 8) - h * 5) &&& 65535).toNat

/-- The variables of `lzf_compress`: a place of the input for each slot of the table, or the null
pointer of `INIT_HTAB`, and the output. -/
structure Enc where
  ip : Nat
  hval : UInt32
  htab : Nat → Option Nat
  mem : Nat → UInt8
  op : Nat
  lit : Nat
  top : Nat

namespace Enc

/-- A byte is written at a place of the output. -/
def put (e : Enc) (at' : Nat) (b : UInt8) : Enc :=
  { e with mem := poke e.mem at' [b], top := max e.top (at' + 1) }

/-- `*op++ = b`. -/
def out (e : Enc) (b : UInt8) : Enc := { e.put e.op b with op := e.op + 1 }

/-- `op [- lit - 1] = lit - 1`; a run of no bytes writes 255. -/
def stopRun (e : Enc) : Enc := e.put (e.op - e.lit - 1) (UInt8.ofNat (e.lit + 255))

/-- `lit = 0; op++`. -/
def startRun (e : Enc) : Enc := { e with lit := 0, op := e.op + 1 }

/-- `op -= !lit`. -/
def undoRun (e : Enc) : Enc := if e.lit = 0 then { e with op := e.op - 1 } else e

/-- `htab[IDX (hval)] = ip`. -/
def enter (e : Enc) : Enc :=
  { e with htab := Function.update e.htab (idx e.hval) (some e.ip) }

/-- `lit++; *op++ = *ip++`, and what is done when the run is full. -/
def copyLit (s : List UInt8) (e : Enc) : Enc :=
  let e := { e.out (byteAt s e.ip) with lit := e.lit + 1, ip := e.ip + 1 }
  if e.lit = maxLit then e.stopRun.startRun else e

end Enc

/-- The comparisons that are written out: the length, and whether one of them has failed. -/
def unrolled (s : List UInt8) (ref ip : Nat) : Nat → Nat → Nat × Bool
  | 0, len => (len, false)
  | n + 1, len =>
      if byteAt s (ref + (len + 1)) = byteAt s (ip + (len + 1)) then unrolled s ref ip n (len + 1)
      else (len + 1, true)

/-- `do len++; while (len < maxlen && ref[len] == ip[len])`, with a bound on the rounds. -/
def doWhile (s : List UInt8) (ref ip maxlen : Nat) : Nat → Nat → Nat
  | 0, len => len
  | n + 1, len =>
      if len + 1 < maxlen ∧ byteAt s (ref + (len + 1)) = byteAt s (ip + (len + 1)) then
        doWhile s ref ip maxlen n (len + 1)
      else len + 1

/-- The number of bytes that a reference covers. -/
def matchLen (s : List UInt8) (ref ip : Nat) : Nat :=
  let maxlen := if s.length - ip - 2 > maxRef then maxRef else s.length - ip - 2
  if maxlen > 16 then
    match unrolled s ref ip 16 2 with
    | (len, true) => len
    | (len, false) => doWhile s ref ip maxlen (maxlen + 1) len
  else doWhile s ref ip maxlen (maxlen + 1) 2

/-- Whether what stood in the slot is a place to refer to. -/
def found (s : List UInt8) (ip ref : Nat) : Bool :=
  decide (ref < ip) && decide (ip - ref - 1 < maxOff) && decide (ip + 4 < s.length) &&
    decide (0 < ref) && decide (byteAt s ref = byteAt s ip) &&
    decide (byteAt s (ref + 1) = byteAt s (ip + 1)) &&
    decide (byteAt s (ref + 2) = byteAt s (ip + 2))

/-- What a round of the loop comes to: `return 0`, `break`, or another round. -/
inductive Round where
  | full (e : Enc)
  | done (e : Enc)
  | go (e : Enc)

/-- The bytes of a reference. -/
def Enc.outRef (e : Enc) (off len : Nat) : Enc :=
  let e := if len < 7 then e.out (UInt8.ofNat (off / 256 + len * 32))
    else (e.out (UInt8.ofNat (off / 256 + 7 * 32))).out (UInt8.ofNat (len - 7))
  e.out (UInt8.ofNat off)

/-- `ip++`, a reference, `lit = 0; op++` and `ip += len + 1`. -/
def Enc.refer (e : Enc) (off len : Nat) : Enc :=
  let e := { e with ip := e.ip + 1 }
  let e := (e.outRef off len).startRun
  { e with ip := e.ip + (len + 1) }

/-- The two entries behind a reference (`VERY_FAST`). -/
def Enc.rehash (s : List UInt8) (e : Enc) : Enc :=
  let e := { e with ip := e.ip - 2 }
  let e := { e with hval := frst s e.ip }
  let e := Enc.enter { e with hval := next e.hval s e.ip }
  let e := { e with ip := e.ip + 1 }
  let e := Enc.enter { e with hval := next e.hval s e.ip }
  { e with ip := e.ip + 1 }

/-- A reference to `ref`. -/
def reference (s : List UInt8) (outLen ref : Nat) (e : Enc) : Round :=
  let off := e.ip - ref - 1
  let e := e.stopRun.undoRun
  if e.op + 3 + 1 ≥ outLen then .full e
  else
    let e := e.refer off (matchLen s ref e.ip - 2)
    if e.ip + 2 ≥ s.length then .done e else .go (e.rehash s)

/-- The two branches of a round: a place to refer to, or one more byte to copy. -/
def branch (s : List UInt8) (outLen : Nat) (e : Enc) : Option Nat → Round
  | some ref => reference s outLen ref e
  | none => if e.op ≥ outLen then .full e else .go (e.copyLit s)

/-- A round of the first loop. -/
def round (s : List UInt8) (outLen : Nat) (e : Enc) : Round :=
  let e := { e with hval := next e.hval s e.ip }
  let slot := e.htab (idx e.hval)
  branch s outLen e.enter (slot.filter (found s e.ip))

/-- The first loop, with a bound on the rounds: whether it was left without `return 0`. -/
def loop (s : List UInt8) (outLen : Nat) : Nat → Enc → Bool × Enc
  | 0, e => (true, e)
  | n + 1, e =>
      if e.ip + 2 < s.length then
        match round s outLen e with
        | .full e => (false, e)
        | .done e => (true, e)
        | .go e => loop s outLen n e
      else (true, e)

/-- `while (ip < in_end)`. -/
def rest (s : List UInt8) : Nat → Enc → Enc
  | 0, e => e
  | n + 1, e => if e.ip < s.length then rest s n (e.copyLit s) else e

/-- The state before the first round. -/
def start (s : List UInt8) (out : Nat → UInt8) : Enc :=
  Enc.startRun ⟨0, frst s 0, fun _ => none, out, 0, 0, 0⟩

/-- `lzf_compress` into a buffer of `outLen` bytes: what is returned, and the output. -/
def lzfCompress (s : List UInt8) (outLen : Nat) (out : Nat → UInt8) : Nat × Enc :=
  if s.length = 0 ∨ outLen = 0 then (0, ⟨0, 0, fun _ => none, out, 0, 0, 0⟩)
  else
    match loop s outLen s.length (start s out) with
    | (false, e) => (0, e)
    | (true, e) =>
        if e.op + 3 > outLen then (0, e)
        else
          let e := (rest s s.length e).stopRun.undoRun
          (e.op, e)

/-! ## `lzf_decompress` -/

/-- `*op++ = *ref++`, `len` times, and `none` where nothing was written yet. -/
def copyRef (ref : Nat) : Nat → List UInt8 → Option (List UInt8)
  | 0, out => some out
  | len + 1, out => out[ref]?.bind fun b => copyRef (ref + 1) len (out ++ [b])

/-- A reference, `len + 2` bytes long, with `ip` behind it. -/
def backRef (outLen dist len : Nat) (ip out : List UInt8) :
    Option (Option (List UInt8 × List UInt8)) :=
  if out.length + len + 2 > outLen then some none
  else if out.length < dist then some none
  else (copyRef (out.length - dist) (len + 2) out).map fun out => some (ip, out)

/-- What the bytes behind a control byte give: the bytes behind them and the output, `some none` for
an error, and `none` when something is read that is not there. -/
def token (outLen : Nat) (ctrl : UInt8) (ip out : List UInt8) :
    Option (Option (List UInt8 × List UInt8)) :=
  if ctrl.toNat < 32 then
    let run := ctrl.toNat + 1
    if out.length + run > outLen then some none
    else if ip.length < run then some none
    else some (some (ip.drop run, out ++ ip.take run))
  else
    match ip with
    | [] => some none
    | b :: ip' =>
        let long := ctrl.toNat / 32 = 7
        let len := if long then 7 + b.toNat else ctrl.toNat / 32
        let ip := if long then ip' else b :: ip'
        match ip with
        | [] => some none
        | b :: ip => backRef outLen (ctrl.toNat % 32 * 256 + 1 + b.toNat) len ip out

/-- The loop of `lzf_decompress`, with a bound on the rounds. -/
def decode (outLen : Nat) : Nat → List UInt8 → List UInt8 → Option (Option (List UInt8))
  | 0, _, _ => none
  | _ + 1, [], _ => none
  | n + 1, ctrl :: ip, out =>
      match token outLen ctrl ip out with
      | none => none
      | some none => some none
      | some (some (ip, out)) => if ip = [] then some (some out) else decode outLen n ip out

/-- `lzf_decompress` into a buffer of `outLen` bytes: the output, `some none` for the 0 of an error,
and `none` for a read outside of the input or of what was written. -/
def lzfDecompress (c : List UInt8) (outLen : Nat) : Option (Option (List UInt8)) :=
  decode outLen c.length c []

end Lzf

/-- The library as `row.c` calls it: a returned 0 is an error. -/
def lzf : Lzf where
  compress s n :=
    let r := Lzf.lzfCompress s n fun _ => 0
    if r.1 = 0 then none else some (peek r.2.mem 0 r.1)
  decompress c n := (Lzf.lzfDecompress c n).join

end AlchemyDB.Format
