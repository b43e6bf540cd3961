/-
# `rdb.c` — lengths and strings in a dump file

A file is the list of its bytes.  A load function takes what it reads off the front
and fails at the end of the file.  Lengths are written in one, two or five bytes; a
length that is read as `REDIS_RDB_LENERR` is an error to every caller.  The strings
of Redis are a pair of functions that is assumed to round-trip.
-/
import AlchemyDB.Catalog.Model
import AlchemyDB.Row.Packed

namespace AlchemyDB.Rdb

open Catalog

/-! ## Reading -/

/-- Programs that read a file. -/
abbrev Load := StateT (List UInt8) Option

/-- `fread(p, n, 1, fp)`, where `0` is a failure. -/
def fread (n : Nat) : Load (List UInt8) := fun file =>
  if n = 0 ∨ file.length < n then none else some (file.take n, file.drop n)

def freadByte : Load Nat
  | [] => none
  | b :: file => some (b.toNat, file)

/-- `fread(&u, 1, 1, fp)` of a `uint32`: the lowest byte is read, the others stay. -/
def freadLow (u : Nat) : Load Nat := do
  let b ← freadByte
  pure (u / 256 * 256 + b)

/-- `m` has read `a` off the front. -/
def Reads {A : Type} (m : Load A) (bytes : List UInt8) (a : A) : Prop :=
  ∀ rest, m (bytes ++ rest) = some (a, rest)

section Reads

variable {A B : Type} {m : Load A} {x y : List UInt8} {a : A} {b : B}

theorem Reads.bind {f : A → Load B} (h : Reads m x a) (hf : Reads (f a) y b) :
    Reads (m >>= f) (x ++ y) b := by
  intro rest
  show (m (x ++ y ++ rest)).bind (fun p => f p.1 p.2) = some (b, rest)
  rw [List.append_assoc, h, Option.bind_some]
  exact hf rest

/-- A step that reads nothing. -/
theorem Reads.step {f : A → Load B} (h : Reads m [] a) (hf : Reads (f a) y b) : Reads (m >>= f) y b :=
  h.bind hf

/-- The last step of a program. -/
theorem Reads.last {f : A → Load B} (h : Reads m x a) (hf : Reads (f a) [] b) : Reads (m >>= f) x b := by
  have := h.bind hf
  rwa [List.append_nil] at this

theorem reads_pure (a : A) : Reads (pure a : Load A) [] a := fun _ => rfl

theorem reads_fread {x : List UInt8} (h : x ≠ []) : Reads (fread x.length) x x := by
  intro rest
  have h0 : x.length ≠ 0 := fun e => h (List.length_eq_zero_iff.1 e)
  rw [fread, if_neg (by simp [h0])]
  simp

theorem reads_byte (b : UInt8) : Reads freadByte [b] b.toNat := fun _ => rfl

theorem reads_low {u : Nat} (hu : u < 256) (b : UInt8) : Reads (freadLow u) [b] b.toNat := by
  intro rest
  show some (u / 256 * 256 + b.toNat, rest) = _
  rw [Nat.div_eq_of_lt hu, Nat.zero_mul, Nat.zero_add]

end Reads

/-! ## Lengths -/

/-- `REDIS_RDB_LENERR`. -/
def lenErr : Nat := 4294967295

/-- `rdbSaveLen`; a length is a `uint32`, and five bytes hold it in network order. -/
def rdbSaveLen (len : Nat) : List UInt8 :=
  let len := len % 4294967296
  if len < 64 then [UInt8.ofNat len]
  else if len < 16384 then [UInt8.ofNat (len / 256 + 64), UInt8.ofNat len]
  else 128 :: [UInt8.ofNat (len / 16777216), UInt8.ofNat (len / 65536), UInt8.ofNat (len / 256),
    UInt8.ofNat len]

/-- `rdbLoadLen(fp, NULL)`. -/
def rdbLoadLen : Load Nat := do
  let b ← freadByte
  let type := b / 64
  if type = 1 then do
    let c ← freadByte
    pure (b % 64 * 256 + c)
  else if type = 0 ∨ type = 3 then pure (b % 64)
  else do
    let x ← fread 4
    pure (x.foldl (fun n c => n * 256 + c.toNat) 0)

/-- `(u = rdbLoadLen(fp, NULL)) == REDIS_RDB_LENERR` is an error. -/
def loadLen : Load Nat := do
  let u ← rdbLoadLen
  if u = lenErr then failure else pure u

theorem reads_rdbLen {n : Nat} (h : n < 4294967296) : Reads rdbLoadLen (rdbSaveLen n) n := by
  intro rest
  have hb : ∀ v : Nat, (UInt8.ofNat v).toNat = v % 256 := fun v => UInt8.toNat_ofNat'
  unfold rdbSaveLen
  rw [Nat.mod_eq_of_lt h]
  simp only
  split_ifs with h1 h2
  · simp only [rdbLoadLen, bind, StateT.bind, freadByte, List.cons_append, List.nil_append,
      Option.bind_some, hb]
    rw [if_neg (by omega), if_pos (by omega)]
    show some (n % 256 % 64, rest) = _
    rw [show n % 256 % 64 = n by omega]
  · simp only [rdbLoadLen, bind, StateT.bind, freadByte, List.cons_append, List.nil_append,
      Option.bind_some, hb]
    rw [if_pos (by omega)]
    show some ((n / 256 + 64) % 256 % 64 * 256 + (UInt8.ofNat n).toNat, rest) = _
    rw [hb, show (n / 256 + 64) % 256 % 64 * 256 + n % 256 = n by omega]
  · simp only [rdbLoadLen, bind, StateT.bind, freadByte, List.cons_append, List.nil_append,
      Option.bind_some]
    rw [if_neg (by decide), if_neg (by decide)]
    show some ((((0 * 256 + (UInt8.ofNat (n / 16777216)).toNat) * 256 +
      (UInt8.ofNat (n / 65536)).toNat) * 256 + (UInt8.ofNat (n / 256)).toNat) * 256 +
      (UInt8.ofNat n).toNat, rest) = _
    simp only [hb]
    rw [show (((0 * 256 + n / 16777216 % 256) * 256 + n / 65536 % 256) * 256 + n / 256 % 256) * 256 +
      n % 256 = n by omega]

theorem reads_len {n : Nat} (h : n < lenErr) : Reads loadLen (rdbSaveLen n) n := by
  refine (reads_rdbLen (show n < 4294967296 by unfold lenErr at h; omega)).last ?_
  rw [if_neg (by omega)]
  exact reads_pure n

/-- A flag is one byte, and can be read as one. -/
theorem saveLen_bool (b : Bool) : rdbSaveLen b.toNat = [UInt8.ofNat b.toNat] := by
  cases b <;> rfl

/-! ## Strings -/

/-- `rdbSaveStringObject` and `rdbLoadStringObject`. -/
structure StringObject where
  save : Sds → List UInt8
  load : Load Sds
  round : ∀ s, Reads load (save s) s

/-! ## Repeated fields -/

/-- `n` times the same. -/
def many {A : Type} (m : Load A) : Nat → Load (List A)
  | 0 => pure []
  | n + 1 => do
    let a ← m
    let as ← many m n
    pure (a :: as)

theorem reads_many {A S : Type} {m : Load A} {save : S → List UInt8} {v : S → A} :
    ∀ {l : List S}, (∀ s ∈ l, Reads m (save s) (v s)) →
      Reads (many m l.length) (l.flatMap save) (l.map v)
  | [], _ => reads_pure []
  | s :: l, h => by
      exact (h s List.mem_cons_self).bind
        ((reads_many fun t ht => h t (List.mem_cons_of_mem s ht)).last (reads_pure _))

end AlchemyDB.Rdb
