/-
# Bytes — numbers in little endian order, and bytes standing in memory

A number is written as `n` bytes by `le` and read back by `ofLe`.  A memory is a
function from addresses to bytes; `follow` is the memory at a list of bytes, with
anything behind it, and `peek` reads a stretch.  `Stands m o bs` says that `bs`
stands at address `o`: of a list that was written piece by piece every piece does,
and what stands somewhere is what is read there.
-/
import Mathlib.Data.List.Basic
import Mathlib.Tactic.Ring

namespace Bytes

/-! ## Numbers -/

/-- The lowest `n` bytes of a number. -/
def le : Nat → Nat → List UInt8
  | 0, _ => []
  | n + 1, v => UInt8.ofNat v :: le n (v / 256)

/-- The number that the bytes are. -/
def ofLe : List UInt8 → Nat
  | [] => 0
  | b :: bs => b.toNat + 256 * ofLe bs

@[simp] theorem length_le : ∀ n v : Nat, (le n v).length = n
  | 0, _ => rfl
  | n + 1, v => by simp [le, length_le n]

theorem ofLe_le : ∀ n v : Nat, ofLe (le n v) = v % 256 ^ n
  | 0, v => by simp [le, ofLe, Nat.mod_one]
  | n + 1, v => by
      have h : (UInt8.ofNat v).toNat = v % 256 := UInt8.toNat_ofNat'
      rw [le, ofLe, ofLe_le n, h, pow_succ', Nat.mod_mul]

/-- A number below the limit is read back. -/
theorem ofLe_le_of_lt {n v : Nat} (h : v < 256 ^ n) : ofLe (le n v) = v := by
  rw [ofLe_le, Nat.mod_eq_of_lt h]

theorem ofLe_lt : ∀ bs : List UInt8, ofLe bs < 256 ^ bs.length
  | [] => by simp [ofLe]
  | b :: bs => by
      have h := ofLe_lt bs
      have hb := b.toNat_lt
      rw [ofLe, List.length_cons, pow_succ']
      omega

/-! ## Memory -/

/-- The bytes at a list that is followed by `mem`. -/
def follow : List UInt8 → (Nat → UInt8) → Nat → UInt8
  | [], mem, i => mem i
  | c :: _, _, 0 => c
  | _ :: s, mem, i + 1 => follow s mem i

/-- `n` bytes from an address on. -/
def peek (m : Nat → UInt8) : Nat → Nat → List UInt8
  | _, 0 => []
  | o, n + 1 => m o :: peek m (o + 1) n

@[simp] theorem length_peek (m : Nat → UInt8) : ∀ o n : Nat, (peek m o n).length = n
  | _, 0 => rfl
  | o, n + 1 => by simp [peek, length_peek m]

theorem peek_add (m : Nat → UInt8) : ∀ o a b : Nat, peek m o (a + b) = peek m o a ++ peek m (o + a) b
  | o, 0, b => by simp [peek]
  | o, a + 1, b => by
      rw [Nat.succ_add, peek, peek, peek_add m (o + 1) a b, List.cons_append]
      congr 3
      omega

/-- A stretch of a memory that is looked at from an address on. -/
theorem peek_add_right (m : Nat → UInt8) (a : Nat) :
    ∀ o n : Nat, peek (fun i => m (a + i)) o n = peek m (a + o) n
  | _, 0 => rfl
  | o, n + 1 => by rw [peek, peek, peek_add_right m a, Nat.add_assoc]

theorem peek_congr {m m' : Nat → UInt8} :
    ∀ {o n : Nat}, (∀ i, o ≤ i → i < o + n → m i = m' i) → peek m o n = peek m' o n
  | _, 0, _ => rfl
  | o, n + 1, h => by
      rw [peek, peek, h o le_rfl (by omega), peek_congr fun i h1 h2 => h i (by omega) (by omega)]

/-- The bytes stand at an address. -/
def Stands (m : Nat → UInt8) (o : Nat) (bs : List UInt8) : Prop := peek m o bs.length = bs

variable {m : Nat → UInt8}

theorem stands_append {o : Nat} {a b : List UInt8} :
    Stands m o (a ++ b) ↔ Stands m o a ∧ Stands m (o + a.length) b := by
  unfold Stands
  rw [List.length_append, peek_add]
  constructor
  · intro h
    exact List.append_inj h (length_peek m o a.length)
  · rintro ⟨ha, hb⟩
    rw [ha, hb]

theorem stands_cons {o : Nat} {c : UInt8} {b : List UInt8} :
    Stands m o (c :: b) ↔ m o = c ∧ Stands m (o + 1) b := by
  unfold Stands
  rw [List.length_cons, peek, List.cons.injEq]

theorem peek_follow (mem : Nat → UInt8) : ∀ (bs : List UInt8), peek (follow bs mem) 0 bs.length = bs := by
  have h : ∀ (bs pre : List UInt8),
      peek (follow (pre ++ bs) mem) pre.length bs.length = bs := by
    intro bs
    induction bs with
    | nil => intro pre; rfl
    | cons c bs ih =>
        intro pre
        have hc : ∀ pre : List UInt8, follow (pre ++ c :: bs) mem pre.length = c := by
          intro pre
          induction pre with
          | nil => rfl
          | cons d pre ih => exact ih
        rw [List.length_cons, peek, hc pre]
        have hp := ih (pre ++ [c])
        rw [List.append_assoc, List.length_append] at hp
        rw [show pre.length + 1 = pre.length + [c].length from rfl]
        exact congrArg (c :: ·) hp
  exact fun bs => h bs []

/-- A list stands where it was put, whatever is behind it. -/
theorem stands_follow (bs : List UInt8) (mem : Nat → UInt8) : Stands (follow bs mem) 0 bs :=
  peek_follow mem bs

/-- A byte of a list, or of the memory behind it. -/
theorem follow_eq (mem : Nat → UInt8) : ∀ (bs : List UInt8) (a : Nat),
    follow bs mem a = bs[a]?.getD (mem (a - bs.length))
  | [], a => rfl
  | c :: bs, 0 => rfl
  | c :: bs, a + 1 => by
      rw [follow, follow_eq mem bs a, List.getElem?_cons_succ, List.length_cons, Nat.add_sub_add_right]

/-- The memory after bytes were written to an address. -/
def poke (m : Nat → UInt8) (o : Nat) (bs : List UInt8) : Nat → UInt8 := fun a =>
  if a < o then m a else bs[a - o]?.getD (m a)

/-- Bytes that are written over as many others in the middle of a list. -/
theorem poke_follow (mem : Nat → UInt8) {a b : List UInt8} (h : b.length = a.length)
    (pre post : List UInt8) : poke (follow (pre ++ a ++ post) mem) pre.length b =
      follow (pre ++ b ++ post) mem := by
  funext k
  unfold poke
  simp only [follow_eq, List.length_append, h]
  rcases Nat.lt_or_ge k pre.length with hk | hk
  · rw [if_pos hk, List.append_assoc, List.append_assoc, List.getElem?_append_left hk,
      List.getElem?_append_left hk]
  · rw [if_neg (Nat.not_lt.2 hk), List.append_assoc, List.append_assoc,
      List.getElem?_append_right hk, List.getElem?_append_right hk]
    rcases Nat.lt_or_ge (k - pre.length) b.length with hb | hb
    · rw [List.getElem?_append_left hb, List.getElem?_eq_getElem hb]
      rfl
    · rw [List.getElem?_eq_none hb, List.getElem?_append_right hb,
        List.getElem?_append_right (h ▸ hb), h]
      rfl

/-- Bytes stand where they were written to. -/
theorem stands_poke (m : Nat → UInt8) (o : Nat) (bs : List UInt8) : Stands (poke m o bs) o bs := by
  have h : ∀ (bs pre : List UInt8) (o : Nat),
      Stands (poke m o (pre ++ bs)) (o + pre.length) bs := by
    intro bs
    induction bs with
    | nil => intro pre o; rfl
    | cons c bs ih =>
      intro pre o
      rw [stands_cons]
      constructor
      · rw [poke, if_neg (by omega), Nat.add_sub_cancel_left, List.getElem?_append_right le_rfl,
          Nat.sub_self]
        rfl
      · have := ih (pre ++ [c]) o
        rwa [List.append_assoc, List.length_append] at this
  exact h bs [] o

/-- A number is read where it stands. -/
theorem ofLe_peek {o n v : Nat} (h : Stands m o (le n v)) (hv : v < 256 ^ n) :
    ofLe (peek m o n) = v := by
  unfold Stands at h
  rw [length_le] at h
  rw [h, ofLe_le_of_lt hv]

theorem ofLe_peek_lt (m : Nat → UInt8) (o n : Nat) : ofLe (peek m o n) < 256 ^ n := by
  have h := ofLe_lt (peek m o n)
  rwa [length_peek] at h

/-- Of lists that were put one behind the other each stands where the ones before it end. -/
theorem stands_flatMap {α : Type} {f : α → List UInt8} : ∀ {l : List α} {o : Nat},
    Stands m o (l.flatMap f) → ∀ {i : Nat} (h : i < l.length),
      Stands m (o + ((l.take i).map fun a => (f a).length).sum) (f l[i])
  | a :: l, o, hs, 0, _ => by
      rw [List.flatMap_cons, stands_append] at hs
      simpa using hs.1
  | a :: l, o, hs, i + 1, h => by
      rw [List.flatMap_cons, stands_append] at hs
      have hi : i < l.length := by simpa using h
      have := stands_flatMap hs.2 hi
      simpa [Nat.add_assoc] using this

/-- When all of them have one length, the `i`th stands at `i` times the length. -/
theorem stands_table {α : Type} {f : α → List UInt8} {k : Nat} {l : List α} {o : Nat}
    (hk : ∀ a, (f a).length = k) (hs : Stands m o (l.flatMap f)) {i : Nat} (h : i < l.length) :
    Stands m (o + i * k) (f l[i]) := by
  have := stands_flatMap hs h
  simpa [hk, Nat.min_eq_left (Nat.le_of_lt h)] using this

theorem length_table {α : Type} {f : α → List UInt8} {k : Nat} (hk : ∀ a, (f a).length = k)
    (l : List α) : (l.flatMap f).length = l.length * k := by
  simp [List.length_flatMap, hk]

end Bytes
