/-
# 128 bit numbers as texts

A U128 is printed as its two halves in decimal with a bar between them.  It is read by
cutting the text at the bar and converting each half with `strtoul`, which stops at the
first character that is no digit: the bar, the end of the text, or whatever stands behind
the number in a list of values.
-/
import AlchemyDB.Text.Scan

namespace AlchemyDB.Text

open Catalog

/-! ## Printing -/

/-- `SPLICE_128`: the upper and the lower half. -/
def splice128 (num : BitVec 128) : Nat × Nat :=
  (num.toNat / 18446744073709551616, num.toNat % 18446744073709551616)

/-- `"%llu|%llu"` of the two halves. -/
def print128 (num : BitVec 128) : Sds :=
  Nat.toDigits 10 (splice128 num).1 ++ '|' :: Nat.toDigits 10 (splice128 num).2

/-- `SPRINTF_128`, which cuts what does not fit the buffer with its terminator. -/
def sprintf128 (dsize : Nat) (num : BitVec 128) : Sds := (print128 num).take (dsize - 1)

/-! ## Parsing -/

/-- `isspace`. -/
def isSpace (c : Char) : Bool := c ∈ [' ', '\t', '\n', '\x0b', '\x0c', '\r']

/-- The digits in front, as a number. -/
def leadingDigits (s : Sds) : Nat := Nat.ofDigitChars 10 (s.takeWhile Char.isDigit) 0

/-- `strtoul(s, NULL, 10)`: blanks and a sign may stand in front, and a value that is too large is
`ULONG_MAX`. -/
def strtoul (s : Sds) : Nat :=
  match s.dropWhile isSpace with
  | '-' :: t =>
      if leadingDigits t < 18446744073709551616 then
        (18446744073709551616 - leadingDigits t) % 18446744073709551616
      else 18446744073709551615
  | '+' :: t => min (leadingDigits t) 18446744073709551615
  | t => min (leadingDigits t) 18446744073709551615

/-- `_parseU128`, with the distance to the bar. -/
def parseU128At (s : Sds) (c : Nat) : Option (BitVec 128) :=
  if s.drop (c + 1) = [] then none
  else some (BitVec.ofNat 128 (strtoul s * 18446744073709551616 + strtoul (s.drop (c + 1))))

/-- `parseU128`. -/
def parseU128 (s : Sds) : Option (BitVec 128) := (strchr s '|').bind (parseU128At s)

/-- `_strnchr`: the distance to a character, below `len`. -/
def strnchr (s : Sds) (x : Char) (len : Nat) : Option Nat := strchr (s.take len) x

/-- `parseU128n`. -/
def parseU128n (s : Sds) (len : Nat) : Option (BitVec 128) := (strnchr s '|' len).bind (parseU128At s)

/-! ## Digits -/

theorem isDigit_toDigits (n : Nat) : ∀ c ∈ Nat.toDigits 10 n, c.isDigit = true :=
  fun _ h => Nat.isDigit_of_mem_toDigits (by decide) (by decide) h

/-- A digit is no bar, no blank and no sign. -/
theorem digit_cases {c : Char} (h : c.isDigit = true) :
    c ≠ '|' ∧ isSpace c = false ∧ c ≠ '-' ∧ c ≠ '+' := by
  have hne (d : Char) (hd : d.isDigit = false) : c ≠ d := fun e => by simp [e, hd] at h
  refine ⟨hne _ (by decide), ?_, hne _ (by decide), hne _ (by decide)⟩
  simp only [isSpace, List.mem_cons, List.not_mem_nil, or_false, decide_eq_false_iff_not, not_or]
  exact ⟨hne _ (by decide), hne _ (by decide), hne _ (by decide), hne _ (by decide),
    hne _ (by decide), hne _ (by decide)⟩

/-- The digits of a number are read as the number, up to what follows them. -/
theorem leadingDigits_toDigits (n : Nat) {rest : Sds} (hr : ∀ c ∈ rest.head?, c.isDigit = false) :
    leadingDigits (Nat.toDigits 10 n ++ rest) = n := by
  have htake : (Nat.toDigits 10 n ++ rest).takeWhile Char.isDigit = Nat.toDigits 10 n := by
    rw [List.takeWhile_append_of_pos (isDigit_toDigits n)]
    cases rest with
    | nil => simp
    | cons c rest => simp [hr c (by simp)]
  rw [leadingDigits, htake, Nat.ofDigitChars_toDigits (by decide) (by decide)]

/-- `strtoul` reads what was printed, up to the first character that is no digit. -/
theorem strtoul_toDigits {n : Nat} (hn : n < 18446744073709551616) {rest : Sds}
    (hr : ∀ c ∈ rest.head?, c.isDigit = false) : strtoul (Nat.toDigits 10 n ++ rest) = n := by
  obtain ⟨d, ds, hd⟩ := List.exists_cons_of_ne_nil (Nat.toDigits_ne_nil (n := n) (b := 10))
  have hv := leadingDigits_toDigits n hr
  obtain ⟨-, hblank, hminus, hplus⟩ := digit_cases (isDigit_toDigits n d (by rw [hd]; simp))
  rw [hd, List.cons_append] at hv ⊢
  have hdrop : (d :: (ds ++ rest)).dropWhile isSpace = d :: (ds ++ rest) := by
    rw [List.dropWhile_cons, hblank]
    rfl
  unfold strtoul
  rw [hdrop]
  split
  · rename_i h
    exact absurd (List.cons.inj h).1 hminus
  · rename_i h
    exact absurd (List.cons.inj h).1 hplus
  · rw [hv]
    omega

/-! ## Round trip -/

theorem splice128_lt (num : BitVec 128) :
    (splice128 num).1 < 18446744073709551616 ∧ (splice128 num).2 < 18446744073709551616 := by
  have h : num.toNat < 340282366920938463463374607431768211456 := num.isLt
  simp only [splice128]
  omega

theorem length_print128 (num : BitVec 128) : (print128 num).length ≤ 41 := by
  obtain ⟨h1, h2⟩ := splice128_lt num
  have hd (n : Nat) (hn : n < 18446744073709551616) : (Nat.toDigits 10 n).length ≤ 20 :=
    (Nat.length_toDigits_le_iff (by decide) (by decide)).2 (by omega)
  have := hd _ h1
  have := hd _ h2
  simp only [print128, List.length_append, List.length_cons]
  omega

/-- Nothing is cut in a buffer of 64 bytes. -/
theorem sprintf128_64 (num : BitVec 128) : sprintf128 64 num = print128 num :=
  List.take_of_length_le ((length_print128 num).trans (by decide))

/-- The bar stands behind the upper half, whatever follows the number. -/
theorem strnchr_print128 (num : BitVec 128) (rest : Sds) {len : Nat} (hlen : (print128 num).length ≤ len) :
    strnchr (print128 num ++ rest) '|' len = some (Nat.toDigits 10 (splice128 num).1).length := by
  have hno : ∀ c ∈ Nat.toDigits 10 (splice128 num).1, (c == '|') = false := fun c hc =>
    beq_eq_false_iff_ne.2 (digit_cases (isDigit_toDigits _ c hc)).1
  have htake : (print128 num ++ rest).take len = Nat.toDigits 10 (splice128 num).1 ++
      ('|' :: Nat.toDigits 10 (splice128 num).2 ++ rest.take (len - (print128 num).length)) := by
    rw [List.take_append, List.take_of_length_le hlen, print128, List.append_assoc]
  rw [strnchr, strchr, htake, List.findIdx?_append, List.findIdx?_eq_none_iff.2 hno, List.cons_append,
    List.findIdx?_cons]
  simp

theorem parseU128At_print128 (num : BitVec 128) {rest : Sds}
    (hr : ∀ c ∈ rest.head?, c.isDigit = false) :
    parseU128At (print128 num ++ rest) (Nat.toDigits 10 (splice128 num).1).length = some num := by
  obtain ⟨h1, h2⟩ := splice128_lt num
  have hdrop : (print128 num ++ rest).drop ((Nat.toDigits 10 (splice128 num).1).length + 1) =
      Nat.toDigits 10 (splice128 num).2 ++ rest := by
    rw [print128, List.append_assoc, List.cons_append, ← List.drop_drop, List.drop_left,
      List.drop_succ_cons, List.drop_zero]
  have hlow : strtoul (Nat.toDigits 10 (splice128 num).2 ++ rest) = (splice128 num).2 :=
    strtoul_toDigits h2 hr
  have hhigh : strtoul (print128 num ++ rest) = (splice128 num).1 := by
    rw [print128, List.append_assoc, List.cons_append]
    exact strtoul_toDigits h1 (by simp)
  have hne : ¬ Nat.toDigits 10 (splice128 num).2 ++ rest = [] := by simp [Nat.toDigits_ne_nil]
  rw [parseU128At, hdrop, if_neg hne, hlow, hhigh]
  congr 1
  apply BitVec.eq_of_toNat_eq
  have h : num.toNat < 340282366920938463463374607431768211456 := num.isLt
  rw [BitVec.toNat_ofNat]
  simp only [splice128]
  omega

/-- Every U128 is printed into a buffer of 64 bytes and read back from there, and from the beginning
of any text that goes on with no digit. -/
theorem u128_survives (num : BitVec 128) :
    (print128 num).length < 64 ∧ sprintf128 64 num = print128 num ∧
      parseU128 (sprintf128 64 num) = some num ∧
      ∀ rest len, (∀ c ∈ rest.head?, c.isDigit = false) → (sprintf128 64 num).length ≤ len →
        parseU128n (sprintf128 64 num ++ rest) len = some num := by
  have hn : ∀ rest len, (∀ c ∈ rest.head?, c.isDigit = false) → (sprintf128 64 num).length ≤ len →
      parseU128n (sprintf128 64 num ++ rest) len = some num := by
    intro rest len hr hlen
    rw [sprintf128_64] at hlen ⊢
    rw [parseU128n, strnchr_print128 num rest hlen]
    exact parseU128At_print128 num hr
  refine ⟨Nat.lt_of_le_of_lt (length_print128 num) (by decide), sprintf128_64 num, ?_, hn⟩
  have h := hn [] (sprintf128 64 num).length (by simp) le_rfl
  rwa [List.append_nil, parseU128n, strnchr, List.take_length] at h

end AlchemyDB.Text
