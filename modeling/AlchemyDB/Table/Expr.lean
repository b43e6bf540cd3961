/-
# UPDATE — arithmetic on a column

`UPDATE tbl SET col = col + 5` is worked out in 64 bits.  Sums and products are tested
before, against the largest numbers of the two widths, and the result of an INT column is
tested again; a result that the tests let through is stored as it is.
-/
import Mathlib.Data.Nat.Basic
import Mathlib.Tactic.Ring

namespace AlchemyDB.Table.Expr

/-- The operators on whole numbers; `POWER` is worked out in floating point. -/
inductive UeOp where
  | plus | minus | mult | divide | modulo
  deriving DecidableEq, Repr

/-- The replies `shared.update_expr_div_0`, `shared.overflow` and `shared.u2big`. -/
inductive UeErr where
  | updateExprDiv0 | overflow | u2big
  deriving DecidableEq, Repr

/-- Whether a column is an INT or a LONG. -/
inductive NumType where
  | int | long
  deriving DecidableEq, Repr

def uintMax : Nat := 4294967295
def ulongMax : Nat := 18446744073709551615

/-- What a column holds at most. -/
def NumType.max : NumType → Nat
  | .int => uintMax
  | .long => ulongMax

/-- The branches of `evalExpr` on the operator, for an operand that is no FLOAT. -/
def evalOp (ctype : NumType) (op : UeOp) (m l : Nat) : Except UeErr Nat :=
  match op with
  | .plus =>
      if (ctype = .long ∧ ulongMax - l < m) ∨
          (ctype = .int ∧ (uintMax + 18446744073709551616 - l) % 18446744073709551616 < m) then
        .error .overflow
      else .ok ((m + l) % 18446744073709551616)
  | .minus => if l > m then .error .overflow else .ok (m - l)
  | .modulo => .ok (m % l)
  | .divide => .ok (m / l)
  | .mult =>
      if ctype = .long ∧ l > 0 ∧ m > uintMax / l then .error .u2big
      else .ok (m * l % 18446744073709551616)

/-- `evalExpr` for an INT or a LONG column that holds `aval` and an operand that is no FLOAT: the
number that is stored, or the error that is replied. -/
def evalExpr (ctype : NumType) (op : UeOp) (aval l : Nat) : Except UeErr Nat :=
  if (op = .divide ∨ op = .modulo) ∧ l = 0 then .error .updateExprDiv0
  else
    (evalOp ctype op aval l).bind fun m =>
      if ctype = .int ∧ m ≥ uintMax then .error .u2big else .ok m

/-- The result, if there is one that is not negative. -/
def result (op : UeOp) (m l : Nat) : Option Nat :=
  match op with
  | .plus => some (m + l)
  | .minus => if l ≤ m then some (m - l) else none
  | .mult => some (m * l)
  | .divide => if l = 0 then none else some (m / l)
  | .modulo => if l = 0 then none else some (m % l)

/-- The column takes the result just when there is one and it is in the range of the column. -/
def ExactOrRefused (ctype : NumType) (op : UeOp) (m l : Nat) : Prop :=
  ∀ r, evalExpr ctype op m l = .ok r ↔ result op m l = some r ∧ r ≤ ctype.max

/-- What the tests need of a result: the largest INT is refused, and what is left of a result of more
than 64 bits has to be too large for an INT; a product for a LONG is refused when an INT could not
hold it. -/
def Testable (ctype : NumType) (op : UeOp) (r : Nat) : Prop :=
  match ctype with
  | .int => r ≠ uintMax ∧ (ulongMax < r → uintMax ≤ r % 18446744073709551616)
  | .long => op = .mult → r ≤ uintMax ∨ ulongMax < r

variable {op : UeOp} {m l r : Nat}

theorem result_none (hdiv : (op = .divide ∨ op = .modulo) ∧ l = 0) : result op m l = none := by
  obtain ⟨hop, hl⟩ := hdiv
  rcases hop with rfl | rfl <;> simp [result, hl]

/-- What is stored, after the branch of the operator. -/
theorem evalExpr_ok {ctype : NumType} : evalExpr ctype op m l = .ok r ↔
    ¬ ((op = .divide ∨ op = .modulo) ∧ l = 0) ∧ evalOp ctype op m l = .ok r ∧
      ¬ (ctype = .int ∧ r ≥ uintMax) := by
  unfold evalExpr
  by_cases hdiv : (op = .divide ∨ op = .modulo) ∧ l = 0
  · rw [if_pos hdiv]
    exact iff_of_false (fun h => by cases h) fun h => h.1 hdiv
  · rw [if_neg hdiv]
    refine Iff.trans ?_ (and_iff_right hdiv).symm
    cases evalOp ctype op m l with
    | error e => exact iff_of_false (fun h => by cases h) fun h => by cases h.1
    | ok n =>
      change (if ctype = .int ∧ n ≥ uintMax then _ else _) = _ ↔ _
      split
      · rename_i hbig
        refine iff_of_false (fun h => by cases h) fun h => h.2 ?_
        rwa [← Except.ok.inj h.1]
      · rename_i hbig
        exact ⟨fun h => ⟨h, Except.ok.inj h ▸ hbig⟩, And.left⟩

/-- An INT column takes what is left of the result in 64 bits. -/
theorem evalExpr_int (hm : m ≤ uintMax) (hl : l ≤ ulongMax) : evalExpr .int op m l = .ok r ↔
    ∃ q, result op m l = some q ∧ q % 18446744073709551616 = r ∧ r < uintMax := by
  rw [evalExpr_ok]
  simp only [true_and, ge_iff_le, not_le]
  unfold uintMax ulongMax at *
  cases op with
  | plus =>
    simp only [evalOp, result, reduceCtorEq, false_and, or_self, not_false_eq_true, true_and,
      Option.some.injEq, exists_eq_left', uintMax, ulongMax, false_or]
    split
    · rename_i hguard
      refine iff_of_false (fun h => by cases h.1) fun h => ?_
      omega
    · rw [Except.ok.injEq]
  | minus =>
    simp only [evalOp, result, reduceCtorEq, false_and, or_self, not_false_eq_true, true_and]
    by_cases h : l ≤ m
    · rw [if_pos h, if_neg (by omega), Except.ok.injEq]
      simp only [Option.some.injEq, exists_eq_left']
      rw [Nat.mod_eq_of_lt (by omega)]
    · rw [if_neg h, if_pos (by omega)]
      simp
  | mult =>
    simp only [evalOp, result, reduceCtorEq, false_and, or_self, not_false_eq_true, true_and,
      if_false, Except.ok.injEq, Option.some.injEq, exists_eq_left']
  | divide =>
    have hq : m / l ≤ m := Nat.div_le_self m l
    by_cases h : l = 0
    · simp [evalOp, result, h]
    · simp only [evalOp, result, h, and_false, not_false_eq_true, true_and, if_false,
        Except.ok.injEq, Option.some.injEq, exists_eq_left']
      rw [Nat.mod_eq_of_lt (by omega)]
  | modulo =>
    have hq : m % l ≤ m := Nat.mod_le m l
    by_cases h : l = 0
    · simp [evalOp, result, h]
    · simp only [evalOp, result, h, and_false, not_false_eq_true, true_and, if_false,
        Except.ok.injEq, Option.some.injEq, exists_eq_left']
      rw [Nat.mod_eq_of_lt (a := m % l) (by omega)]

/-- A LONG column takes the result; a product, if an INT could hold it. -/
theorem evalExpr_long (hm : m ≤ ulongMax) (hl : l ≤ ulongMax) : evalExpr .long op m l = .ok r ↔
    result op m l = some r ∧ r ≤ ulongMax ∧ (op = .mult → r ≤ uintMax) := by
  rw [evalExpr_ok]
  simp only [reduceCtorEq, false_and, not_false_eq_true, and_true]
  unfold ulongMax at *
  cases op with
  | plus =>
    simp only [evalOp, result, reduceCtorEq, false_and, or_self, not_false_eq_true, true_and,
      Option.some.injEq, ulongMax, or_false, false_implies, and_true]
    split
    · refine iff_of_false (fun h => by cases h) fun h => ?_
      omega
    · rw [Except.ok.injEq, Nat.mod_eq_of_lt (by omega)]
      refine ⟨fun h => ⟨h, by omega⟩, And.left⟩
  | minus =>
    simp only [evalOp, result, reduceCtorEq, false_and, or_self, not_false_eq_true, true_and,
      false_implies, and_true]
    by_cases h : l ≤ m
    · rw [if_pos h, if_neg (by omega), Except.ok.injEq, Option.some.injEq]
      exact ⟨fun h => ⟨h, by omega⟩, And.left⟩
    · rw [if_neg h, if_pos (by omega)]
      simp
  | mult =>
    have hguard : l > 0 ∧ m > uintMax / l ↔ uintMax < m * l := by
      constructor
      · rintro ⟨hpos, h⟩
        exact (Nat.div_lt_iff_lt_mul hpos).1 h
      · intro h
        have hpos : 0 < l := Nat.pos_of_ne_zero fun e => by simp [e] at h
        exact ⟨hpos, (Nat.div_lt_iff_lt_mul hpos).2 h⟩
    simp only [evalOp, result, reduceCtorEq, false_and, or_self, not_false_eq_true, true_and,
      true_implies]
    split
    · rename_i hg
      have hbig := hguard.1 hg
      refine iff_of_false (fun h => by cases h) fun h => ?_
      have hq := Option.some.inj h.1
      omega
    · rename_i hg
      have hsmall : m * l ≤ uintMax := Nat.le_of_not_lt fun h => hg (hguard.2 h)
      have hlt : m * l < 18446744073709551616 := Nat.lt_of_le_of_lt hsmall (by decide)
      rw [Except.ok.injEq, Option.some.injEq, Nat.mod_eq_of_lt hlt]
      exact ⟨fun h => ⟨h, by omega, by omega⟩, And.left⟩
  | divide =>
    have hq : m / l ≤ m := Nat.div_le_self m l
    by_cases h : l = 0
    · simp [evalOp, result, h]
    · simp only [evalOp, result, h, and_false, not_false_eq_true, true_and, if_false,
        Except.ok.injEq, Option.some.injEq, reduceCtorEq, false_implies, and_true]
      exact ⟨fun h => ⟨h, by omega⟩, And.left⟩
  | modulo =>
    have hq : m % l ≤ m := Nat.mod_le m l
    by_cases h : l = 0
    · simp [evalOp, result, h]
    · simp only [evalOp, result, h, and_false, not_false_eq_true, true_and, if_false,
        Except.ok.injEq, Option.some.injEq, reduceCtorEq, false_implies, and_true]
      exact ⟨fun h => ⟨h, by omega⟩, And.left⟩

/-- UPDATE arithmetic is exact or refused just where the tests can tell. -/
theorem exactOrRefused_iff (ctype : NumType) (op : UeOp) (hm : m ≤ ctype.max) (hl : l ≤ ulongMax) :
    ExactOrRefused ctype op m l ↔ ∀ r, result op m l = some r → Testable ctype op r := by
  unfold ExactOrRefused
  cases ctype with
  | int =>
    simp only [evalExpr_int hm hl, NumType.max, Testable]
    constructor
    · intro h q hq
      have h1 := (h q).2
      have h2 := (h (q % 18446744073709551616)).1
      refine ⟨fun e => ?_, fun hbig => ?_⟩
      · obtain ⟨_, _, _, hlt⟩ := h1 ⟨hq, e.le⟩
        omega
      · by_contra hsmall
        have hsame := Option.some.inj (hq.symm.trans (h2 ⟨q, hq, rfl, by omega⟩).1)
        unfold ulongMax at hbig
        omega
    · intro h r
      constructor
      · rintro ⟨q, hq, hr, hlt⟩
        obtain ⟨-, hbig⟩ := h q hq
        have hle : q ≤ ulongMax := by
          by_contra hgt
          have := hbig (by omega)
          omega
        unfold ulongMax at hle
        rw [Nat.mod_eq_of_lt (by omega)] at hr
        exact ⟨hr ▸ hq, hlt.le⟩
      · rintro ⟨hq, hle⟩
        have hne := (h r hq).1
        unfold uintMax at *
        exact ⟨r, hq, Nat.mod_eq_of_lt (by omega), by omega⟩
  | long =>
    simp only [evalExpr_long hm hl, NumType.max, Testable]
    constructor
    · intro h q hq hop
      by_contra hno
      have := (h q).2 ⟨hq, by omega⟩
      have := this.2.2 hop
      omega
    · intro h r
      refine ⟨fun hr => ⟨hr.1, hr.2.1⟩, fun hr => ⟨hr.1, hr.2, fun hop => ?_⟩⟩
      have := h r hr.1 hop
      omega

theorem exactOrRefused_five : ExactOrRefused .int .plus 5 7 ↔
    ∀ r, result .plus 5 7 = some r → Testable .int .plus r :=
  exactOrRefused_iff .int .plus (by decide) (by decide)

/-- An INT that holds 5 takes 4 for `5 + 18446744073709551615`, and is refused `5 + 4294967290`; a
LONG is refused `4294967296 * 1`. -/
theorem not_exactOrRefused :
    evalExpr .int .plus 5 18446744073709551615 = .ok 4 ∧
      ¬ ExactOrRefused .int .plus 5 18446744073709551615 ∧
      ¬ ExactOrRefused .int .plus 5 4294967290 ∧ ¬ ExactOrRefused .long .mult 4294967296 1 := by
  refine ⟨rfl, fun h => ?_, fun h => ?_, fun h => ?_⟩
  · have := (h 4).1 rfl
    exact absurd this (by decide)
  · have := (h 4294967295).2 ⟨rfl, by decide⟩
    exact absurd this (by decide)
  · have := (h 4294967296).2 ⟨rfl, by decide⟩
    exact absurd this (by decide)

end AlchemyDB.Table.Expr
