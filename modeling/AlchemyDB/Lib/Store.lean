/-
# Stores — pointwise updates and programs that may go wrong

A store is a total function and a write is `upd`.  Programs over a store are
state transformers into `Option`: `none` is the program that has gone wrong
(a dead pointer followed, an assertion that fires).  The two facts every
symbolic execution below uses are the read-over-write law `upd_apply` and
`run_bind`, which peels one command off a sequence.
-/
import Mathlib.Data.List.Basic
import Mathlib.Tactic.Ring

namespace Store

/-! ## Pointwise updates -/

/-- The function `f` with the value at `a` replaced by `v`. -/
def upd {A B : Type} [DecidableEq A] (f : A → B) (a : A) (v : B) : A → B :=
  fun b => if b = a then v else f b

section Upd

variable {A B : Type} [DecidableEq A]

theorem upd_apply (f : A → B) (a b : A) (v : B) :
    upd f a v b = if b = a then v else f b := rfl

@[simp] theorem upd_same (f : A → B) (a : A) (v : B) : upd f a v a = v := by
  simp [upd]

@[simp] theorem upd_ne (f : A → B) {a b : A} (v : B) (h : b ≠ a) :
    upd f a v b = f b := by
  simp [upd, h]

@[simp] theorem upd_upd (f : A → B) (a : A) (v w : B) :
    upd (upd f a v) a w = upd f a w := by
  funext b
  by_cases h : b = a <;> simp [upd, h]

theorem upd_upd_upd (f : A → B) (a b : A) (u v w : B) :
    upd (upd (upd f a u) b v) a w = upd (upd f b v) a w := by
  funext c
  simp only [upd]
  split_ifs <;> rfl

@[simp] theorem upd_self (f : A → B) (a : A) : upd f a (f a) = f := by
  funext b
  by_cases h : b = a <;> simp [upd, h]

end Upd

/-! ## Running a sequence -/

section Run

variable {S A B : Type}

/-- The first command of a sequence is done: go on with the second. -/
theorem run_bind {m : StateT S Option A} {f : A → StateT S Option B} {s s' : S} {a : A}
    (h : m s = some (a, s')) : (m >>= f) s = f a s' := by
  simp [bind, StateT.bind, h]

/-- A value that is read only under a condition. -/
theorem run_ite_bind {c : Prop} [Decidable c] {m : StateT S Option A} {s : S} {a : A} (b : A)
    (h : c → m s = some (a, s)) : ∃ v, (c → v = a) ∧
      ∀ f : A → StateT S Option B, (if c then m >>= f else pure b >>= f) s = f v s := by
  by_cases hc : c
  · refine ⟨a, fun _ => rfl, fun f => ?_⟩
    rw [if_pos hc]
    exact run_bind (h hc)
  · refine ⟨b, fun h' => absurd h' hc, fun f => ?_⟩
    rw [if_neg hc]
    rfl

/-- A sequence that succeeds went through its first command. -/
theorem bind_run_eq {m : StateT S Option A} {f : A → StateT S Option B} {s : S} {r : B × S}
    (h : (m >>= f) s = some r) : ∃ a s', m s = some (a, s') ∧ f a s' = some r := by
  simp only [bind, StateT.bind] at h
  rcases hm : m s with _ | ⟨a, s'⟩
  · simp [hm] at h
  · exact ⟨a, s', rfl, by simpa [hm] using h⟩

@[simp] theorem run_pure (a : A) (s : S) : (pure a : StateT S Option A) s = some (a, s) := rfl

@[simp] theorem run_get (s : S) : (get : StateT S Option S) s = some (s, s) := rfl

@[simp] theorem run_failure (s : S) : (failure : StateT S Option A) s = none := rfl

end Run

end Store
