/-
# Runs and references — what an LZ77 stream denotes

A stream is a list of tokens: a run of values, or a reference to what stands a
distance before the end of what was written.  A reference may reach into what it
writes itself, so it is copied value by value.  An encoder that has compared what
it refers to with what it has read writes a longer prefix of its input, and that
is all that its proof has to know of references.
-/
import Mathlib.Data.List.Basic

namespace Lz

inductive Token (α : Type) where
  | run (l : List α)
  | ref (dist len : Nat)
  deriving DecidableEq, Repr

variable {α : Type}

/-- Values that stand at `ref` and behind it are written again. -/
def copy (ref : Nat) : Nat → List α → Option (List α)
  | 0, out => some out
  | n + 1, out => out[ref]?.bind fun a => copy (ref + 1) n (out ++ [a])

/-- A token is written behind what there is. -/
def write (out : List α) : Token α → Option (List α)
  | .run l => some (out ++ l)
  | .ref dist len => if dist ≤ out.length then copy (out.length - dist) len out else none

/-- What a stream denotes. -/
def expand (ts : List (Token α)) : Option (List α) := ts.foldlM write []

theorem copy_length : ∀ {n ref : Nat} {out out' : List α}, copy ref n out = some out' →
    out'.length = out.length + n
  | 0, _, _, _, h => by
      cases h
      rfl
  | n + 1, ref, out, out', h => by
      obtain ⟨a, -, h⟩ := Option.bind_eq_some_iff.1 h
      have hlen := copy_length h
      simp only [List.length_append, List.length_cons, List.length_nil] at hlen
      omega

theorem write_ref {dist len : Nat} {out out' : List α} : write out (.ref dist len) = some out' ↔
    dist ≤ out.length ∧ copy (out.length - dist) len out = some out' := by
  simp only [write]
  split
  · next h => exact ⟨fun hc => ⟨h, hc⟩, fun hc => hc.2⟩
  · next h => exact ⟨(fun hc => nomatch hc), fun hc => absurd hc.1 h⟩

theorem write_length {t : Token α} {out out' : List α} (h : write out t = some out') :
    out.length ≤ out'.length := by
  cases t with
  | run l =>
      cases h
      simp
  | ref dist len =>
      rw [copy_length (write_ref.1 h).2]
      exact Nat.le_add_right _ _

/-- The output only grows. -/
theorem writes_length : ∀ {ts : List (Token α)} {out out' : List α},
    ts.foldlM write out = some out' → out.length ≤ out'.length
  | [], _, _, h => by
      cases h
      exact Nat.le_refl _
  | t :: ts, out, out', h => by
      obtain ⟨o, ho, h⟩ := Option.bind_eq_some_iff.1 h
      exact Nat.le_trans (write_length ho) (writes_length h)

/-- A reference into what was written can be copied, however far it reaches. -/
theorem copy_isSome : ∀ (n : Nat) {ref : Nat} {out : List α}, ref < out.length →
    (copy ref n out).isSome = true
  | 0, _, _, _ => rfl
  | n + 1, ref, out, h => by
      rw [copy, List.getElem?_eq_getElem h, Option.bind_some]
      exact copy_isSome n (by simp; omega)

variable {s : List α}

/-- A reference whose values were compared gives a longer prefix. -/
theorem copy_take : ∀ (n : Nat) {ref p : Nat}, ref < p → p + n ≤ s.length →
    (∀ k < n, s[ref + k]? = s[p + k]?) → copy ref n (s.take p) = some (s.take (p + n))
  | 0, _, _, _, _, _ => rfl
  | n + 1, ref, p, hlt, hle, heq => by
      have hp : p < s.length := by omega
      have hnext : s.take p ++ [s[p]] = s.take (p + 1) := by
        rw [List.take_add_one, List.getElem?_eq_getElem hp]
        rfl
      have hread : (s.take p)[ref]? = some s[p] := by
        rw [List.getElem?_take_of_lt hlt, ← List.getElem?_eq_getElem hp]
        exact heq 0 (Nat.succ_pos n)
      have heq' : ∀ k < n, s[ref + 1 + k]? = s[p + 1 + k]? := fun k hk => by
        have := heq (k + 1) (by omega)
        rwa [Nat.add_comm k 1, ← Nat.add_assoc, ← Nat.add_assoc] at this
      have ih : copy (ref + 1) n (s.take (p + 1)) = some (s.take (p + 1 + n)) :=
        copy_take n (Nat.succ_lt_succ hlt) (by omega) heq'
      rw [copy, hread, Option.bind_some, hnext, ih, Nat.add_assoc, Nat.add_comm 1 n]

theorem expand_snoc (ts : List (Token α)) (t : Token α) :
    expand (ts ++ [t]) = (expand ts).bind fun out => write out t := by
  simp [expand, List.foldlM_append]

/-- The stream denotes the first `p` values of `s`. -/
def Upto (s : List α) (ts : List (Token α)) (p : Nat) : Prop := expand ts = some (s.take p)

theorem Upto.nil (s : List α) : Upto s [] 0 := rfl

theorem Upto.run {ts : List (Token α)} {p : Nat} (h : Upto s ts p) (n : Nat) :
    Upto s (ts ++ [.run ((s.drop p).take n)]) (p + n) := by
  rw [Upto, expand_snoc, h, List.take_add]
  rfl

theorem Upto.ref {ts : List (Token α)} {p dist len : Nat} (h : Upto s ts p) (hpos : 0 < dist)
    (hdist : dist ≤ p) (hle : p + len ≤ s.length)
    (heq : ∀ k < len, s[p - dist + k]? = s[p + k]?) :
    Upto s (ts ++ [.ref dist len]) (p + len) := by
  have hlen : (s.take p).length = p := by
    rw [List.length_take]
    omega
  rw [Upto, expand_snoc, h, Option.bind_some, write, hlen, if_pos hdist]
  exact copy_take len (by omega) hle heq

end Lz
