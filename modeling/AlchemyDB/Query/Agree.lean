/-
# Filters against the relation

For each type and each operator, exactly which keys and columns `aobjCmp` gets
right; from there BETWEEN and IN, and the lookups of an index.
-/
import AlchemyDB.Query.Filter

namespace AlchemyDB.Query

open Index Row Bytes

/-! ## The result of a comparison -/

/-- What an operator makes of the number that `aobjCmp` returns. -/
def opCode : Op → Int → Bool
  | .eq, z => decide (z = 0)
  | .ne, z => toBool z
  | .gt, z => decide (z < 0)
  | .ge, z => decide (z ≤ 0)
  | .lt, z => decide (z > 0)
  | .le, z => decide (z ≥ 0)

variable {t : KType}

theorem opCmp_eq (op : Op) (k : Val t) (c : Cell t) :
    opCmp op k c = (aobjCmp k c).map (opCode op) := by
  cases op <;> rfl

/-- The relation, over any order. -/
def relOf {α : Type} [DecidableEq α] [LT α] [DecidableLT α] : Op → α → α → Bool
  | .eq, k, x => decide (x = k)
  | .ne, k, x => decide (x ≠ k)
  | .gt, k, x => decide (k < x)
  | .ge, k, x => decide (¬ x < k)
  | .lt, k, x => decide (x < k)
  | .le, k, x => decide (¬ k < x)

theorem rel_int (op : Op) (k x : UInt32) : rel (t := .int) op k x = relOf op k x := by
  cases op <;> first | rfl | exact (decide_not).symm

theorem rel_long (op : Op) (k x : UInt64) : rel (t := .long) op k x = relOf op k x := by
  cases op <;> first | rfl | exact (decide_not).symm

theorem rel_u128 (op : Op) (k x : BitVec 128) : rel (t := .u128) op k x = relOf op k x := by
  cases op <;> first | rfl | exact (decide_not).symm

theorem rel_text (op : Op) (k x : List UInt8) : rel (t := .text) op k x = relOf op k x := by
  cases op <;> first | rfl | exact (decide_not).symm

/-- A number below 256 with the sign of a comparison. -/
structure Signed (z : Int) (lt eq gt : Prop) : Prop where
  neg : z < 0 ↔ lt
  zero : z = 0 ↔ eq
  pos : 0 < z ↔ gt
  low : z % 256 = 0 → z = 0

/-- An operator is right on a number that has the sign of the comparison. -/
theorem Signed.opCode {α : Type} [DecidableEq α] [LT α] [DecidableLT α] {z : Int} {k x : α}
    (h : Signed z (k < x) (x = k) (x < k)) (op : Op) : opCode op z = relOf op k x := by
  obtain ⟨hn, hz, hp, hl⟩ := h
  have hm : z % 256 = 0 ↔ z = 0 := ⟨hl, fun h => by rw [h]; rfl⟩
  cases op <;>
    simp only [Query.opCode, relOf, toBool, decide_eq_decide, ne_eq, hm, ← hn, ← hz, ← hp] <;>
    omega

/-! ## Numbers -/

/-- An INT is compared rightly: as equal always, as different unless the difference is a multiple of
256, and in order when it is less than `2^31` away. -/
def IntRight (op : Op) (k x : UInt32) : Prop :=
  match op with
  | .eq => True
  | .ne => k = x ∨ (k - x).toNat % 256 ≠ 0
  | _ => -2147483648 ≤ (k.toNat : Int) - x.toNat ∧ (k.toNat : Int) - x.toNat < 2147483648

/-- An empty INT, compared as 0, does not pass. -/
def IntEmpty (op : Op) (k : UInt32) : Prop :=
  match op with
  | .eq => k ≠ 0
  | .ne => k.toNat % 256 = 0
  | .gt => k.toNat < 2147483648
  | .ge => 0 < k.toNat ∧ k.toNat < 2147483648
  | .lt => k = 0 ∨ 2147483648 ≤ k.toNat
  | .le => 2147483648 ≤ k.toNat

/-- An empty LONG or U128, compared as 0, does not pass. -/
def WideEmpty (op : Op) (zero : Prop) : Prop :=
  match op with
  | .eq | .ge => ¬ zero
  | .ne | .lt => zero
  | .gt => True
  | .le => False

/-! ## Texts -/

/-- The text is decided by what is behind the column, which has ended. -/
def TailRight (op : Op) (z : Int) : Prop :=
  match op with
  | .eq | .ne => z ≠ 0
  | .gt | .le => 0 ≤ z
  | .ge | .lt => 0 < z

/-- Behind a byte 0 in both texts nothing is read. -/
def NulRight (op : Op) (k x : List UInt8) : Prop :=
  match op with
  | .eq | .ne => k = x
  | .gt | .le => ¬ k < x
  | .ge | .lt => ¬ x < k

/-- A text is compared rightly: the two part inside both, or the key is a proper part of the column
and the operator does not ask, or the bytes behind the column happen to decide rightly. -/
def TextRight (op : Op) : List UInt8 → List UInt8 → (Nat → UInt8) → Prop
  | [], [], _ => True
  | [], _ :: _, _ => op = .ge ∨ op = .lt
  | c :: k, [], mem => TailRight op (strncmp (c :: k) mem)
  | c :: k, d :: x, mem =>
      c ≠ d ∨ (c = d ∧ c = 0 ∧ NulRight op k x) ∨ (c = d ∧ c ≠ 0 ∧ TextRight op k x mem)

/-- The comparison of a column with one key is right. -/
def KeyRight : {t : KType} → Op → Val t → Cell t → Prop
  | .int, op, k, c =>
      match c.val with
      | some x => IntRight op k x
      | none => IntEmpty op k
  | .long, op, k, c =>
      match c.val with
      | some _ => True
      | none => WideEmpty op (k = (0 : UInt64))
  | .u128, op, k, c =>
      match c.val with
      | some _ => True
      | none => WideEmpty op (k = (0 : BitVec 128))
  | .text, op, k, c =>
      match c.val with
      | some x => TextRight op k x c.mem
      | none => k = ([] : List UInt8) ∧ (op = .ne ∨ op = .gt ∨ op = .lt)

theorem int32_toNat_sub (k x : UInt32) :
    int32 (k - x).toNat = int32 ((k.toNat : Int) - x.toNat) := by
  have hk := k.toNat_lt
  have hx := x.toNat_lt
  rw [UInt32.toNat_sub]
  simp only [int32]
  omega

theorem intRight_iff (op : Op) (k x : UInt32) :
    opCode op (int32 (k - x).toNat) = relOf op k x ↔ IntRight op k x := by
  have hk := k.toNat_lt
  have hx := x.toNat_lt
  have hd := int32_toNat_sub k x
  have heq : x = k ↔ x.toNat = k.toNat := UInt32.toNat_inj.symm
  cases op with
  | eq =>
      rw [hd]
      simp only [opCode, relOf, IntRight, iff_true, decide_eq_decide, heq]
      simp only [int32]
      omega
  | ne =>
      have hm : int32 (k - x).toNat % 256 = 0 ↔ (k - x).toNat % 256 = 0 := by
        simp only [int32]
        omega
      simp only [opCode, relOf, IntRight, toBool, decide_eq_decide, ne_eq, hm]
      by_cases h : k = x
      · simp [h]
      · simp [h, Ne.symm h]
  | gt =>
      rw [hd]
      simp only [opCode, relOf, IntRight, decide_eq_decide, UInt32.lt_iff_toNat_lt]
      simp only [int32]
      omega
  | ge =>
      rw [hd]
      simp only [opCode, relOf, IntRight, decide_eq_decide, UInt32.lt_iff_toNat_lt]
      simp only [int32]
      omega
  | lt =>
      rw [hd]
      simp only [opCode, relOf, IntRight, decide_eq_decide, UInt32.lt_iff_toNat_lt]
      simp only [int32]
      omega
  | le =>
      rw [hd]
      simp only [opCode, relOf, IntRight, decide_eq_decide, UInt32.lt_iff_toNat_lt]
      simp only [int32]
      omega

theorem intEmpty_iff (op : Op) (k : UInt32) :
    opCode op (int32 (k - 0).toNat) = false ↔ IntEmpty op k := by
  have hk := k.toNat_lt
  have h0 : k = 0 ↔ k.toNat = 0 := by rw [← UInt32.toNat_inj]; rfl
  rw [UInt32.sub_zero, ← Bool.not_eq_true]
  cases op <;>
    · simp only [opCode, IntEmpty, toBool, decide_eq_true_eq, h0, ne_eq]
      simp only [int32]
      omega

/-! ## Wide numbers -/

/-- The comparison of LONGs and U128s has the right sign. -/
theorem signed_threeWay {α : Type} [DecidableEq α] [LT α] [DecidableLT α]
    (tri : ∀ a b : α, a < b ∨ a = b ∨ b < a) (asym : ∀ a b : α, a < b → ¬ b < a) (k x : α) :
    Signed (threeWay (decide (k = x)) (decide (x < k))) (k < x) (x = k) (x < k) := by
  have irr : ∀ a : α, ¬ a < a := fun a h => asym a a h h
  unfold threeWay
  rcases tri k x with h | rfl | h
  · have hne : k ≠ x := fun he => irr x (he ▸ h)
    constructor <;> simp [hne, Ne.symm hne, h, asym _ _ h]
  · constructor <;> simp [irr]
  · have hne : k ≠ x := fun he => irr x (he ▸ h)
    constructor <;> simp [hne, Ne.symm hne, h, asym _ _ h]

/-- An empty LONG or U128 is compared as 0, and nothing is below 0. -/
theorem wideEmpty_iff {α : Type} [DecidableEq α] [LT α] [DecidableLT α] {zero : α}
    (least : ∀ a : α, a ≠ zero ↔ zero < a) (op : Op) (k : α) :
    opCode op (threeWay (decide (k = zero)) (decide (zero < k))) = false ↔
      WideEmpty op (k = zero) := by
  by_cases h : k = zero
  · cases op <;> simp [opCode, WideEmpty, threeWay, toBool, h]
  · have hp := (least k).1 h
    cases op <;> simp [opCode, WideEmpty, threeWay, toBool, h, hp]

/-! ## `strncmp` -/

theorem strncmp_bound : ∀ (k : List UInt8) (m : Nat → UInt8),
    -256 < strncmp k m ∧ strncmp k m < 256
  | [], _ => by simp [strncmp]
  | c :: k, m => by
      have hc := c.toNat_lt
      have hm := (m 0).toNat_lt
      unfold strncmp
      split
      · omega
      · split
        · omega
        · exact strncmp_bound k _

theorem follow_cons (c : UInt8) (s : List UInt8) (mem : Nat → UInt8) :
    (fun i => follow (c :: s) mem (i + 1)) = follow s mem := rfl

/-- The first byte that differs has the sign of the comparison. -/
theorem signed_head {c d : UInt8} (h : c ≠ d) (k x : List UInt8) :
    Signed ((c.toNat : Int) - d.toNat) (c :: k < d :: x) (d :: x = c :: k) (d :: x < c :: k) := by
  have hc := c.toNat_lt
  have hd := d.toNat_lt
  have hne : c.toNat ≠ d.toNat := fun he => h (UInt8.toNat_inj.1 he)
  have h1 : c :: k < d :: x ↔ c < d := by
    rw [List.cons_lt_cons_iff]
    exact ⟨fun e => e.elim id fun e => absurd e.1 h, .inl⟩
  have h2 : d :: x < c :: k ↔ d < c := by
    rw [List.cons_lt_cons_iff]
    exact ⟨fun e => e.elim id fun e => absurd e.1.symm h, .inl⟩
  have h3 : d :: x = c :: k ↔ False :=
    ⟨fun e => h (List.cons.inj e).1.symm, False.elim⟩
  rw [h1, h2, h3, UInt8.lt_iff_toNat_lt, UInt8.lt_iff_toNat_lt]
  exact ⟨by omega, iff_of_false (by omega) id, by omega, by omega⟩

/-- The relation below a common first byte. -/
theorem relOf_cons (op : Op) (c : UInt8) (k x : List UInt8) :
    relOf op (c :: k) (c :: x) = relOf op k x := by
  cases op <;> simp [relOf]

theorem textRight_iff (op : Op) : ∀ (k x : List UInt8) (mem : Nat → UInt8),
    opCode op (strncmp k (follow x mem)) = relOf op k x ↔ TextRight op k x mem
  | [], [], mem => by
      cases op <;> simp [opCode, strncmp, relOf, TextRight, toBool]
  | [], d :: x, mem => by
      cases op <;> simp [opCode, strncmp, relOf, TextRight, toBool]
  | c :: k, [], mem => by
      have hf : follow [] mem = mem := rfl
      have hb := strncmp_bound (c :: k) mem
      rw [hf, TextRight]
      generalize strncmp (c :: k) mem = z at hb
      have hm : z % 256 = 0 ↔ z = 0 := by omega
      cases op <;> simp [opCode, relOf, TailRight, toBool, hm]
  | c :: k, d :: x, mem => by
      rw [TextRight]
      by_cases h : c = d
      · subst h
        rw [relOf_cons]
        by_cases h0 : c = 0
        · subst h0
          have hz : strncmp (0 :: k) (follow (0 :: x) mem) = 0 := by simp [strncmp, follow]
          rw [hz]
          simp only [ne_eq, not_true_eq_false, false_or, true_and, false_and, or_false]
          have hxk : x = k ↔ k = x := eq_comm
          cases op <;> simp [opCode, relOf, NulRight, toBool, hxk]
        · have hz : strncmp (c :: k) (follow (c :: x) mem) = strncmp k (follow x mem) := by
            rw [strncmp, if_neg (by simp [follow]), if_neg h0, follow_cons]
          rw [hz, textRight_iff op k x mem]
          simp [h0]
      · have hz : strncmp (c :: k) (follow (d :: x) mem) = (c.toNat : Int) - d.toNat := by
          rw [strncmp, if_pos (by simpa [follow] using h)]
          rfl
        rw [hz, (signed_head h k x).opCode]
        simp [h]

/-! ## One key -/

/-- What the comparison should give: an empty column does not pass. -/
def relCell (op : Op) (k : Val t) (v : Option (Val t)) : Bool :=
  match v with
  | some x => rel op k x
  | none => false

theorem int_rel (op : Op) (k x : UInt32) :
    opCode op (int32 (k - x).toNat) = rel (t := .int) op k x ↔ IntRight op k x := by
  rw [rel_int]
  exact intRight_iff op k x

theorem long_rel (op : Op) (k x : UInt64) :
    opCode op (threeWay (decide (k = x)) (decide (x < k))) = rel (t := .long) op k x := by
  rw [rel_long]
  refine (signed_threeWay (fun a b => ?_) (fun a b => ?_) k x).opCode op
  · rw [UInt64.lt_iff_toNat_lt, UInt64.lt_iff_toNat_lt, ← UInt64.toNat_inj]
    omega
  · rw [UInt64.lt_iff_toNat_lt, UInt64.lt_iff_toNat_lt]
    omega

theorem u128_rel (op : Op) (k x : BitVec 128) :
    opCode op (threeWay (decide (k = x)) (decide (x < k))) = rel (t := .u128) op k x := by
  rw [rel_u128]
  refine (signed_threeWay (fun a b => ?_) (fun a b => ?_) k x).opCode op
  · rw [BitVec.lt_def, BitVec.lt_def, ← BitVec.toNat_inj]
    omega
  · rw [BitVec.lt_def, BitVec.lt_def]
    omega

theorem text_rel (op : Op) (k x : List UInt8) (mem : Nat → UInt8) :
    opCode op (strncmp k (follow x mem)) = rel (t := .text) op k x ↔ TextRight op k x mem := by
  rw [rel_text]
  exact textRight_iff op k x mem

/-- An empty TEXT is a null pointer. -/
theorem text_empty (op : Op) (k : List UInt8) :
    Option.map (opCode op) (if k = [] then some 0 else none) = some false ↔
      k = [] ∧ (op = .ne ∨ op = .gt ∨ op = .lt) := by
  by_cases hk : k = []
  · rw [if_pos hk]
    cases op <;> simp [opCode, toBool, hk]
  · rw [if_neg hk]
    simp [hk]

theorem uint64_pos (a : UInt64) : a ≠ 0 ↔ 0 < a := by
  rw [UInt64.lt_iff_toNat_lt, ne_eq, ← UInt64.toNat_inj]
  exact Nat.pos_iff_ne_zero.symm

theorem bitVec_pos (a : BitVec 128) : a ≠ 0 ↔ 0 < a := by
  rw [BitVec.lt_def, ne_eq, ← BitVec.toNat_inj]
  exact Nat.pos_iff_ne_zero.symm

theorem keyRight_iff (op : Op) (k : Val t) (c : Cell t) :
    opCmp op k c = some (relCell op k c.val) ↔ KeyRight op k c := by
  obtain ⟨v, mem⟩ := c
  rw [opCmp_eq]
  cases t with
  | int =>
      cases v with
      | none => exact Option.some_inj.trans (intEmpty_iff op k)
      | some x => exact Option.some_inj.trans (int_rel op k x)
  | long =>
      cases v with
      | none => exact Option.some_inj.trans (wideEmpty_iff uint64_pos op k)
      | some x => exact iff_of_true (congrArg some (long_rel op k x)) trivial
  | u128 =>
      cases v with
      | none => exact Option.some_inj.trans (wideEmpty_iff bitVec_pos op k)
      | some x => exact iff_of_true (congrArg some (u128_rel op k x)) trivial
  | text =>
      cases v with
      | some x => exact Option.some_inj.trans (text_rel op k x mem)
      | none => exact text_empty op k

/-- A column that has a value, or one of numbers, is compared in any case. -/
theorem opCmp_total (op : Op) (k : Val t) (c : Cell t) (h : t ≠ .text ∨ c.val.isSome) :
    ∃ b, opCmp op k c = some b := by
  obtain ⟨v, mem⟩ := c
  rw [opCmp_eq]
  cases t with
  | int => exact ⟨_, rfl⟩
  | long => exact ⟨_, rfl⟩
  | u128 => exact ⟨_, rfl⟩
  | text =>
      cases v with
      | some x => exact ⟨_, rfl⟩
      | none => exact absurd h (by simp)

/-! ## BETWEEN and IN -/

/-- Two comparisons in a row come out right: both are right, or one of them is and excludes the
column, or both are wrong and just one of them should exclude it. -/
def BothRight (r₁ r₂ : Prop) (m₁ m₂ : Bool) : Prop :=
  (r₁ ∧ r₂) ∨ (r₁ ∧ m₁ = false) ∨ (r₂ ∧ m₂ = false) ∨ (¬ r₁ ∧ ¬ r₂ ∧ m₁ ≠ m₂)

theorem bothRight_iff (b₁ b₂ m₁ m₂ : Bool) :
    (b₁ && b₂) = (m₁ && m₂) ↔ BothRight (b₁ = m₁) (b₂ = m₂) m₁ m₂ := by
  unfold BothRight
  cases b₁ <;> cases b₂ <;> cases m₁ <;> cases m₂ <;> simp

/-- The filter is right on a column. -/
def FilterOk (f : Flt t) (c : Cell t) : Prop :=
  match f, c.val with
  | .cmp op k, _ => KeyRight op k c
  | .between low high, some x =>
      BothRight (KeyRight .ge low c) (KeyRight .le high c) (rel .ge low x) (rel .le high x)
  | .between low high, none => KeyRight .ge low c ∨ KeyRight .le high c
  | .inl keys, some x => keys ≠ [] ∧ (x ∈ keys ∨ ∀ k ∈ keys, KeyRight .eq k c)
  | .inl keys, none => keys ≠ [] ∧ ∀ k ∈ keys, KeyRight .eq k c

/-- IN without keys takes every column. -/
theorem passInl_iff {c : Cell t} : ∀ (keys : List (Val t)) (ret : Bool),
    passInl ret keys c = some false ↔
      (keys = [] → ret = false) ∧ ∀ k ∈ keys, aobjEQ k c = some false
  | [], ret => by simp [passInl]
  | k :: ks, ret => by
      rw [passInl]
      cases h : aobjEQ k c with
      | none => simp [h]
      | some b =>
          cases b with
          | true => simp [h]
          | false => simp [h, passInl_iff ks false]

theorem textRight_eq_self (mem : Nat → UInt8) : ∀ x : List UInt8, TextRight .eq x x mem
  | [] => trivial
  | c :: x => by
      by_cases h : c = 0
      · exact .inr (.inl ⟨rfl, h, rfl⟩)
      · exact .inr (.inr ⟨rfl, h, textRight_eq_self mem x⟩)

/-- A column is found equal to its own value. -/
theorem aobjEQ_self {c : Cell t} {x : Val t} (hv : c.val = some x) : aobjEQ x c = some true := by
  have hk : KeyRight .eq x c := by
    cases t with
    | int => simp only [KeyRight, hv, IntRight]
    | long => simp only [KeyRight, hv]
    | u128 => simp only [KeyRight, hv]
    | text =>
        simp only [KeyRight, hv]
        exact textRight_eq_self c.mem x
  have h := (keyRight_iff .eq x c).2 hk
  rw [hv] at h
  exact h.trans (by simp [relCell, rel])

/-- A key that is the column passes. -/
theorem passInl_mem {c : Cell t} {x : Val t} (hv : c.val = some x) : ∀ (keys : List (Val t))
    (ret : Bool), x ∈ keys → passInl ret keys c = some true
  | k :: ks, ret, hx => by
      rw [passInl]
      obtain ⟨b, hb⟩ := opCmp_total .eq k c (.inr (by rw [hv]; rfl))
      have hb' : aobjEQ k c = some b := hb
      rw [hb']
      cases b with
      | true => rfl
      | false =>
          rcases List.mem_cons.1 hx with rfl | hx
          · rw [aobjEQ_self hv] at hb'
            cases hb'
          · exact passInl_mem hv ks false hx

/-- No key of IN is the column: it must be told from every one of them. -/
theorem passInl_apart {c : Cell t} {keys : List (Val t)}
    (hn : ∀ k ∈ keys, relCell .eq k c.val = false) :
    passInl true keys c = some false ↔ keys ≠ [] ∧ ∀ k ∈ keys, KeyRight .eq k c := by
  rw [passInl_iff]
  refine and_congr (by simp) (forall₂_congr fun k hk => ?_)
  rw [← keyRight_iff, hn k hk]
  rfl

/-- BETWEEN on a column with a value. -/
theorem passBetween_iff {c : Cell t} {x : Val t} (hv : c.val = some x) (low high : Val t) :
    passFilt (.between low high) c = some (rel .ge low x && rel .le high x) ↔
      BothRight (KeyRight .ge low c) (KeyRight .le high c) (rel .ge low x) (rel .le high x) := by
  have hs : c.val.isSome = true := by rw [hv]; rfl
  obtain ⟨b₁, h₁⟩ := opCmp_total .ge low c (.inr hs)
  obtain ⟨b₂, h₂⟩ := opCmp_total .le high c (.inr hs)
  have hp : passFilt (.between low high) c = some (b₁ && b₂) := by
    simp only [passFilt, h₁, h₂]
    cases b₁ <;> rfl
  have hr₁ : KeyRight .ge low c ↔ b₁ = rel .ge low x := by
    rw [← keyRight_iff, h₁, hv]
    exact Option.some_inj
  have hr₂ : KeyRight .le high c ↔ b₂ = rel .le high x := by
    rw [← keyRight_iff, h₂, hv]
    exact Option.some_inj
  rw [hp, hr₁, hr₂, Option.some_inj]
  exact bothRight_iff b₁ b₂ _ _

/-- BETWEEN on an empty column: one of the two comparisons must keep it out. -/
theorem passBetween_empty {c : Cell t} (hv : c.val = none) (low high : Val t) :
    passFilt (.between low high) c = some false ↔ KeyRight .ge low c ∨ KeyRight .le high c := by
  rw [← keyRight_iff, ← keyRight_iff, hv]
  simp only [passFilt, relCell]
  cases h₁ : opCmp .ge low c with
  | none =>
      have ht : t = .text := by
        by_contra ht
        obtain ⟨b, hb⟩ := opCmp_total .ge low c (.inl ht)
        rw [h₁] at hb
        cases hb
      subst ht
      have h₂ : opCmp .le high c ≠ some false := by
        intro h
        have hk := (keyRight_iff .le high c).1 (by rw [h, hv]; rfl)
        simp [KeyRight, hv] at hk
      simp [h₂]
  | some b => cases b <;> simp

theorem filterOk_iff (f : Flt t) (c : Cell t) :
    passFilt f c = some (f.holds c.val) ↔ FilterOk f c := by
  cases f with
  | cmp op k =>
      have h : (Flt.cmp op k).holds c.val = relCell op k c.val := by cases c.val <;> rfl
      rw [h, passFilt, keyRight_iff]
      unfold FilterOk
      cases c.val <;> rfl
  | between low high =>
      cases hv : c.val with
      | none => simpa only [Flt.holds, FilterOk, hv] using passBetween_empty hv low high
      | some x => simpa only [Flt.holds, FilterOk, hv] using passBetween_iff hv low high
  | inl keys =>
      cases hv : c.val with
      | none =>
          simp only [Flt.holds, FilterOk, hv, passFilt]
          exact passInl_apart fun k _ => by rw [hv]; rfl
      | some x =>
          simp only [Flt.holds, FilterOk, hv, passFilt]
          by_cases hx : x ∈ keys
          · have hne : keys ≠ [] := List.ne_nil_of_mem hx
            simp [passInl_mem hv keys true hx, hx, hne]
          · simp only [hx, decide_false, false_or]
            refine passInl_apart fun k hk => ?_
            have hxk : x ≠ k := fun e => hx (e ▸ hk)
            simp [hv, relCell, rel, hxk]

end AlchemyDB.Query
