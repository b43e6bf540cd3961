/-
# Index lookups against the relation

The comparison of an index is right on numbers.  On TEXTs it is right too, except
that `strncmp` ends at a byte 0: two texts that agree up to one are ordered by their
lengths.  With this, filters and lookups are measured by one relation.
-/
import AlchemyDB.Query.Agree

namespace AlchemyDB.Query

open Index Row Bytes

/-! ## `btTextCmp` -/

/-- The two texts agree up to a byte 0. -/
def NulCut : List UInt8 → List UInt8 → Prop
  | c :: k, d :: x => c = d ∧ (c = 0 ∨ NulCut k x)
  | _, _ => False

/-- Two lengths, compared. -/
def lenCmp (m n : Nat) : Int := if m = n then 0 else if m < n then -1 else 1

theorem btTextCmp_nil_nil : btTextCmp [] [] = 0 := rfl

theorem btTextCmp_nil_cons (d : UInt8) (x : List UInt8) : btTextCmp [] (d :: x) = -1 := by
  simp [btTextCmp, strncmp]

theorem btTextCmp_cons_nil (c : UInt8) (k : List UInt8) : btTextCmp (c :: k) [] = 1 := by
  simp [btTextCmp, strncmp]

/-- Where the first bytes differ they decide. -/
theorem btTextCmp_head {c d : UInt8} (h : c ≠ d) (k x : List UInt8) :
    btTextCmp (c :: k) (d :: x) = (c.toNat : Int) - d.toNat := by
  have hne : (c.toNat : Int) - d.toNat ≠ 0 := by
    have hn : c.toNat ≠ d.toNat := fun he => h (UInt8.toNat_inj.1 he)
    omega
  have hs (k' : List UInt8) :
      strncmp (c :: k') (follow (d :: x) fun _ => 0) = (c.toNat : Int) - d.toNat := by
    rw [strncmp, if_pos (by simpa [follow] using h)]
    rfl
  simp only [btTextCmp, List.length_cons, Nat.succ_min_succ, List.take_succ_cons, hs, hne,
    if_false, ite_self]

/-- Behind a byte 0 only the lengths count. -/
theorem btTextCmp_nul (k x : List UInt8) :
    btTextCmp (0 :: k) (0 :: x) = lenCmp k.length x.length := by
  have hs (k' : List UInt8) : strncmp (0 :: k') (follow (0 :: x) fun _ => 0) = 0 := by
    simp [strncmp, follow]
  simp only [btTextCmp, List.length_cons, Nat.succ_min_succ, List.take_succ_cons, hs, lenCmp,
    Nat.add_right_cancel_iff, Nat.add_lt_add_iff_right, if_true]

/-- Any other common byte is skipped. -/
theorem btTextCmp_cons {c : UInt8} (h : c ≠ 0) (k x : List UInt8) :
    btTextCmp (c :: k) (c :: x) = btTextCmp k x := by
  have hs (k' : List UInt8) : strncmp (c :: k') (follow (c :: x) fun _ => 0) =
      strncmp k' (follow x fun _ => 0) := by
    rw [strncmp, if_neg (by simp [follow]), if_neg h, follow_cons]
  simp only [btTextCmp, List.length_cons, Nat.succ_min_succ, List.take_succ_cons, hs,
    Nat.add_right_cancel_iff, Nat.add_lt_add_iff_right]

theorem btTextCmp_nulCut : ∀ k x : List UInt8, NulCut k x →
    btTextCmp k x = lenCmp k.length x.length
  | c :: k, d :: x, ⟨hcd, h⟩ => by
      subst hcd
      by_cases h0 : c = 0
      · subst h0
        simp [btTextCmp_nul, lenCmp]
      · rw [btTextCmp_cons h0, btTextCmp_nulCut k x (h.resolve_left h0)]
        simp [lenCmp]

/-- Without a common byte 0 the comparison is that of the bytes. -/
theorem btTextCmp_signed : ∀ k x : List UInt8, ¬ NulCut k x →
    Signed (btTextCmp k x) (k < x) (x = k) (x < k)
  | [], [], _ => by
      rw [btTextCmp_nil_nil]
      constructor <;> simp
  | [], d :: x, _ => by
      rw [btTextCmp_nil_cons]
      constructor <;> simp
  | c :: k, [], _ => by
      rw [btTextCmp_cons_nil]
      constructor <;> simp
  | c :: k, d :: x, h => by
      by_cases hcd : c = d
      · subst hcd
        have h0 : c ≠ 0 := fun e => h ⟨rfl, .inl e⟩
        have hk := btTextCmp_signed k x fun e => h ⟨rfl, .inr e⟩
        rw [btTextCmp_cons h0]
        obtain ⟨hn, hz, hp, hl⟩ := hk
        have h1 : c :: k < c :: x ↔ k < x := by simp
        have h2 : c :: x < c :: k ↔ x < k := by simp
        have h3 : c :: x = c :: k ↔ x = k := by simp
        rw [h1, h2, h3]
        exact ⟨hn, hz, hp, hl⟩
      · rw [btTextCmp_head hcd]
        exact signed_head hcd k x

theorem opCode_lenCmp (op : Op) (m n : Nat) : opCode op (lenCmp m n) = relOf op m n := by
  have h : Signed (lenCmp m n) (m < n) (n = m) (n < m) := by
    unfold lenCmp
    constructor <;> split <;> (try split) <;> omega
  exact h.opCode op

/-! ## One key -/

/-- The comparison of an index is right: on a TEXT that agrees with the key up to a byte 0, the
lengths must be in the relation of the texts. -/
def IdxRight : {t : KType} → Op → Val t → Val t → Prop
  | .text, op, k, x =>
      let s : List UInt8 := k
      let r : List UInt8 := x
      ¬ NulCut s r ∨ relOf op s.length r.length = relOf op s r
  | _, _, _, _ => True

variable {t : KType}

theorem idxRight_iff (op : Op) (k x : Val t) :
    opCode op (btCmp k x) = rel op k x ↔ IdxRight op k x := by
  cases t with
  | int =>
      refine iff_of_true (Eq.trans ?_ (rel_int op k x).symm) trivial
      refine (signed_threeWay (fun a b => ?_) (fun a b => ?_) (show UInt32 from k) x).opCode op
      · rw [UInt32.lt_iff_toNat_lt, UInt32.lt_iff_toNat_lt, ← UInt32.toNat_inj]
        omega
      · rw [UInt32.lt_iff_toNat_lt, UInt32.lt_iff_toNat_lt]
        omega
  | long => exact iff_of_true (long_rel op k x) trivial
  | u128 => exact iff_of_true (u128_rel op k x) trivial
  | text =>
      by_cases h : NulCut k x
      · have hb : opCode op (btCmp k x) = relOf op (List.length k) (List.length x) := by
          rw [← opCode_lenCmp, ← btTextCmp_nulCut k x h]
          rfl
        have hr : rel op k x = relOf op (show List UInt8 from k) x := rel_text op k x
        rw [hb, hr]
        exact ⟨.inr, fun e => e.resolve_left fun hn => hn h⟩
      · refine iff_of_true (Eq.trans ?_ (rel_text op k x).symm) (.inl h)
        exact (btTextCmp_signed k x h).opCode op

theorem btCmp_self (x : Val t) : btCmp x x = 0 := by
  cases t with
  | int => simp [btCmp, threeWay]
  | long => simp [btCmp, threeWay]
  | u128 => simp [btCmp, threeWay]
  | text =>
      have hb : btCmp (t := .text) x x = btTextCmp x x := rfl
      rw [hb]
      by_cases h : NulCut x x
      · rw [btTextCmp_nulCut x x h]
        simp [lenCmp]
      · exact (btTextCmp_signed x x h).zero.2 rfl

/-! ## Predicates -/

/-- An entry of the index is found for the predicate. -/
def hit (f : Flt t) (x : Val t) : Bool :=
  match f with
  | .cmp op k => opCode op (btCmp k x)
  | .between low high => opCode .ge (btCmp low x) && opCode .le (btCmp high x)
  | .inl keys => keys.any fun k => opCode .eq (btCmp k x)

/-- The lookup for a predicate is right on a column with a value. -/
def IndexOk (f : Flt t) (x : Val t) : Prop :=
  match f with
  | .cmp op k => IdxRight op k x
  | .between low high =>
      BothRight (IdxRight .ge low x) (IdxRight .le high x) (rel .ge low x) (rel .le high x)
  | .inl keys => x ∈ keys ∨ ∀ k ∈ keys, IdxRight .eq k x

theorem indexOk_iff (f : Flt t) (x : Val t) : hit f x = f.holds (some x) ↔ IndexOk f x := by
  cases f with
  | cmp op k => exact idxRight_iff op k x
  | between low high =>
      simp only [hit, Flt.holds, IndexOk, bothRight_iff, idxRight_iff]
  | inl keys =>
      simp only [hit, Flt.holds, IndexOk]
      by_cases hx : x ∈ keys
      · have h : keys.any (fun k => opCode .eq (btCmp k x)) = true :=
          List.any_eq_true.2 ⟨x, hx, by simp [opCode, btCmp_self]⟩
        simp [h, hx]
      · simp only [hx, decide_false, false_or, List.any_eq_false, Bool.not_eq_true]
        refine forall₂_congr fun k hk => ?_
        have hxk : x ≠ k := fun e => hx (e ▸ hk)
        rw [← idxRight_iff]
        simp [rel, hxk]

theorem mem_indexOf {ρ : Type} {col : ρ → Cell t} {rows : List ρ} {x : Val t} {r : ρ} :
    (x, r) ∈ indexOf col rows ↔ r ∈ rows ∧ (col r).val = some x := by
  simp only [indexOf, List.mem_filterMap, Option.map_eq_some_iff, Prod.mk.injEq]
  constructor
  · rintro ⟨r', hr, v, hv, rfl, rfl⟩
    exact ⟨hr, hv⟩
  · rintro ⟨hr, hv⟩
    exact ⟨r, hr, x, hv, rfl, rfl⟩

/-- The rows that a lookup returns are those of the entries it finds. -/
theorem mem_indexScan {ρ : Type} {col : ρ → Cell t} {rows l : List ρ} {f : Flt t} {r : ρ}
    (h : indexScan f (indexOf col rows) = some l) :
    r ∈ l ↔ r ∈ rows ∧ ∃ x, (col r).val = some x ∧ hit f x = true := by
  cases f with
  | cmp op k =>
      cases op with
      | eq =>
          cases h
          simp only [List.mem_map, List.mem_filter, Prod.exists, exists_eq_right, mem_indexOf]
          simp only [hit, opCode, and_assoc, exists_and_left]
      | ne | gt | ge | lt | le => cases h
  | between low high =>
      cases h
      simp only [List.mem_map, List.mem_filter, Prod.exists, exists_eq_right, mem_indexOf]
      simp only [hit, opCode, and_assoc, exists_and_left, Bool.decide_and]
  | inl keys =>
      cases h
      simp only [List.mem_flatMap, List.mem_map, List.mem_filter, Prod.exists, exists_eq_right,
        mem_indexOf]
      simp only [hit, opCode, List.any_eq_true]
      constructor
      · rintro ⟨k, hk, x, ⟨hr, hx⟩, he⟩
        exact ⟨hr, x, hx, k, hk, he⟩
      · rintro ⟨hr, x, hx, k, hk, he⟩
        exact ⟨k, hk, x, ⟨hr, hx⟩, he⟩

/-- The predicates for which an index is looked up. -/
def Flt.indexed : Flt t → Bool
  | .cmp op _ => decide (op = .eq)
  | .between _ _ => true
  | .inl _ => true

theorem indexScan_isSome {ρ : Type} (f : Flt t) (ind : List (Val t × ρ)) :
    (indexScan f ind).isSome = f.indexed := by
  cases f with
  | cmp op k => cases op <;> rfl
  | between low high => rfl
  | inl keys => rfl

/-! ## Tables -/

/-- The columns of a row, by number and type. -/
abbrev Fields := Nat → (t : KType) → Cell t

/-- The rows of a table that pass the filters. -/
def selectRows (fs : List (Σ t, Nat × Flt t)) : List Fields → Option (List Fields)
  | [] => some []
  | r :: rs =>
      match passFilts fs r with
      | none => none
      | some b => (selectRows fs rs).map fun l => if b then r :: l else l

/-- The rows that pass, when no comparison fails. -/
theorem selectRows_eq_some (fs : List (Σ t, Nat × Flt t)) : ∀ (rows l : List Fields),
    selectRows fs rows = some l ↔
      (∀ r ∈ rows, (passFilts fs r).isSome = true) ∧
        rows.filter (fun r => decide (passFilts fs r = some true)) = l
  | [], l => by simp [selectRows]
  | r :: rs, l => by
      rw [selectRows]
      cases h : passFilts fs r with
      | none => simp [h]
      | some b =>
          simp only [Option.map_eq_some_iff, selectRows_eq_some fs rs]
          cases b <;> simp [h]

theorem selectRows_iff (fs : List (Σ t, Nat × Flt t)) (p : Fields → Bool) (rows : List Fields) :
    selectRows fs rows = some (rows.filter p) ↔ ∀ r ∈ rows, passFilts fs r = some (p r) := by
  rw [selectRows_eq_some]
  constructor
  · rintro ⟨hs, hf⟩ r hr
    obtain ⟨b, hb⟩ := Option.isSome_iff_exists.1 (hs r hr)
    have hm : r ∈ rows.filter (fun r => decide (passFilts fs r = some true)) ↔
        r ∈ rows.filter p := by rw [hf]
    simp only [List.mem_filter, hr, true_and, hb, decide_eq_true_eq, Option.some_inj] at hm
    rw [hb, Bool.eq_iff_iff.2 hm]
  · intro h
    refine ⟨fun r hr => by rw [h r hr]; rfl, List.filter_congr fun r hr => ?_⟩
    simp [h r hr]

theorem passFilts_one (col : Nat) (f : Flt t) (r : Fields) :
    passFilts [⟨t, col, f⟩] r = passFilt f (r col t) := by
  rw [passFilts]
  rcases passFilt f (r col t) with _ | _ | _ <;> rfl

/-- A filter takes the rows in the relation, and an index that is looked up gives the same set. -/
def Agree (col : Nat) (f : Flt t) (rows : List Fields) : Prop :=
  selectRows [⟨t, col, f⟩] rows = some (rows.filter fun r => f.holds (r col t).val) ∧
    ∀ l, indexScan f (indexOf (fun r => r col t) rows) = some l →
      ∀ r, r ∈ l ↔ r ∈ rows ∧ f.holds (r col t).val = true

/-- An index that is looked up for the predicate gives the rows in the relation. -/
theorem indexScan_iff (col : Nat) (f : Flt t) (rows : List Fields) :
    (∀ l, indexScan f (indexOf (fun r => r col t) rows) = some l →
      ∀ r, r ∈ l ↔ r ∈ rows ∧ f.holds (r col t).val = true) ↔
    (f.indexed = true → ∀ r ∈ rows, ∀ x, (r col t).val = some x → IndexOk f x) := by
  constructor
  · intro h hi r hr x hx
    rw [← indexScan_isSome f (indexOf (fun r => r col t) rows)] at hi
    obtain ⟨l, hl⟩ := Option.isSome_iff_exists.1 hi
    have hm := (h l hl r).symm.trans (mem_indexScan hl)
    rw [← indexOk_iff, Bool.eq_iff_iff]
    simp only [hr, true_and, hx, Option.some_inj, exists_eq_left'] at hm
    exact hm.symm
  · intro h l hl r
    have hi : f.indexed = true := by
      rw [← indexScan_isSome f (indexOf (fun r => r col t) rows), hl]
      rfl
    rw [mem_indexScan hl]
    refine and_congr_right fun hr => ?_
    cases hv : (r col t).val with
    | none => simp [Flt.holds]
    | some x =>
        rw [← (indexOk_iff f x).2 (h hi r hr x hv)]
        simp

/-- A table with one row, 'abc' in a column of TEXT. -/
def abcRow : Fields := fun _ t =>
  match t with
  | .text => ⟨some ([97, 98, 99] : List UInt8), fun _ => 0⟩
  | _ => ⟨none, fun _ => 0⟩

end AlchemyDB.Query
