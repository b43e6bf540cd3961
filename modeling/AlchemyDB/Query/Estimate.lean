/-
# The planner — counting the rows of a range

To choose between indexes the planner counts the rows of a narrow range: it looks up every
number of the range in the index and adds up the sizes of the trees it finds.  Whether the
range is narrow is told by the difference of its bounds, as far as it fits an `int`; and what
a UNIQUE index keeps for a number is no tree.
-/
import AlchemyDB.Index.Model
import Mathlib.Algebra.BigOperators.Group.List.Basic
import Mathlib.Data.List.Nodup

namespace AlchemyDB.Query.Estimate

open Index Assoc

/-- `CNT_INDXD`. -/
def cntIndxd : Nat := 4294967294

/-- `QOP_MAX_NUM_CHECK`. -/
def qopMaxNumCheck : Int := 10

/-- The bits of a number of a type; texts are not counted. -/
def bits : KType → Nat
  | .int => 32
  | .long => 64
  | .u128 => 128
  | .text => 0

/-- `afk`: a number as a key of the column. -/
def afk : KType → Nat → Aobj
  | .int, i => .int (i % 4294967296)
  | .long, i => .long (i % 18446744073709551616)
  | _, i => .u128 (i % 340282366920938463463374607431768211456)

/-- An index on one column: the trees of its numbers, or, if it is UNIQUE, the tree of its numbers. -/
inductive IndBt where
  | single (t : List (Aobj × Nest))
  | uniq (l : Leaf)

/-- `btIndFind`, and `numkeys` of what it finds.  What a UNIQUE index keeps for a number is followed as a
pointer to a tree: `none`. -/
def btIndFind : IndBt → Aobj → Option (Option Nat)
  | .single t, a => some ((get? t a).map Nest.numkeys)
  | .uniq l, a => if l.find (some a) then none else some none

/-- How `numRows4Range` ends. -/
inductive Rows where
  /-- Nothing is looked up. -/
  | guess (cnt : Nat)
  /-- The count, and how often the index was looked up. -/
  | probed (cnt probes : Nat)
  /-- Something that is no tree is read as one. -/
  | stray
  deriving DecidableEq, Repr

/-- The loop, with a counter of 128 bits and a sum of 32; `none` when it was cut off. -/
def probeLoop (find : Nat → Option (Option Nat)) (high : Nat) : Nat → Nat → Nat → Nat → Option Rows
  | 0, _, _, _ => none
  | fuel + 1, i, cnt, n =>
      if i ≤ high then
        match find i with
        | none => some .stray
        | some r =>
            probeLoop find high fuel ((i + 1) % 340282366920938463463374607431768211456)
              ((cnt + r.getD 0) % 4294967296) (n + 1)
      else some (.probed cnt n)

/-- What is left of a number in an `int`. -/
def narrow (d : Nat) : Int :=
  if d % 4294967296 < 2147483648 then d % 4294967296 else (d % 4294967296 : Nat) - 4294967296

/-- `numRows4Range`: of a filter on the column `cmatch` of type `ctype`, with its index. -/
def numRows4Range (fuel : Nat) (cmatch : Int) (virt : Bool) (ctype : KType) (ibtr : IndBt)
    (low high : Nat) : Option Rows :=
  if cmatch < -1 then some (.guess cntIndxd)
  else if ctype = .text then some (.guess cntIndxd)
  else
    let range := narrow ((high + 2 ^ bits ctype - low) % 2 ^ bits ctype)
    if virt then some (.guess (range % 4294967296).toNat)
    else if range > qopMaxNumCheck then some (.guess cntIndxd)
    else probeLoop (fun i => btIndFind ibtr (afk ctype i)) high fuel low 0 0

/-! ## What should be counted -/

/-- A key of the column in the range. -/
def inRange (ctype : KType) (low high : Nat) (a : Aobj) : Bool :=
  match ctype, a with
  | .int, .int v => decide (low ≤ v ∧ v ≤ high)
  | .long, .long v => decide (low ≤ v ∧ v ≤ high)
  | .u128, .u128 v => decide (low ≤ v ∧ v ≤ high)
  | _, _ => false

/-- The entries of the index for the numbers of the range. -/
def entriesIn (ctype : KType) (low high : Nat) : IndBt → Nat
  | .single t => ((t.filter fun e => inRange ctype low high e.1).map fun e => e.2.numkeys).sum
  | .uniq l => (l.ents.filter fun e => inRange ctype low high e.1).length

/-- Every number has one tree. -/
def Distinct : IndBt → Prop
  | .single t => (t.map Prod.fst).Nodup
  | .uniq _ => True

instance : ∀ ibtr, Decidable (Distinct ibtr)
  | .single t => inferInstanceAs (Decidable (t.map Prod.fst).Nodup)
  | .uniq _ => inferInstanceAs (Decidable True)

/-- The count ends after few probes, and is right if there were any. -/
def Counted (cmatch : Int) (virt : Bool) (ctype : KType) (ibtr : IndBt) (low high : Nat) : Prop :=
  ∃ fuel rows, numRows4Range fuel cmatch virt ctype ibtr low high = some rows ∧ rows ≠ .stray ∧
    ∀ cnt n, rows = .probed cnt n → n ≤ 11 ∧ cnt = entriesIn ctype low high ibtr

/-! ## The loop -/

variable {find : Nat → Option (Option Nat)} {high : Nat}

/-- What the loop adds up. -/
def found (find : Nat → Option (Option Nat)) (low high : Nat) : Nat :=
  ((List.range' low (high + 1 - low)).map fun i => ((find i).bind id).getD 0).sum

theorem found_of_lt {low : Nat} (h : high < low) : found find low high = 0 := by
  rw [found, show high + 1 - low = 0 by omega]
  rfl

theorem found_step {low : Nat} (h : low ≤ high) :
    found find low high = ((find low).bind id).getD 0 + found find (low + 1) high := by
  rw [found, show high + 1 - low = high + 1 - (low + 1) + 1 by omega, List.range'_succ,
    List.map_cons, List.sum_cons]
  rfl

/-- Where the counter does not run over, the loop goes through the range, as long as it finds trees. -/
theorem probeLoop_some (hhigh : high + 1 < 340282366920938463463374607431768211456) :
    ∀ {fuel i cnt n : Nat} {rows : Rows}, probeLoop find high fuel i cnt n = some rows →
      i ≤ high + 1 → cnt < 4294967296 →
      ((∃ j, i ≤ j ∧ j ≤ high ∧ find j = none) ∧ rows = .stray) ∨
        ((∀ j, i ≤ j → j ≤ high → find j ≠ none) ∧
          rows = .probed ((cnt + found find i high) % 4294967296) (n + (high + 1 - i)))
  | fuel + 1, i, cnt, n, rows, h, hi, hcnt => by
      rw [probeLoop] at h
      split at h
      · rename_i hle
        split at h
        · rename_i hf
          exact .inl ⟨⟨i, le_rfl, hle, hf⟩, (Option.some.inj h).symm⟩
        · rename_i r hf
          rw [Nat.mod_eq_of_lt (by omega)] at h
          rcases probeLoop_some hhigh h (by omega) (Nat.mod_lt _ (by decide)) with
            ⟨⟨j, hij, hj, hn⟩, hr⟩ | ⟨hall, hr⟩
          · exact .inl ⟨⟨j, by omega, hj, hn⟩, hr⟩
          · refine .inr ⟨fun j hij hj => ?_, ?_⟩
            · rcases Nat.eq_or_lt_of_le hij with rfl | hlt
              · rw [hf]
                exact Option.some_ne_none r
              · exact hall j hlt hj
            · rw [hr, found_step hle, hf, Nat.mod_add_mod]
              simp only [Option.bind_some, id_eq, Rows.probed.injEq]
              exact ⟨by rw [Nat.add_assoc], by omega⟩
      · rename_i hgt
        refine .inr ⟨fun j hij hj => by omega, ?_⟩
        rw [found_of_lt (by omega), Nat.add_zero, Nat.mod_eq_of_lt hcnt,
          show high + 1 - i = 0 by omega]
        exact (Option.some.inj h).symm

theorem probeLoop_ends (hhigh : high + 1 < 340282366920938463463374607431768211456) :
    ∀ {fuel i cnt n : Nat}, i ≤ high + 1 → high + 1 - i < fuel →
      ∃ rows, probeLoop find high fuel i cnt n = some rows
  | fuel + 1, i, cnt, n, hi, hfuel => by
      rw [probeLoop]
      split
      · split
        · exact ⟨_, rfl⟩
        · rw [Nat.mod_eq_of_lt (a := i + 1) (by omega)]
          exact probeLoop_ends hhigh (by omega) (by omega)
      · exact ⟨_, rfl⟩

/-- Up to the largest number of 128 bits the loop does not come to an end by itself. -/
theorem probeLoop_over (hhigh : high = 340282366920938463463374607431768211455) :
    ∀ {fuel i cnt n : Nat} {rows : Rows}, probeLoop find high fuel i cnt n = some rows →
      i ≤ high → rows = .stray
  | fuel + 1, i, cnt, n, rows, h, hi => by
      rw [probeLoop, if_pos hi] at h
      split at h
      · exact (Option.some.inj h).symm
      · refine probeLoop_over hhigh h ?_
        rw [hhigh]
        exact Nat.le_of_lt_succ (Nat.mod_lt _ (by decide))

/-! ## The entries of a range -/

theorem inRange_of_lt {ctype : KType} {low high : Nat} (h : high < low) (a : Aobj) :
    inRange ctype low high a = false := by
  cases ctype <;> cases a <;> simp only [inRange, decide_eq_false_iff_not]
  all_goals omega

/-- The range is its lowest number and the rest. -/
theorem inRange_step {ctype : KType} (hnum : ctype ≠ .text) {low high : Nat} (hle : low ≤ high)
    (hlow : low < 2 ^ bits ctype) (a : Aobj) :
    inRange ctype low high a = (decide (a = afk ctype low) || inRange ctype (low + 1) high a) := by
  rw [Bool.eq_iff_iff]
  cases ctype
  case text => exact absurd rfl hnum
  all_goals
    simp only [bits] at hlow
    norm_num at hlow
    cases a <;>
      simp only [inRange, afk, Nat.mod_eq_of_lt hlow, Bool.or_eq_true, decide_eq_true_eq,
        Aobj.int.injEq, Aobj.long.injEq, Aobj.u128.injEq, reduceCtorEq, or_false, Bool.false_eq_true]
    omega

/-- The lowest number is not in the rest. -/
theorem inRange_above {ctype : KType} {low high : Nat} (hlow : low < 2 ^ bits ctype) :
    inRange ctype (low + 1) high (afk ctype low) = false := by
  cases ctype <;> simp only [bits] at hlow <;> norm_num at hlow <;>
    simp only [inRange, afk] <;> rw [decide_eq_false_iff_not] <;> omega

/-- The sum over a list of those that meet one of two conditions, of which none meets both. -/
theorem sum_filter_or {α : Type} {q r : α → Bool} (w : α → Nat)
    (hdis : ∀ a, q a = true → r a = false) :
    ∀ l : List α, ((l.filter fun a => q a || r a).map w).sum =
      ((l.filter q).map w).sum + ((l.filter r).map w).sum
  | [] => rfl
  | a :: l => by
      have ih := sum_filter_or w hdis l
      cases hq : q a with
      | true =>
          rw [List.filter_cons_of_pos (by simp [hq]), List.filter_cons_of_pos (by simp [hq]),
            List.filter_cons_of_neg (by simp [hdis a hq])]
          simp only [List.map_cons, List.sum_cons]
          omega
      | false =>
          rw [List.filter_cons_of_neg (l := l) (p := q) (by simp [hq])]
          cases hr : r a with
          | true =>
              rw [List.filter_cons_of_pos (by simp [hr]), List.filter_cons_of_pos (by simp [hr])]
              simp only [List.map_cons, List.sum_cons]
              omega
          | false =>
              rw [List.filter_cons_of_neg (by simp [hq, hr]),
                List.filter_cons_of_neg (by simp [hr])]
              exact ih

/-- What is found for a key is the entry of that key. -/
theorem sum_filter_key : ∀ {t : List (Aobj × Nest)}, (t.map Prod.fst).Nodup → ∀ k : Aobj,
    ((t.filter fun e => decide (e.1 = k)).map fun e => e.2.numkeys).sum =
      ((get? t k).map Nest.numkeys).getD 0
  | [], _, _ => rfl
  | e :: t, hnd, k => by
      obtain ⟨hout, hnd'⟩ := List.nodup_cons.mp hnd
      rw [get?_cons]
      by_cases he : e.1 = k
      · have hrest : (t.filter fun e => decide (e.1 = k)) = [] := by
          rw [List.filter_eq_nil_iff]
          intro x hx hk
          rw [decide_eq_true_eq] at hk
          exact hout (List.mem_map.mpr ⟨x, hx, hk.trans he.symm⟩)
        rw [if_pos he, List.filter_cons_of_pos (by simpa using he), hrest]
        simp
      · rw [if_neg he, List.filter_cons_of_neg (by simpa using he)]
        exact sum_filter_key hnd' k

/-- Number by number, the trees of the range are found. -/
theorem found_single {ctype : KType} (hnum : ctype ≠ .text) {t : List (Aobj × Nest)}
    (hnd : (t.map Prod.fst).Nodup) {low high : Nat} (hhigh : high < 2 ^ bits ctype) :
    found (fun i => btIndFind (.single t) (afk ctype i)) low high =
      entriesIn ctype low high (.single t) := by
  induction hn : high + 1 - low generalizing low with
  | zero =>
      rw [found_of_lt (by omega)]
      simp only [entriesIn, inRange_of_lt (show high < low by omega), List.filter_false,
        List.map_nil, List.sum_nil]
  | succ n ih =>
      have hlow : low < 2 ^ bits ctype := by omega
      have hsplit : entriesIn ctype low high (.single t) =
          ((t.filter fun e => decide (e.1 = afk ctype low)).map fun e => e.2.numkeys).sum +
            entriesIn ctype (low + 1) high (.single t) := by
        simp only [entriesIn, inRange_step hnum (show low ≤ high by omega) hlow]
        refine sum_filter_or (q := fun e : Aobj × Nest => decide (e.1 = afk ctype low))
          (r := fun e => inRange ctype (low + 1) high e.1) (fun e => e.2.numkeys) ?_ t
        intro e he
        rw [decide_eq_true_eq] at he
        rw [he]
        exact inRange_above hlow
      rw [found_step (by omega), ih (by omega), hsplit, sum_filter_key hnd]
      rfl

/-- What a UNIQUE index does not keep counts nothing. -/
theorem found_uniq {ctype : KType} {l : Leaf} {low high : Nat} :
    found (fun i => btIndFind (.uniq l) (afk ctype i)) low high = 0 := by
  rw [found]
  refine List.sum_eq_zero fun x hx => ?_
  obtain ⟨i, _, rfl⟩ := List.mem_map.mp hx
  rw [btIndFind]
  cases l.find (some (afk ctype i)) <;> rfl

/-! ## When the count ends, and is right -/

/-- The bounds are apart by what is told to be wide. -/
def Wide (low high : Nat) : Prop :=
  10 < (high - low) % 4294967296 ∧ (high - low) % 4294967296 < 2147483648

/-- The entries of the range can be counted: they fit the sum, and no number of the range is in an
index that is UNIQUE. -/
def Countable (ctype : KType) (low high : Nat) : IndBt → Prop
  | .single t => entriesIn ctype low high (.single t) < 4294967296
  | .uniq l =>
      entriesIn ctype low high (.uniq l) = 0 ∧
        ∀ i, low ≤ i → i ≤ high → l.find (some (afk ctype i)) = false

theorem narrow_wide {low high : Nat} :
    narrow (high - low) > qopMaxNumCheck ↔ Wide low high := by
  unfold narrow qopMaxNumCheck Wide
  split <;> omega

/-- The loop goes through a narrow range and is right if the range can be counted. -/
theorem probe_narrow {ctype : KType} {ibtr : IndBt} {low high : Nat} (hnum : ctype ≠ .text)
    (hle : low ≤ high) (hhigh : high < 2 ^ bits ctype) (hd : Distinct ibtr) :
    (∃ fuel rows, probeLoop (fun i => btIndFind ibtr (afk ctype i)) high fuel low 0 0 = some rows ∧
      rows ≠ .stray ∧
        ∀ cnt n, rows = .probed cnt n → n ≤ 11 ∧ cnt = entriesIn ctype low high ibtr) ↔
      high - low ≤ 10 ∧ high ≠ 340282366920938463463374607431768211455 ∧
        Countable ctype low high ibtr := by
  have hmax : high ≤ 340282366920938463463374607431768211455 := by
    have h128 : 2 ^ bits ctype ≤ 2 ^ 128 :=
      Nat.pow_le_pow_right (by decide) (by cases ctype <;> decide)
    norm_num at h128
    omega
  constructor
  · rintro ⟨fuel, rows, hrun, hok, hcnt⟩
    have hne : high ≠ 340282366920938463463374607431768211455 := fun h =>
      hok (probeLoop_over h hrun hle)
    rcases probeLoop_some (by omega) hrun (by omega) (by decide) with ⟨_, hr⟩ | ⟨hall, hr⟩
    · exact absurd hr hok
    · obtain ⟨hn, hc⟩ := hcnt _ _ hr
      refine ⟨by omega, hne, ?_⟩
      cases ibtr with
      | single t =>
          rw [Countable, ← hc]
          exact Nat.mod_lt _ (by decide)
      | uniq l =>
          rw [found_uniq] at hc
          refine ⟨hc.symm, fun i hi hih => ?_⟩
          by_contra hfind
          exact hall i hi hih (by rw [btIndFind, if_pos (by simpa using hfind)])
  · rintro ⟨hw, hne, hc⟩
    obtain ⟨rows, hrun⟩ : ∃ rows, probeLoop (fun i => btIndFind ibtr (afk ctype i)) high
        (high + 2 - low) low 0 0 = some rows :=
      probeLoop_ends (by omega) (by omega) (by omega)
    refine ⟨_, rows, hrun, ?_⟩
    rcases probeLoop_some (by omega) hrun (by omega) (by decide) with
      ⟨⟨j, hj, hjh, hf⟩, _⟩ | ⟨_, hr⟩
    · cases ibtr with
      | single t => exact absurd hf (Option.some_ne_none _)
      | uniq l =>
          rw [btIndFind, hc.2 j hj hjh] at hf
          exact absurd hf (Option.some_ne_none _)
    · refine ⟨by rw [hr]; exact Rows.noConfusion, fun cnt n h => ?_⟩
      obtain ⟨rfl, rfl⟩ := Rows.probed.inj (hr.symm.trans h)
      refine ⟨by omega, ?_⟩
      cases ibtr with
      | single t => rw [Nat.zero_add, found_single hnum hd hhigh, Nat.mod_eq_of_lt hc]
      | uniq l => rw [Nat.zero_add, found_uniq, hc.1]

/-- The count of a range ends after at most eleven probes with the entries of the range if and only if
the range is not probed, being told to be wide, or it has at most eleven numbers, does not end in the
largest of 128 bits, and can be counted. -/
theorem numRows4Range_counted (cmatch : Int) (virt : Bool) {ctype : KType} {ibtr : IndBt}
    {low high : Nat} (hnum : ctype ≠ .text) (hle : low ≤ high) (hhigh : high < 2 ^ bits ctype)
    (hd : Distinct ibtr) :
    Counted cmatch virt ctype ibtr low high ↔
      cmatch < -1 ∨ virt = true ∨ Wide low high ∨
        (high - low ≤ 10 ∧ high ≠ 340282366920938463463374607431768211455 ∧
          Countable ctype low high ibtr) := by
  have hguess : ∀ c, (∃ fuel rows, (fun _ : Nat => some (Rows.guess c)) fuel = some rows ∧
      rows ≠ .stray ∧ ∀ cnt n, rows = .probed cnt n →
        n ≤ 11 ∧ cnt = entriesIn ctype low high ibtr) := fun c =>
    ⟨0, _, rfl, Rows.noConfusion, fun _ _ h => Rows.noConfusion h⟩
  have hdiff : (high + 2 ^ bits ctype - low) % 2 ^ bits ctype = high - low := by
    rw [show high + 2 ^ bits ctype - low = high - low + 2 ^ bits ctype by omega,
      Nat.add_mod_right, Nat.mod_eq_of_lt (by omega)]
  unfold Counted numRows4Range
  simp only [hdiff]
  by_cases hcm : cmatch < -1
  · simp only [if_pos hcm]
    exact iff_of_true (hguess _) (.inl hcm)
  · simp only [if_neg hcm, if_neg hnum]
    cases virt with
    | true => exact iff_of_true (hguess _) (.inr (.inl rfl))
    | false =>
        simp only [Bool.false_eq_true, if_false, hcm, false_or]
        by_cases hw : Wide low high
        · simp only [if_pos (narrow_wide.mpr hw)]
          exact iff_of_true (hguess _) (.inl hw)
        · simp only [if_neg (mt narrow_wide.mp hw), hw, false_or]
          exact probe_narrow hnum hle hhigh hd

/-- The index of a column, for a range of three numbers. -/
theorem numRows4Range_counted_four :
    Counted 1 false .int (.single [(.int 4, .leaf ⟨.inode .int, [(.int 1, .int 1), (.int 2, .int 2)]⟩)])
      3 5 :=
  (numRows4Range_counted 1 false (by decide) (by decide) (by decide) (by decide)).mpr
    (.inr (.inr (.inr ⟨by decide, by decide, show 2 < 4294967296 by decide⟩)))

/-- A range of 2147483649 numbers is not told to be wide: each of them is looked up. -/
theorem numRows4Range_wide : ¬ ∀ low high : Nat, low ≤ high → high < 2 ^ bits .int →
    Counted 1 false .int (.single []) low high := by
  intro h
  rcases (numRows4Range_counted 1 false (by decide) (by decide) (by decide) (by decide)).mp
    (h 0 2147483648 (by decide) (by decide)) with hc | hv | hw | hn
  · exact absurd hc (by decide)
  · exact absurd hv (by decide)
  · exact absurd hw.2 (by decide)
  · exact absurd hn.1 (by decide)

end AlchemyDB.Query.Estimate
