/-
# ORDER BY — the comparison of sorted rows

A row that is to be sorted takes a key for each ORDER BY column along: a word, which is the number
itself or the address of a 128 bit number or of a text.  Each type has its comparison, in either
direction, and `genOBsort` asks them column by column.  That of INT columns returns the difference
of the numbers as an `int`: numbers that are half the range or more apart are told the wrong way
around.
-/
import AlchemyDB.Lib.Qsort
import AlchemyDB.Index.Undo

namespace AlchemyDB.Query.Sorting

open Index Qsort
open Std (TransCmp TransOrd)

/-- An ORDER BY column: `obc`, `OB_ctype` and `OB_asc`. -/
structure Ocol where
  cmatch : Nat
  ctype : KType
  asc : Bool
  deriving DecidableEq, Repr

/-- A key: a word, and what is found where it points to. -/
structure Key where
  word : Nat
  x : Nat
  s : List Char
  deriving DecidableEq, Repr

/-- `obsl_t`, without the updates of the LRU and LFU columns. -/
structure Obsl where
  row : Row
  keys : List Key
  apk : Aobj
  deriving DecidableEq, Repr

/-- What is left of a difference in an `int`. -/
def narrow (d : Int) : Int := (d + 2147483648) % 4294967296 - 2147483648

/-- `strcmp`: the difference of the first characters that differ, where a text ends in a NUL. -/
def strcmp : List Char → List Char → Int
  | [], [] => 0
  | [], d :: _ => -d.toNat
  | c :: _, [] => c.toNat
  | c :: s, d :: t =>
      if c = d then if c.toNat = 0 then 0 else strcmp s t else (c.toNat : Int) - d.toNat

/-! ## The comparisons -/

def intOrderBySort (a b : Key) : Int := narrow (a.word - b.word)

def intOrderByRevSort (a b : Key) : Int := narrow (b.word - a.word)

def ulongOrderBySort (a b : Key) : Int :=
  if a.word = b.word then 0 else if a.word > b.word then 1 else -1

def ulongOrderByRevSort (a b : Key) : Int :=
  if a.word = b.word then 0 else if a.word > b.word then -1 else 1

def u128OrderBySort (a b : Key) : Int := if a.x = b.x then 0 else if a.x > b.x then 1 else -1

def u128OrderByRevSort (a b : Key) : Int := if a.x = b.x then 0 else if a.x > b.x then -1 else 1

/-- `strcmp` must not be given a null pointer. -/
def stringOrderBySort (a b : Key) : Int :=
  if a.word ≠ 0 ∧ b.word ≠ 0 then strcmp a.s b.s else narrow (a.word - b.word)

def stringOrderByRevSort (a b : Key) : Int :=
  if a.word ≠ 0 ∧ b.word ≠ 0 then strcmp b.s a.s else narrow (b.word - a.word)

/-- `OB_cmp`, whose slots are the types twice. -/
def obCmp : KType → Bool → Key → Key → Int
  | .int, false => intOrderByRevSort
  | .int, true => intOrderBySort
  | .long, false => ulongOrderByRevSort
  | .long, true => ulongOrderBySort
  | .text, false => stringOrderByRevSort
  | .text, true => stringOrderBySort
  | .u128, false => u128OrderByRevSort
  | .u128, true => u128OrderBySort

/-- `genOBsort`: the first result that is not zero. -/
def genOBsort : List Ocol → List Key → List Key → Int
  | c :: cs, a :: as, b :: bs =>
      let ret := obCmp c.ctype c.asc a b
      if ret ≠ 0 then ret else genOBsort cs as bs
  | _, _, _ => 0

/-! ## The vector -/

/-- What a row has in an ORDER BY column; all fields of an empty value are zero. -/
def value (c : Ocol) (r : Row) : Aobj := Aobj.field c.ctype (getCol r c.cmatch)

/-- `assignObKey`, where `p` is what `malloc` returns. -/
def assignObKey (c : Ocol) (p : Nat) (r : Row) : Key :=
  match value c r with
  | .int i => ⟨i, 0, []⟩
  | .long l => ⟨l, 0, []⟩
  | .u128 x => ⟨p, x, []⟩
  | .text s => ⟨p, 0, s⟩

/-- The keys of a row, each with an address of its own. -/
def obKeys (malloc : Nat → Nat) (r : Row) : List Ocol → List Key
  | [] => []
  | c :: cs => assignObKey c (malloc cs.length) r :: obKeys malloc r cs

/-- `addRow2OBList`. -/
def addRow2OBList (malloc : Nat → Nat) (cols : List Ocol) (r : Row) : Obsl :=
  ⟨r, obKeys malloc r cols, r.pk⟩

/-- The list of the rows that are found. -/
def obList (malloc : Nat → Nat → Nat) (cols : List Ocol) : List Row → List Obsl
  | [] => []
  | r :: rs => addRow2OBList (malloc rs.length) cols r :: obList malloc cols rs

/-- `sortOB2Vector`. -/
def sortOB2Vector (qsort : (Obsl → Obsl → Int) → List Obsl → List Obsl) (cols : List Ocol)
    (ll : List Obsl) : List Obsl :=
  qsort (fun a b => genOBsort cols a.keys b.keys) ll

/-! ## What the query asks for -/

/-- The order of the values is that of the trees. -/
instance : Ord Aobj := ⟨fun x y => compareOfLessAndEq x y⟩

/-- The order of a column: that of its values, or its opposite. -/
def order (c : Ocol) (a b : Obsl) : Ordering :=
  if c.asc then compareOn (fun o : Obsl => value c o.row) a b
  else compareOn (fun o : Obsl => value c o.row) b a

/-- The order of the query. -/
def asked (cols : List Ocol) : Obsl → Obsl → Ordering := lex (cols.map order)

/-- The comparison is an order, that of the query, and the vector is sorted by it. -/
structure Sorts (qsort : (Obsl → Obsl → Int) → List Obsl → List Obsl) (cols : List Ocol)
    (ll : List Obsl) : Prop where
  preorder : Consistent (fun a b => genOBsort cols a.keys b.keys) ll
  agrees : Agrees (fun a b => genOBsort cols a.keys b.keys) (asked cols) ll
  perm : (sortOB2Vector qsort cols ll).Perm ll
  sorted : (sortOB2Vector qsort cols ll).Pairwise fun a b => (asked cols a b).isLE = true

/-- Two values of an INT column that are half the range or more apart. -/
def Far : Aobj → Aobj → Prop
  | .int i, .int j => i + 2147483648 ≤ j ∨ j + 2147483648 ≤ i
  | _, _ => False

/-- In the first ORDER BY column in which they differ two rows are not far apart. -/
def Close : List Ocol → Row → Row → Prop
  | [], _, _ => True
  | c :: cs, r, s => ¬ Far (value c r) (value c s) ∧ (value c r = value c s → Close cs r s)

/-- The value fits its type; texts have no NUL. -/
def Fits : Aobj → Prop
  | .int i => i < 4294967296
  | .long l => l < 18446744073709551616
  | .u128 x => x < 340282366920938463463374607431768211456
  | .text s => ∀ c ∈ s, c.toNat ≠ 0

/-! ## One column -/

theorem sign_eq {r : Int} {a b : Aobj} (hlt : r < 0 ↔ a < b) (heq : r = 0 ↔ a = b) :
    compare r 0 = compare a b := by
  show compareOfLessAndEq r 0 = compareOfLessAndEq a b
  unfold compareOfLessAndEq
  simp only [hlt, heq]

theorem threeWay_sign (i j : Nat) :
    ((if i = j then 0 else if i > j then 1 else -1 : Int) < 0 ↔ i < j) ∧
      ((if i = j then 0 else if i > j then 1 else -1 : Int) = 0 ↔ i = j) := by
  rcases Nat.lt_trichotomy i j with h | rfl | h
  · rw [if_neg (by omega), if_neg (by omega)]
    omega
  · rw [if_pos rfl]
    omega
  · rw [if_neg (by omega), if_pos h]
    omega

theorem strcmp_sign : ∀ {s t : List Char}, (∀ c ∈ s, c.toNat ≠ 0) → (∀ c ∈ t, c.toNat ≠ 0) →
    (strcmp s t < 0 ↔ s < t) ∧ (strcmp s t = 0 ↔ s = t)
  | [], [], _, _ => by simp [strcmp]
  | [], d :: t, _, ht => by
      have hd := ht d List.mem_cons_self
      simp only [strcmp, List.nil_lt_cons, iff_true, reduceCtorEq, iff_false]
      omega
  | c :: s, [], hs, _ => by
      have hc := hs c List.mem_cons_self
      simp only [strcmp, List.not_lt_nil, iff_false, reduceCtorEq]
      omega
  | c :: s, d :: t, hs, ht => by
      have ih := strcmp_sign (fun e he => hs e (List.mem_cons_of_mem _ he))
        fun e he => ht e (List.mem_cons_of_mem _ he)
      rw [strcmp, List.cons_lt_cons_iff, List.cons.injEq]
      by_cases hcd : c = d
      · have hirr : ¬ d < d := Char.lt_irrefl d
        rw [if_pos hcd, if_neg (hs c List.mem_cons_self)]
        simp only [hcd, hirr, true_and, false_or]
        exact ih
      · have hne : c.toNat ≠ d.toNat := fun h => hcd (Char.toNat_inj.mp h)
        have hlt : c < d ↔ c.toNat < d.toNat := Iff.rfl
        rw [if_neg hcd]
        simp only [hcd, hlt, false_and, or_false, iff_false]
        omega

/-- The comparison of two keys, in ascending direction, has the sign of the order of their values. -/
theorem asc_sign {c : Ocol} {p q : Nat} {r s : Row} (hp : p ≠ 0) (hq : q ≠ 0)
    (hr : Fits (value c r)) (hs : Fits (value c s)) (hn : ¬ Far (value c r) (value c s)) :
    compare (obCmp c.ctype true (assignObKey c p r) (assignObKey c q s)) 0 =
      compare (value c r) (value c s) := by
  have ha : (value c r).ktype = c.ctype := Aobj.field_ktype _ _
  have hb : (value c s).ktype = c.ctype := Aobj.field_ktype _ _
  unfold assignObKey
  generalize value c r = a at *
  generalize value c s = b at *
  rw [← ha] at hb ⊢
  cases a <;> cases b <;> cases hb
  case int.int i j =>
    simp only [Far, not_or, not_le] at hn
    refine sign_eq ?_ ?_ <;>
      simp only [Aobj.ktype, obCmp, intOrderBySort, narrow, Aobj.lt_def, Aobj.lt,
        decide_eq_true_eq, Aobj.int.injEq]
    · omega
    · omega
  case long.long i j =>
    obtain ⟨hlt, heq⟩ := threeWay_sign i j
    refine sign_eq ?_ ?_ <;>
      simp only [Aobj.ktype, obCmp, ulongOrderBySort, Aobj.lt_def, Aobj.lt, decide_eq_true_eq,
        Aobj.long.injEq]
    · exact hlt
    · exact heq
  case u128.u128 i j =>
    obtain ⟨hlt, heq⟩ := threeWay_sign i j
    refine sign_eq ?_ ?_ <;>
      simp only [Aobj.ktype, obCmp, u128OrderBySort, Aobj.lt_def, Aobj.lt, decide_eq_true_eq,
        Aobj.u128.injEq]
    · exact hlt
    · exact heq
  case text.text s t =>
    obtain ⟨hlt, heq⟩ := strcmp_sign hr hs
    refine sign_eq ?_ ?_ <;>
      simp only [Aobj.ktype, obCmp, stringOrderBySort, if_pos (And.intro hp hq), Aobj.lt_def,
        Aobj.lt, decide_eq_true_eq, Aobj.text.injEq]
    · exact hlt
    · exact heq

/-- Descending is ascending with the keys exchanged. -/
theorem obCmp_rev (t : KType) (a b : Key) : obCmp t false a b = obCmp t true b a := by
  cases t
  case int => rfl
  case long =>
    simp only [obCmp, ulongOrderByRevSort, ulongOrderBySort]
    split_ifs <;> omega
  case u128 =>
    simp only [obCmp, u128OrderByRevSort, u128OrderBySort]
    split_ifs <;> omega
  case text =>
    simp only [obCmp, stringOrderByRevSort, stringOrderBySort, and_comm]

theorem far_symm {a b : Aobj} : Far a b → Far b a := by
  cases a <;> cases b <;> simp only [Far, imp_self]
  exact Or.symm

/-- In either direction, the comparison has the sign of the order of the column. -/
theorem obCmp_sign {c : Ocol} {p q : Nat} {a b : Obsl} (hp : p ≠ 0) (hq : q ≠ 0)
    (ha : Fits (value c a.row)) (hb : Fits (value c b.row))
    (hn : ¬ Far (value c a.row) (value c b.row)) :
    compare (obCmp c.ctype c.asc (assignObKey c p a.row) (assignObKey c q b.row)) 0 =
      order c a b := by
  unfold order
  cases c.asc with
  | true => exact asc_sign hp hq ha hb hn
  | false =>
      rw [obCmp_rev]
      exact asc_sign hq hp hb ha (mt far_symm hn)

/-- Of two numbers far apart the larger one is found to be smaller. -/
theorem intOrderBySort_far {i j : Nat} {x y : Nat} {s t : List Char} (hi : i < 4294967296)
    (h : j + 2147483648 ≤ i) : intOrderBySort ⟨i, x, s⟩ ⟨j, y, t⟩ < 0 := by
  simp only [intOrderBySort, narrow]
  omega

theorem compare_eq_iff (x y : Aobj) : compare x y = .eq ↔ x = y := by
  show compareOfLessAndEq x y = .eq ↔ x = y
  unfold compareOfLessAndEq
  constructor
  · intro h
    split_ifs at h with hlt heq
    exact heq
  · rintro rfl
    rw [if_neg (Aobj.lt_irrefl x), if_pos rfl]

instance : TransOrd Aobj :=
  .compareOfLessAndEq_of_irrefl_of_trans_of_antisymm Aobj.lt_irrefl (Aobj.lt_trans _ _ _)
    (Aobj.eq_of_not_lt _ _)

theorem order_eq_iff (c : Ocol) (a b : Obsl) :
    order c a b = .eq ↔ value c a.row = value c b.row := by
  unfold order compareOn
  split
  · exact compare_eq_iff _ _
  · rw [compare_eq_iff]
    exact eq_comm

theorem order_trans (c : Ocol) : TransCmp (order c) := by
  have h : TransCmp (compareOn fun o : Obsl => value c o.row) := inferInstance
  unfold order
  cases c.asc with
  | true => exact h
  | false =>
      show TransCmp fun a b => compareOn (fun o : Obsl => value c o.row) b a
      exact TransCmp.opposite

theorem asked_trans (cols : List Ocol) : TransCmp (asked cols) := by
  refine lex_trans fun o ho => ?_
  obtain ⟨c, _, rfl⟩ := List.mem_map.mp ho
  exact order_trans c

/-! ## All columns -/

variable {m n : Nat → Nat} {a b : Obsl}

/-- A result that is not zero decides, as the order of its column does. -/
theorem asked_of_ne {c : Ocol} {cs : List Ocol} {ret : Int} (h : compare ret 0 = order c a b)
    (hret : ret ≠ 0) : asked (c :: cs) a b = compare ret 0 := by
  rw [asked, List.map_cons, lex_cons, ← h]
  rcases lt_or_gt_of_ne hret with hlt | hgt
  · rw [compare_lt_iff_lt.mpr hlt, Ordering.lt_then]
  · rw [compare_gt_iff_gt.mpr hgt, Ordering.gt_then]

/-- Where rows are close, the comparison of their keys has the sign of the order of the query. -/
theorem genOBsort_sign (hm : ∀ k, m k ≠ 0) (hn : ∀ k, n k ≠ 0) :
    ∀ {cols : List Ocol}, (∀ c ∈ cols, Fits (value c a.row)) →
      (∀ c ∈ cols, Fits (value c b.row)) → Close cols a.row b.row →
      compare (genOBsort cols (obKeys m a.row cols) (obKeys n b.row cols)) 0 = asked cols a b
  | [], _, _, _ => rfl
  | c :: cs, ha, hb, hc => by
      have hsign := obCmp_sign (hm cs.length) (hn cs.length) (ha c List.mem_cons_self)
        (hb c List.mem_cons_self) hc.1
      simp only [obKeys, genOBsort]
      split_ifs with hret
      · exact (asked_of_ne hsign hret).symm
      · have heq : order c a b = .eq := by
          rw [← hsign, compare_eq_iff_eq]
          exact not_not.mp hret
        rw [asked, List.map_cons, lex_cons, heq, Ordering.eq_then]
        exact genOBsort_sign hm hn (fun d hd => ha d (List.mem_cons_of_mem _ hd))
          (fun d hd => hb d (List.mem_cons_of_mem _ hd)) (hc.2 ((order_eq_iff c a b).mp heq))

/-- Rows far apart in a column: one way around the comparison tells the larger one to be smaller. -/
theorem obCmp_far {c : Ocol} {p q : Nat} (ha : Fits (value c a.row)) (hb : Fits (value c b.row))
    (hfar : Far (value c a.row) (value c b.row)) :
    (obCmp c.ctype c.asc (assignObKey c p a.row) (assignObKey c q b.row) < 0 ∧
        order c a b = .gt) ∨
      (obCmp c.ctype c.asc (assignObKey c q b.row) (assignObKey c p a.row) < 0 ∧
        order c b a = .gt) := by
  have ht : (value c a.row).ktype = c.ctype := Aobj.field_ktype _ _
  have hgt : ∀ {i j : Nat}, j < i → compare (Aobj.int i) (Aobj.int j) = .gt := fun {i j} h => by
    rw [← sign_eq (r := 1) (by simp [Aobj.lt_def, Aobj.lt]; omega) (by simp; omega)]
    rfl
  simp only [order, compareOn, assignObKey]
  generalize value c a.row = x at *
  generalize value c b.row = y at *
  cases x <;> cases y <;> simp only [Far] at hfar
  rename_i i j
  simp only [Fits] at ha hb
  rw [← ht]
  simp only [Aobj.ktype]
  cases c.asc with
  | true =>
      simp only [if_true, obCmp]
      rcases hfar with h | h
      · exact .inr ⟨intOrderBySort_far hb h, hgt (by omega)⟩
      · exact .inl ⟨intOrderBySort_far ha h, hgt (by omega)⟩
  | false =>
      simp only [Bool.false_eq_true, if_false, obCmp_rev .int]
      rcases hfar with h | h
      · exact .inl ⟨intOrderBySort_far hb h, hgt (by omega)⟩
      · exact .inr ⟨intOrderBySort_far ha h, hgt (by omega)⟩

/-- Where they are not close, one way around the sign is wrong. -/
theorem genOBsort_wrong (hm : ∀ k, m k ≠ 0) (hn : ∀ k, n k ≠ 0) :
    ∀ {cols : List Ocol}, (∀ c ∈ cols, Fits (value c a.row)) →
      (∀ c ∈ cols, Fits (value c b.row)) → ¬ Close cols a.row b.row →
      compare (genOBsort cols (obKeys m a.row cols) (obKeys n b.row cols)) 0 ≠ asked cols a b ∨
        compare (genOBsort cols (obKeys n b.row cols) (obKeys m a.row cols)) 0 ≠ asked cols b a
  | [], _, _, h => absurd trivial h
  | c :: cs, ha, hb, h => by
      have hac := ha c List.mem_cons_self
      have hbc := hb c List.mem_cons_self
      by_cases hfar : Far (value c a.row) (value c b.row)
      · refine (obCmp_far (p := m cs.length) (q := n cs.length) hac hbc hfar).imp ?_ ?_ <;>
        · rintro ⟨hneg, ho⟩ hs
          simp only [obKeys, genOBsort] at hs
          rw [if_pos (ne_of_lt hneg), compare_lt_iff_lt.mpr hneg, asked, List.map_cons, lex_cons,
            ho, Ordering.gt_then] at hs
          exact nomatch hs
      · have heq : value c a.row = value c b.row ∧ ¬ Close cs a.row b.row := by
          simpa only [Close, hfar, not_false_eq_true, true_and, Classical.not_imp] using h
        have hskip : ∀ {a b : Obsl} {p q : Nat}, p ≠ 0 → q ≠ 0 → Fits (value c a.row) →
            Fits (value c b.row) → ¬ Far (value c a.row) (value c b.row) →
            value c a.row = value c b.row →
            obCmp c.ctype c.asc (assignObKey c p a.row) (assignObKey c q b.row) = 0 ∧
              order c a b = .eq := fun {a b p q} hp hq ha hb hf he => by
          have ho := (order_eq_iff c a b).mpr he
          have hs := obCmp_sign hp hq ha hb hf
          rw [ho, compare_eq_iff_eq] at hs
          exact ⟨hs, ho⟩
        obtain ⟨hab, hoab⟩ := hskip (hm cs.length) (hn cs.length) hac hbc hfar heq.1
        obtain ⟨hba, hoba⟩ := hskip (hn cs.length) (hm cs.length) hbc hac (mt far_symm hfar)
          heq.1.symm
        simp only [obKeys, genOBsort, hab, hba, ne_eq, not_true_eq_false, if_false, asked,
          List.map_cons, lex_cons, hoab, hoba, Ordering.eq_then]
        exact genOBsort_wrong hm hn (fun d hd => ha d (List.mem_cons_of_mem _ hd))
          (fun d hd => hb d (List.mem_cons_of_mem _ hd)) heq.2

/-! ## The rows that are found -/

theorem mem_obList {malloc : Nat → Nat → Nat} {cols : List Ocol} :
    ∀ {rows : List Row} {o : Obsl}, o ∈ obList malloc cols rows →
      ∃ k, ∃ r ∈ rows, o = addRow2OBList (malloc k) cols r
  | r :: rs, o, h => by
      rcases List.mem_cons.mp h with rfl | h
      · exact ⟨_, r, List.mem_cons_self, rfl⟩
      · obtain ⟨k, s, hs, ho⟩ := mem_obList h
        exact ⟨k, s, List.mem_cons_of_mem _ hs, ho⟩

theorem obList_mem (malloc : Nat → Nat → Nat) (cols : List Ocol) :
    ∀ {rows : List Row} {r : Row}, r ∈ rows →
      ∃ k, addRow2OBList (malloc k) cols r ∈ obList malloc cols rows
  | s :: rs, r, h => by
      rcases List.mem_cons.mp h with rfl | h
      · exact ⟨_, List.mem_cons_self⟩
      · obtain ⟨k, hk⟩ := obList_mem malloc cols h
        exact ⟨k, List.mem_cons_of_mem _ hk⟩

/-- With a correct `qsort`, the rows are sorted as the query asks, by a comparison that is an order, if
and only if no two of them are far apart in the first column in which they differ. -/
theorem sortOB2Vector_sorts {qsort : (Obsl → Obsl → Int) → List Obsl → List Obsl}
    {malloc : Nat → Nat → Nat} (hq : Correct qsort) (hmalloc : ∀ k j, malloc k j ≠ 0)
    (cols : List Ocol) (rows : List Row) (hfits : ∀ r ∈ rows, ∀ c ∈ cols, Fits (value c r)) :
    Sorts qsort cols (obList malloc cols rows) ↔
      ∀ r ∈ rows, ∀ s ∈ rows, Close cols r s := by
  have := asked_trans cols
  constructor
  · intro h r hr s hs
    by_contra hc
    obtain ⟨k, hk⟩ := obList_mem malloc cols hr
    obtain ⟨l, hl⟩ := obList_mem malloc cols hs
    rcases genOBsort_wrong (a := addRow2OBList (malloc k) cols r)
        (b := addRow2OBList (malloc l) cols s) (hmalloc k) (hmalloc l) (hfits r hr) (hfits s hs)
        hc with h' | h'
    · exact h' (h.agrees _ hk _ hl)
    · exact h' (h.agrees _ hl _ hk)
  · intro hclose
    have hagrees : Agrees (fun a b => genOBsort cols a.keys b.keys) (asked cols)
        (obList malloc cols rows) := by
      intro a ha b hb
      obtain ⟨k, r, hr, rfl⟩ := mem_obList ha
      obtain ⟨l, s, hs, rfl⟩ := mem_obList hb
      exact genOBsort_sign (a := addRow2OBList (malloc k) cols r)
        (b := addRow2OBList (malloc l) cols s) (hmalloc k) (hmalloc l) (hfits r hr) (hfits s hs)
        (hclose r hr s hs)
    obtain ⟨hperm, hsorted⟩ := hagrees.sorted hq
    exact ⟨hagrees.consistent, hagrees, hperm, hsorted⟩

/-- The rows 3 and 5, by their INT column: in the list, and from the larger one. -/
theorem sortOB2Vector_sorts_near :
    Sorts insertion [⟨0, .int, false⟩]
      (obList (fun k j => k + j + 1) [⟨0, .int, false⟩] [⟨.int 3, []⟩, ⟨.int 5, []⟩]) :=
  (sortOB2Vector_sorts insertion_correct (fun _ _ => Nat.succ_ne_zero _) _ _
    (by simp [Fits, value, getCol, Aobj.field])).mpr
    (by simp [Close, Far, value, getCol, Aobj.field])

/-- The INT 3000000000 is sorted before the 1. -/
theorem sortOB2Vector_far : ¬ ∀ (cols : List Ocol) (rows : List Row),
    (∀ r ∈ rows, ∀ c ∈ cols, Fits (value c r)) →
      Sorts insertion cols (obList (fun _ _ => 1) cols rows) := by
  intro h
  have hs := h [⟨0, .int, true⟩] [⟨.int 1, []⟩, ⟨.int 3000000000, []⟩]
    (by simp [Fits, value, getCol, Aobj.field])
  have hc := hs.agrees (addRow2OBList (fun _ => 1) [⟨0, .int, true⟩] ⟨.int 1, []⟩) List.mem_cons_self
    (addRow2OBList (fun _ => 1) [⟨0, .int, true⟩] ⟨.int 3000000000, []⟩)
    (List.mem_cons_of_mem _ List.mem_cons_self)
  exact absurd hc (by decide)

end AlchemyDB.Query.Sorting
