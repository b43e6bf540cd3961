/-
# The append only file — rows written as INSERTs and read again

`appendOnlyDumpTable` writes a table as one INSERT for each row.  Numbers are printed
and read by `strtoul`; a TEXT stands between quotes as it is, and an empty column as
nothing at all, which is no TEXT.  A table comes back as it was when each of its rows
survives.
-/
import AlchemyDB.Text.Reload
import AlchemyDB.Text.U128
import AlchemyDB.Table.AutoInc

namespace AlchemyDB.Table

open Assoc Index Text Catalog

/-! ## Rows put out -/

/-- `getSCol`: the text of a column, nothing for the empty value. -/
def getSCol : Option Aobj → Sds
  | none => []
  | some (.int i) => Nat.toDigits 10 i
  | some (.long l) => Nat.toDigits 10 l
  | some (.u128 x) => sprintf128 64 (BitVec.ofNat 128 x)
  | some (.text s) => s

/-- A column of `orow_normal`. -/
def outCell (t : KType) (a : Option Aobj) : Text.Cell := ⟨decide (t = .text), getSCol a⟩

/-- `orow_normal`, for all columns of the table. -/
def outRow (types : List KType) (r : Row) : List Text.Cell :=
  List.zipWith outCell types (some r.pk :: r.cols)

/-- The values of the INSERT that `appendOnlyDumpTable` writes for a row. -/
def dumpRow (types : List KType) (r : Row) : Sds := dumped (outRow types r)

/-! ## Rows read -/

/-- The type of a column in the catalog. -/
def colType : KType → CType
  | .int => .int
  | .long => .long
  | .u128 => .u128
  | .text => .text

/-- `strToULong`. -/
def strToULong (s : Sds) (len : Nat) (isi : Bool) : Option Nat :=
  if len ≥ 31 then none
  else if isi ∧ strtoul (s.take len) ≥ 4294967296 then none
  else some (strtoul (s.take len))

/-- A column in `createRow`: `cr8IcolFromStr`, `cr8LcolFromStr`, `cr8XcolFromStr`, or the text.  What
has no length is empty. -/
def createCol (t : KType) (vals : Sds) (d : Crd) : Option (Option Aobj) :=
  let len := (d.slens % 4294967296).toNat
  match t with
  | .text => (d.text vals).map fun s => if s = [] then none else some (.text s)
  | .int =>
      if len = 0 then some none
      else (strToULong (vals.drop d.strs) len true).map fun l => some (.int l)
  | .long =>
      if len = 0 then some none
      else (strToULong (vals.drop d.strs) len false).map fun l => some (.long l)
  | .u128 =>
      if len = 0 then some none
      else (parseU128n (vals.drop d.strs) len).map fun x => some (.u128 x.toNat)

/-- `atol`. -/
def atol (s : Sds) : Int :=
  match s.dropWhile isSpace with
  | '-' :: t => max (-(leadingDigits t : Int)) (-9223372036854775808)
  | '+' :: t => min (leadingDigits t : Int) 9223372036854775807
  | t => min (leadingDigits t : Int) 9223372036854775807

/-- The primary key in `insertCommit`. -/
def createPk (t : KType) (ainc : Nat) : Key → Option Aobj
  | .auto => assignAutoIncPk t ainc
  | .given s =>
      match t with
      | .int =>
          if atol s ≥ 4294967296 then none else some (.int (atol s % 4294967296).toNat)
      | .long => some (.long (strtoul s))
      | .u128 => (parseU128 s).map fun x => .u128 x.toNat
      | .text => some (.text s)

/-- The row that `insertCommit` creates, from the values on; columns that are not written are empty. -/
def createRow (types : List KType) (ainc : Nat) (vals : Sds) : Except Fault (Option Row) :=
  match parseRowVals ⟨vals, types.length, types.length, 0, fun _ => .err⟩ (types.map colType) [] with
  | .error e => .error e
  | .ok none => .ok none
  | .ok (some (mvals, p)) => .ok do
      let key ← p.pk
      let pk ← createPk (types.headD .text) ainc key
      let cols ← ((Text.createRow vals mvals p.types p.cofsts).zip types.tail).mapM fun e =>
        createCol e.2 vals e.1
      some ⟨pk, cols ++ List.replicate (types.length - 1 - cols.length) none⟩

/-! ## Rows that survive -/

/-- A number has the bits of its type. -/
def Sized : Aobj → Prop
  | .int i => i < 4294967296
  | .long l => l < 18446744073709551616
  | .u128 x => x < 340282366920938463463374607431768211456
  | .text _ => True

/-- A value of the column. -/
def Typed (t : KType) (a : Option Aobj) : Prop := ∀ x, a = some x → x.ktype = t ∧ Sized x

/-- A row of a table with these columns. -/
def RowOf (types : List KType) (r : Row) : Prop := List.Forall₂ Typed types (some r.pk :: r.cols)

/-- The row comes back: its TEXTs are kept, and a TEXT key is not its only column. -/
def Survives (types : List KType) (r : Row) : Prop :=
  Text.Kept (outRow types r) ∧ (r.cols = [] → r.pk.ktype ≠ .text)

/-! ## Columns -/

variable {types : List KType} {t : KType} {a : Option Aobj} {v w : Sds} {p m ainc : Nat}

theorem word_digit {c : Char} (h : c.isDigit = true) : Literal.word c = true := by
  simp [Literal.word, Char.isAlphanum, h]

/-- Numbers are digits and a bar. -/
theorem getSCol_word (ht : t ≠ .text) (ha : Typed t a) : ∀ c ∈ getSCol a, Literal.word c = true := by
  intro c hc
  cases a with
  | none => exact absurd hc List.not_mem_nil
  | some x =>
      cases x with
      | int i => exact word_digit (isDigit_toDigits i c hc)
      | long l => exact word_digit (isDigit_toDigits l c hc)
      | u128 x =>
          rw [getSCol, sprintf128_64, print128] at hc
          rcases List.mem_append.1 hc with hc | hc
          · exact word_digit (isDigit_toDigits _ c hc)
          · rcases List.mem_cons.1 hc with rfl | hc
            · decide
            · exact word_digit (isDigit_toDigits _ c hc)
      | text s => exact absurd (ha _ rfl).1.symm ht

theorem outCell_plain (ha : Typed t a) : (outCell t a).Plain := by
  intro ht
  exact getSCol_word (of_decide_eq_false ht) ha

theorem colType_text : colType t = .text ↔ (outCell t a).text = true := by
  cases t <;> simp [colType, outCell]

theorem length_digits {n : Nat} (h : n < 18446744073709551616) : (Nat.toDigits 10 n).length < 31 := by
  have := (Nat.length_toDigits_le_iff (b := 10) (k := 20) (by decide) (by decide)).2
    (Nat.lt_of_lt_of_le h (by decide))
  omega

theorem strtoul_digits {n : Nat} (h : n < 18446744073709551616) : strtoul (Nat.toDigits 10 n) = n := by
  have : strtoul (Nat.toDigits 10 n ++ []) = n := strtoul_toDigits h (by simp)
  rwa [List.append_nil] at this

theorem strToULong_digits {n : Nat} {isi : Bool} (h : n < 18446744073709551616)
    (hi : isi = true → n < 4294967296) :
    strToULong (Nat.toDigits 10 n ++ w) (Nat.toDigits 10 n).length isi = some n := by
  have hval : strtoul ((Nat.toDigits 10 n ++ w).take (Nat.toDigits 10 n).length) = n := by
    rw [List.take_left, strtoul_digits h]
  have hlen := length_digits h
  rw [strToULong, if_neg (by omega), hval, if_neg]
  rintro ⟨hisi, hge⟩
  have := hi hisi
  omega

/-- The length of a column as `uint32`. -/
theorem len_col {n : Nat} (h : n < 4294967296) : ((n : Int) % 4294967296).toNat = n := by omega

/-- A column is read as it was put out, if no TEXT is empty. -/
theorem createCol_typed {e : Char} {r : Sds} (ha : Typed t a)
    (h : v.drop p = (outCell t a).chars ++ w) (hw : Stop w e r) (he : e.isDigit = false) (hm : m ≤ p)
    (hs : t = .text → (outCell t a).s ≠ []) :
    createCol t v (Text.createCol v m (colType t) ((outCell t a).extent m p)) = some a := by
  have hx : (outCell t a).text = true → (outCell t a).s ≠ [] := fun htx =>
    hs (of_decide_eq_true htx)
  obtain ⟨strs, z, hcol, hz, hzw⟩ := createCol_cell h (outCell_plain ha) hw hm colType_text hx
  have hdigit : t ≠ .text → ∀ c ∈ z.head?, c.isDigit = false := by
    intro hn c hc
    rw [hzw (decide_eq_false hn), hw.eq] at hc
    obtain rfl := Option.some.inj hc
    exact he
  rw [hcol]
  cases a with
  | none =>
      cases t with
      | text => exact absurd rfl (hs rfl)
      | int => rfl
      | long => rfl
      | u128 => rfl
  | some x =>
      obtain ⟨hxt, hsize⟩ := ha x rfl
      cases x with
      | int i =>
          obtain rfl : t = .int := hxt.symm
          have hi : i < 4294967296 := hsize
          have hlen := length_digits (Nat.lt_trans hi (by decide : 4294967296 < 18446744073709551616))
          have hne : ¬ (Nat.toDigits 10 i).length = 0 := by simp [Nat.toDigits_ne_nil]
          have hz : v.drop strs = Nat.toDigits 10 i ++ z := hz
          show createCol .int v ⟨false, strs, ((Nat.toDigits 10 i).length : Nat)⟩ = _
          simp only [createCol, len_col (show (Nat.toDigits 10 i).length < 4294967296 by omega), hne,
            if_false, hz]
          rw [strToULong_digits (by omega) fun _ => hi]
          rfl
      | long l =>
          obtain rfl : t = .long := hxt.symm
          have hl : l < 18446744073709551616 := hsize
          have hlen := length_digits hl
          have hne : ¬ (Nat.toDigits 10 l).length = 0 := by simp [Nat.toDigits_ne_nil]
          have hz : v.drop strs = Nat.toDigits 10 l ++ z := hz
          show createCol .long v ⟨false, strs, ((Nat.toDigits 10 l).length : Nat)⟩ = _
          simp only [createCol, len_col (show (Nat.toDigits 10 l).length < 4294967296 by omega), hne,
            if_false, hz]
          rw [strToULong_digits hl fun hf : false = true => by cases hf]
          rfl
      | u128 n =>
          obtain rfl : t = .u128 := hxt.symm
          have hn : n < 340282366920938463463374607431768211456 := hsize
          have hprint : getSCol (some (.u128 n)) = print128 (BitVec.ofNat 128 n) := sprintf128_64 _
          have hlen := length_print128 (BitVec.ofNat 128 n)
          have hne : ¬ (print128 (BitVec.ofNat 128 n)).length = 0 := by simp [print128]
          have hz : v.drop strs = getSCol (some (.u128 n)) ++ z := hz
          rw [hprint] at hz
          show createCol .u128 v ⟨false, strs, ((getSCol (some (.u128 n))).length : Nat)⟩ = _
          rw [hprint]
          simp only [createCol,
            len_col (show (print128 (BitVec.ofNat 128 n)).length < 4294967296 by omega), hne, if_false,
            hz]
          rw [parseU128n, strnchr_print128 _ z (Nat.le_refl _), Option.bind_some,
            parseU128At_print128 _ (hdigit (by decide)), Option.map_some, BitVec.toNat_ofNat,
            Nat.mod_eq_of_lt hn]
      | text s =>
          obtain rfl : t = .text := hxt.symm
          have hne : s ≠ [] := hs rfl
          have hz : v.drop strs = s ++ z := hz
          show createCol .text v ⟨false, strs, (s.length : Nat)⟩ = _
          simp only [createCol, Crd.text, show ¬ ((s.length : Nat) : Int) < 0 by omega, if_false,
            Bool.false_eq_true, Int.toNat_natCast, hz, List.take_left, Option.map_some, hne]

theorem atol_digits {n : Nat} (h : n < 4294967296) : atol (Nat.toDigits 10 n) = n := by
  obtain ⟨d, ds, hd⟩ := List.exists_cons_of_ne_nil (Nat.toDigits_ne_nil (n := n) (b := 10))
  have hv : leadingDigits (Nat.toDigits 10 n ++ []) = n := leadingDigits_toDigits n (by simp)
  rw [List.append_nil] at hv
  obtain ⟨-, hblank, hminus, hplus⟩ := digit_cases (isDigit_toDigits n d (by rw [hd]; simp))
  have hdrop : (Nat.toDigits 10 n).dropWhile isSpace = Nat.toDigits 10 n := by
    rw [hd, List.dropWhile_cons_of_neg (by simp [hblank])]
  unfold atol
  rw [hdrop]
  split
  · rename_i he
    rw [hd] at he
    exact absurd (List.cons.inj he).1 hminus
  · rename_i he
    rw [hd] at he
    exact absurd (List.cons.inj he).1 hplus
  · rw [hv]
    omega

/-- The key is read as it was put out. -/
theorem createPk_typed {x : Aobj} (ha : Typed t (some x)) :
    createPk t ainc (.given (getSCol (some x))) = some x := by
  obtain ⟨rfl, hsize⟩ := ha x rfl
  cases x with
  | int i =>
      have hi : i < 4294967296 := hsize
      show (if atol (Nat.toDigits 10 i) ≥ 4294967296 then none
        else some (Aobj.int (atol (Nat.toDigits 10 i) % 4294967296).toNat)) = _
      rw [atol_digits hi, if_neg (by omega), len_col hi]
  | long l =>
      have hl : l < 18446744073709551616 := hsize
      show some (Aobj.long (strtoul (Nat.toDigits 10 l))) = _
      rw [strtoul_digits hl]
  | u128 n =>
      have hn : n < 340282366920938463463374607431768211456 := hsize
      have hat : parseU128At (print128 (BitVec.ofNat 128 n) ++ []) _ = _ :=
        parseU128At_print128 (BitVec.ofNat 128 n) (by simp)
      have hbar := strnchr_print128 (BitVec.ofNat 128 n) [] (Nat.le_refl _)
      rw [List.append_nil] at hat hbar
      rw [strnchr, List.take_length] at hbar
      show ((parseU128 (sprintf128 64 (BitVec.ofNat 128 n))).map fun x => Aobj.u128 x.toNat) = _
      rw [sprintf128_64, parseU128, hbar, Option.bind_some, hat, Option.map_some, BitVec.toNat_ofNat,
        Nat.mod_eq_of_lt hn]
  | text s => rfl

/-! ## Rows -/

theorem RowOf.matches {as : List (Option Aobj)} (h : List.Forall₂ Typed types as) :
    Matches (types.map colType) (List.zipWith outCell types as) := by
  induction h with
  | nil => exact .nil
  | cons _ _ ih => exact .cons colType_text ih

theorem RowOf.plain {as : List (Option Aobj)} (h : List.Forall₂ Typed types as) :
    ∀ c ∈ List.zipWith outCell types as, c.Plain := by
  induction h with
  | nil => exact fun c hc => absurd hc List.not_mem_nil
  | cons ha _ ih =>
      intro c hc
      rcases List.mem_cons.1 hc with rfl | hc
      · exact outCell_plain ha
      · exact ih c hc

/-- No TEXT is empty. -/
theorem kept_filled : ∀ {cs : List Text.Cell}, Text.Kept cs → ∀ c ∈ cs, c.text = true → c.s ≠ []
  | [], _, c, hc => absurd hc List.not_mem_nil
  | c :: cs, h, d, hd => by
      rcases List.mem_cons.1 hd with rfl | hd
      · exact fun htx => (h.1 htx).1
      · exact kept_filled h.2 d hd

/-- The columns are read as they were put out. -/
theorem createCols {as : List (Option Aobj)} (h : List.Forall₂ Typed types as) : ∀ {p : Nat},
    v.drop p = writeOutputRow (List.zipWith outCell types as) ++ [')'] → m ≤ p →
    (∀ c ∈ List.zipWith outCell types as, c.text = true → c.s ≠ []) →
      ((List.zipWith (Text.createCol v m) (types.map colType)
        (extents m p (List.zipWith outCell types as))).zip types).mapM
          (fun e => createCol e.2 v e.1) = some as := by
  induction h with
  | nil => exact fun _ _ _ => rfl
  | @cons t a types as ha hrest ih =>
      intro p hv hm hs
      have hfill : t = .text → (outCell t a).s ≠ [] := fun ht =>
        hs _ List.mem_cons_self (decide_eq_true ht)
      have hs' : ∀ c ∈ List.zipWith outCell types as, c.text = true → c.s ≠ [] := fun c hc =>
        hs c (List.mem_cons_of_mem _ hc)
      rw [List.zipWith_cons_cons, writeOutputRow] at hv
      have hhead : createCol t v (Text.createCol v m (colType t) ((outCell t a).extent m p)) = some a ∧
          (List.zipWith outCell types as ≠ [] → v.drop (p + (outCell t a).chars.length + 1) =
            writeOutputRow (List.zipWith outCell types as) ++ [')']) := by
        split at hv
        · rename_i hnil
          rw [List.append_nil] at hv
          exact ⟨createCol_typed ha hv stop_paren (by decide) hm hfill, fun hn => absurd hnil hn⟩
        · rw [List.append_assoc, List.cons_append] at hv
          refine ⟨createCol_typed ha hv (stop_comma _) (by decide) hm hfill, fun _ => ?_⟩
          rw [← List.drop_drop, ← List.drop_drop, hv]
          simp
      rw [List.map_cons, List.zipWith_cons_cons, extents, List.zipWith_cons_cons, List.zip_cons_cons,
        List.mapM_cons, hhead.1]
      cases hrest with
      | nil => rfl
      | @cons t' a' types as ha' hrest' =>
          rw [Option.bind_eq_bind, Option.bind_some,
            ih (hhead.2 (by simp)) (by omega) hs']
          rfl

variable {r : Row}

theorem key_filled {x : Aobj} (ha : Typed t (some x)) (ht : (outCell t (some x)).text = false) :
    (outCell t (some x)).s ≠ [] := by
  obtain ⟨rfl, -⟩ := ha x rfl
  cases x with
  | int i => exact Nat.toDigits_ne_nil
  | long l => exact Nat.toDigits_ne_nil
  | u128 n =>
      show sprintf128 64 (BitVec.ofNat 128 n) ≠ []
      rw [sprintf128_64]
      simp [print128]
  | text s => cases ht

theorem length_outCells {as : List (Option Aobj)} (h : List.Forall₂ Typed types as) :
    (List.zipWith outCell types as).length = types.length := by
  rw [List.length_zipWith, h.length_eq, Nat.min_self]

/-- The row of the file is the INSERT of its cells. -/
theorem request_dumpRow {cols : Cols} (pk : Aobj) (h : List.Forall₂ Typed types cols) :
    (⟨dumpRow (t :: types) ⟨pk, cols⟩, (t :: types).length, (t :: types).length, 0,
      fun _ => .err⟩ : Request) = insertOf (outCell t (some pk) :: List.zipWith outCell types cols) := by
  rw [insertOf, List.length_cons, List.length_cons, length_outCells h]
  rfl

/-- A row that survives is created again. -/
theorem createRow_survives (h : RowOf types r) (hs : Survives types r) :
    createRow types ainc (dumpRow types r) = .ok (some r) := by
  obtain ⟨pk, cols⟩ := r
  obtain ⟨hkept, hsingle⟩ := hs
  cases h with
  | @cons t _ ts _ ha hrest =>
      have hall : List.Forall₂ Typed (t :: ts) (some pk :: cols) := .cons ha hrest
      have hlen := hrest.length_eq
      have hcell : (outRow (t :: ts) ⟨pk, cols⟩) =
          outCell t (some pk) :: List.zipWith outCell ts cols := rfl
      have hn : (List.zipWith outCell ts cols).length = ts.length := length_outCells hrest
      rw [hcell] at hkept
      have hone : List.zipWith outCell ts cols = [] → (outCell t (some pk)).text = false := by
        intro he
        rw [he, List.length_nil] at hn
        have hc : cols = [] := List.length_eq_zero_iff.1 (hlen ▸ hn.symm)
        have := hsingle hc
        rw [(ha pk rfl).1] at this
        exact decide_eq_false this
      obtain ⟨p, hparse, hplaced, h1, h2, h3⟩ := dumped_kept (RowOf.matches hall) (RowOf.plain hall)
        (key_filled ha) hkept hone
      have hrow := createRow_placed (v := dumpRow (t :: ts) ⟨pk, cols⟩) hplaced (Nat.le_refl 1) h1 h2
        (by rw [List.length_map, List.length_cons, List.length_cons, hn])
      have hcols : ((Text.createRow (dumpRow (t :: ts) ⟨pk, cols⟩) 1 p.types p.cofsts).zip
          (t :: ts).tail).mapM (fun e => createCol e.2 (dumpRow (t :: ts) ⟨pk, cols⟩) e.1) =
            some cols := by
        rw [hrow]
        cases hrest with
        | nil => rfl
        | @cons t' a' ts as ha' hrest' =>
            refine createCols (.cons ha' hrest') ?_ (by omega) fun c hc =>
              kept_filled hkept c (List.mem_cons_of_mem _ hc)
            have hv : (dumpRow (t :: t' :: ts) ⟨pk, a' :: as⟩).drop 1 =
                (outCell t (some pk)).chars ++ ',' :: (writeOutputRow
                  (List.zipWith outCell (t' :: ts) (a' :: as)) ++ [')']) := by
              show writeOutputRow (_ :: List.zipWith outCell (t' :: ts) (a' :: as)) ++ [')'] = _
              rw [writeOutputRow, if_neg (by simp), List.append_assoc, List.cons_append]
            rw [← List.drop_drop, ← List.drop_drop, hv]
            simp
      have hpk : createPk t ainc (.given (outCell t (some pk)).s) = some pk := createPk_typed ha
      unfold createRow
      rw [request_dumpRow pk hrest, hparse]
      simp only [h3, Option.bind_eq_bind, Option.bind_some, List.headD_cons, hpk, hcols]
      rw [List.length_cons, Nat.add_sub_cancel, hlen, Nat.sub_self, List.replicate_zero,
        List.append_nil]

theorem texts_of {v : Sds} {p : Parsed} : ∀ {cs : List Text.Cell} {k : Nat},
    (∀ i c, cs[i]? = some c → c.text = true → Text.Stored v m p (k + 1 + i) c.s) →
      Texts v m p (k + 1) cs
  | [], _, _ => trivial
  | c :: cs, k, h => by
      refine ⟨fun htx => ?_, texts_of fun i d hd htx => ?_⟩
      · rw [if_neg (Nat.succ_ne_zero k)]
        exact h 0 c rfl htx
      · have := h (i + 1) d hd htx
        rwa [Nat.add_assoc (k + 1), Nat.add_comm 1 i]

/-- What is read for a TEXT column is the text that was put out. -/
theorem createCol_text {d : Crd} (h : createCol .text v d = some a) : d.text v = some (getSCol a) := by
  obtain ⟨s, hs, he⟩ := Option.map_eq_some_iff.1 h
  rw [hs, ← he]
  split
  · rename_i hnil
    rw [hnil]
    rfl
  · rfl

/-- A row that is created as it was survives. -/
theorem survives_createRow (h : RowOf types r)
    (hc : createRow types ainc (dumpRow types r) = .ok (some r)) : Survives types r := by
  obtain ⟨pk, cols⟩ := r
  cases h with
  | @cons t _ ts _ ha hrest =>
      have hall : List.Forall₂ Typed (t :: ts) (some pk :: cols) := .cons ha hrest
      unfold createRow at hc
      rw [request_dumpRow pk hrest] at hc
      split at hc
      · cases hc
      · cases hc
      · rename_i m' p hparse
        obtain ⟨key, hkey, hc⟩ := Option.bind_eq_some_iff.1 (Except.ok.inj hc)
        obtain ⟨pk', hpk, hc⟩ := Option.bind_eq_some_iff.1 hc
        obtain ⟨cols', hcols, hc⟩ := Option.bind_eq_some_iff.1 hc
        obtain ⟨rfl, hcols'⟩ : pk' = pk ∧ cols' ++ List.replicate ((t :: ts).length - 1 -
            cols'.length) none = cols := by
          simpa using hc
        have htexts : Texts (dumpRow (t :: ts) ⟨pk', cols⟩) m' p 0
            (outCell t (some pk') :: List.zipWith outCell ts cols) := by
          refine ⟨fun htx => ?_, texts_of fun i c hi htx d hd => ?_⟩
          · obtain rfl : t = .text := of_decide_eq_true htx
            rw [if_pos rfl, hkey]
            cases key with
            | auto => cases hpk
            | given s =>
                obtain rfl : Aobj.text s = pk' := Option.some.inj hpk
                rfl
          · rw [Nat.zero_add, Nat.add_sub_cancel_left] at hd
            rw [List.getElem?_zipWith] at hi
            obtain ⟨t', a', ht', ha', rfl⟩ : ∃ t' a', ts[i]? = some t' ∧ cols[i]? = some a' ∧
                outCell t' a' = c := by
              cases ht : ts[i]? <;> cases hco : cols[i]? <;> simp [ht, hco] at hi
              exact ⟨_, _, rfl, rfl, hi⟩
            obtain rfl : t' = .text := of_decide_eq_true htx
            have hz : ((Text.createRow (dumpRow (t :: ts) ⟨pk', cols⟩) m' p.types p.cofsts).zip
                (t :: ts).tail)[i]? = some (d, .text) := List.getElem?_zip_eq_some.2 ⟨hd, ht'⟩
            obtain ⟨a, hai, hread⟩ := (mapM_some hcols).2 i _ hz
            have haa : a = a' := by
              rw [← hcols', List.getElem?_append_left (List.getElem?_eq_some_iff.1 hai).1, hai] at ha'
              exact Option.some.inj ha'
            rw [haa] at hread
            exact createCol_text hread
        obtain ⟨hkept, hone⟩ := dumped_texts (RowOf.matches hall) (RowOf.plain hall) (key_filled ha)
          hparse htexts
        refine ⟨hkept, fun hnil => ?_⟩
        have hz : List.zipWith outCell ts cols = [] := by
          rw [show cols = [] from hnil, List.zipWith_nil_right]
        have := of_decide_eq_false (hone hz)
        rw [(ha pk' rfl).1]
        exact this

/-- The values of the INSERTs that `appendOnlyDumpTable` writes. -/
def appendOnlyDumpTable (types : List KType) (t : Tab) : List Sds := t.live.map (dumpRow types)

/-- An INSERT of `loadAppendOnlyFile`, which does not look at the reply. -/
def insertText (types : List KType) (ainc : Nat) (t : Tab) (vals : Sds) : Option Tab :=
  match createRow types ainc vals with
  | .error _ => none
  | .ok none => some t
  | .ok (some r) => (insertCommit t .insert r).map (·.2)

def loadAppendOnlyFile (types : List KType) (ainc : Nat) (t : Tab) (file : List Sds) : Option Tab :=
  file.foldlM (insertText types ainc) t

/-- The table as CREATE TABLE makes it, with these rows and no index yet. -/
def bare (t : Tab) (ents : List (Aobj × Cols)) : Tab := ⟨t.ty, t.ncols, ⟨.norm, ents⟩, []⟩

/-- The row that is created of a row in the file. -/
def reread (types : List KType) (ainc : Nat) (e : Aobj × Cols) : Option (Aobj × Cols) :=
  match createRow types ainc (dumpRow types (asLive e)) with
  | .ok (some r) => some (r.pk, r.cols)
  | _ => none

section Tables

variable {tab tab' : Tab} {e : Aobj × Cols} {pre es : List (Aobj × Cols)}

theorem put_behind {k : Aobj} {c : Cols} : ∀ {pre : List (Aobj × Cols)}, (∀ x ∈ pre, x.1 < k) →
    get? pre k = none ∧ put k c pre = pre ++ [(k, c)]
  | [], _ => ⟨rfl, rfl⟩
  | x :: pre, h => by
      have hlt : x.1 < k := h x List.mem_cons_self
      have hx : ¬ k < x.1 := fun hgt => Aobj.lt_irrefl x.1 (Aobj.lt_trans x.1 k x.1 hlt hgt)
      have hne : ¬ x.1 = k := by
        intro he
        rw [he] at hlt
        exact Aobj.lt_irrefl k hlt
      obtain ⟨h1, h2⟩ := put_behind (c := c) fun y hy => h y (List.mem_cons_of_mem x hy)
      exact ⟨by rw [get?_cons, if_neg hne, h1], by rw [put, if_neg hx, h2]; rfl⟩

/-- A row behind the others is added to the table. -/
theorem insertCommit_behind (tab : Tab) (r : Row) (h : ∀ x ∈ pre, x.1 < r.pk) :
    insertCommit (bare tab pre) .insert r = some (true, bare tab (pre ++ [(r.pk, r.cols)])) := by
  obtain ⟨hget, hput⟩ := put_behind (c := r.cols) h
  have hf : (bare tab pre).store.find r.pk = none := by
    rw [find_plain (by simp [bare])]
    exact hget
  unfold insertCommit
  rw [hf]
  show insertNew (bare tab pre) false ((bare tab pre).asRow r) = _
  rw [asRow_norm rfl, insertNew_norm rfl]
  show some (true, bare tab (put r.pk r.cols pre)) = _
  rw [hput]

/-- A key that is a number is created as it was, whatever becomes of the row. -/
theorem createRow_key {r r' : Row} (h : RowOf types r) (hn : r.pk.ktype ≠ .text)
    (hc : createRow types ainc (dumpRow types r) = .ok (some r')) : r'.pk = r.pk := by
  obtain ⟨pk, cols⟩ := r
  cases h with
  | @cons t _ ts _ ha hrest =>
      have hall : List.Forall₂ Typed (t :: ts) (some pk :: cols) := .cons ha hrest
      have htx : (outCell t (some pk)).text = false := by
        rw [(ha pk rfl).1] at hn
        exact decide_eq_false hn
      unfold createRow at hc
      rw [request_dumpRow pk hrest] at hc
      split at hc
      · cases hc
      · cases hc
      · rename_i m' p hparse
        have hkey := dumped_key (RowOf.matches hall) (RowOf.plain hall) (key_filled ha) htx hparse
        have hpk : createPk t ainc (.given (outCell t (some pk)).s) = some pk := createPk_typed ha
        simp only [hkey, Option.bind_eq_bind, Option.bind_some, List.headD_cons, hpk] at hc
        obtain ⟨cols', -, hc⟩ := Option.bind_eq_some_iff.1 (Except.ok.inj hc)
        cases hc
        rfl

/-- The rows are in the order of their keys, and the table is the rows of its columns. -/
structure RowsOf (types : List KType) (es : List (Aobj × Cols)) : Prop where
  row : ∀ e ∈ es, RowOf types (asLive e)
  sorted : es.Pairwise fun a b => a.1 < b.1

theorem RowsOf.tail (h : RowsOf types (e :: es)) : RowsOf types es :=
  ⟨fun x hx => h.row x (List.mem_cons_of_mem e hx), (List.pairwise_cons.1 h.sorted).2⟩

theorem RowsOf.behind (h : RowsOf types (e :: es)) (hpre : ∀ x ∈ pre, ∀ y ∈ e :: es, x.1 < y.1)
    (c : Cols) : ∀ x ∈ pre ++ [(e.1, c)], ∀ y ∈ es, x.1 < y.1 := by
  intro x hx y hy
  rcases List.mem_append.1 hx with hx | hx
  · exact hpre x hx y (List.mem_cons_of_mem e hy)
  · rw [List.mem_singleton.1 hx]
    exact (List.pairwise_cons.1 h.sorted).1 y hy

/-- Rows that survive are added one behind the other. -/
theorem load_survives : ∀ {es pre : List (Aobj × Cols)}, RowsOf types es →
    (∀ x ∈ pre, ∀ y ∈ es, x.1 < y.1) → (∀ e ∈ es, Survives types (asLive e)) →
      loadAppendOnlyFile types ainc (bare tab pre) (es.map fun e => dumpRow types (asLive e)) =
        some (bare tab (pre ++ es))
  | [], pre, _, _, _ => by
      rw [List.append_nil]
      rfl
  | e :: es, pre, h, hpre, hs => by
      have hrow : createRow types ainc (dumpRow types (asLive e)) = .ok (some (asLive e)) :=
        createRow_survives (h.row e List.mem_cons_self) (hs e List.mem_cons_self)
      have hins := insertCommit_behind tab (asLive e) fun x hx =>
        hpre x hx e List.mem_cons_self
      have hstep : insertText types ainc (bare tab pre) (dumpRow types (asLive e)) =
          some (bare tab (pre ++ [e])) := by
        unfold insertText
        rw [hrow]
        show (insertCommit (bare tab pre) .insert (asLive e)).map (·.2) = _
        rw [hins]
        rfl
      rw [List.map_cons, loadAppendOnlyFile, List.foldlM_cons, hstep, Option.bind_eq_bind,
        Option.bind_some]
      have ih := load_survives h.tail (h.behind hpre e.2) fun x hx => hs x (List.mem_cons_of_mem e hx)
      rw [List.append_assoc] at ih
      exact ih

/-- Where the keys are numbers, each INSERT adds what is created of its row, or nothing. -/
theorem load_reread : ∀ {es pre : List (Aobj × Cols)}, RowsOf types es →
    (∀ e ∈ es, e.1.ktype ≠ .text) → (∀ x ∈ pre, ∀ y ∈ es, x.1 < y.1) →
      loadAppendOnlyFile types ainc (bare tab pre) (es.map fun e => dumpRow types (asLive e)) =
        some tab' → tab' = bare tab (pre ++ es.filterMap (reread types ainc))
  | [], pre, _, _, _, hl => by
      rw [List.filterMap_nil, List.append_nil]
      exact (Option.some.inj hl).symm
  | e :: es, pre, h, hn, hpre, hl => by
      have hn' : ∀ x ∈ es, x.1.ktype ≠ .text := fun x hx => hn x (List.mem_cons_of_mem e hx)
      rw [List.map_cons, loadAppendOnlyFile, List.foldlM_cons] at hl
      obtain ⟨tab₁, hstep, hl⟩ := Option.bind_eq_some_iff.1 hl
      unfold insertText at hstep
      cases hc : createRow types ainc (dumpRow types (asLive e)) with
      | error f =>
          rw [hc] at hstep
          cases hstep
      | ok o =>
          rw [hc] at hstep
          cases o with
          | none =>
              cases hstep
              have hnone : reread types ainc e = none := by simp [reread, hc]
              rw [List.filterMap_cons_none hnone]
              exact load_reread h.tail hn' (fun x hx y hy =>
                hpre x hx y (List.mem_cons_of_mem e hy)) hl
          | some r =>
              have hkey : r.pk = e.1 := createRow_key (h.row e List.mem_cons_self)
                (hn e List.mem_cons_self) hc
              have hsome : reread types ainc e = some (r.pk, r.cols) := by simp [reread, hc]
              have hlast : ∀ x ∈ pre, x.1 < r.pk := fun x hx => by
                rw [hkey]
                exact hpre x hx e List.mem_cons_self
              have hins := insertCommit_behind tab r hlast
              replace hstep : (insertCommit (bare tab pre) .insert r).map (·.2) = some tab₁ := hstep
              rw [hins] at hstep
              cases hstep
              rw [List.filterMap_cons_some hsome]
              have ih := load_reread h.tail hn' (by rw [hkey]; exact h.behind hpre r.cols) hl
              rw [List.append_assoc] at ih
              exact ih

theorem filterMap_self {A : Type} {f : A → Option A} : ∀ {l : List A}, l.filterMap f = l →
    ∀ x ∈ l, f x = some x
  | [], _, x, hx => absurd hx List.not_mem_nil
  | y :: l, h, x, hx => by
      cases hy : f y with
      | none =>
          rw [List.filterMap_cons_none hy] at h
          have hle := List.length_filterMap_le f l
          rw [h, List.length_cons] at hle
          omega
      | some z =>
          rw [List.filterMap_cons_some hy] at h
          obtain ⟨rfl, hrest⟩ := List.cons.inj h
          rcases List.mem_cons.1 hx with rfl | hx
          · exact hy
          · exact filterMap_self hrest x hx

end Tables

/-- A table with an INT key, a TEXT and an INT. -/
def noted (s : Sds) : Tab :=
  ⟨fun j => if j = 1 then .text else .int, 2, ⟨.norm, [(.int 1, [some (.text s), none])]⟩, []⟩

theorem noted_rowsOf (s : Sds) : RowsOf [.int, .text, .int] (noted s).store.ents := by
  refine ⟨fun e he => ?_, List.pairwise_singleton _ _⟩
  obtain rfl := List.mem_singleton.1 he
  refine .cons (fun x hx => ?_) (.cons (fun x hx => ?_) (.cons (fun x hx => ?_) .nil))
  · cases hx
    exact ⟨rfl, show 1 < 4294967296 by decide⟩
  · cases hx
    exact ⟨rfl, trivial⟩
  · cases hx

end AlchemyDB.Table
