/-
# The keys of the trees — `createBTKey`

The key of a row stands in front of it: a number in its bytes, a text behind its length,
which takes one byte or four.  The lowest bit of the first byte tells which.  The tree
compares two such keys where they stand; texts by `strncmp`, which ends at a byte 0.
-/
import AlchemyDB.Format.Number
import AlchemyDB.Query.Lookup

namespace AlchemyDB.Format.Key

open Index Query Bytes

/-! ## Writing -/

/-- What `createBTKey` returns: the bytes, whether they were allocated, and their number. -/
structure BTKey where
  btkey : List UInt8
  med : Bool
  ksize : Nat
  deriving DecidableEq, Repr

/-- `cr8BTKInt`, which fails when the shifted number is no longer an INT. -/
def cr8BTKInt (i : UInt32) : Option BTKey :=
  if (cIcol i.toNat true).col ≥ 4294967296 then none
  else some ⟨wUCol (cIcol i.toNat true).sflag (cIcol i.toNat true).col true, false,
    (cIcol i.toNat true).len⟩

/-- `cr8BTKLong`. -/
def cr8BTKLong (l : UInt64) : BTKey :=
  ⟨wUCol (cIcol l.toNat false).sflag (cIcol l.toNat false).col false, false, (cIcol l.toNat false).len⟩

/-- `cr8BTKU128`. -/
def cr8BTKU128 (x : BitVec 128) : BTKey := ⟨le 16 x.toNat, false, 16⟩

/-- The part of `createBTKey` on texts; `BTKeyBuffer` has 2048 bytes. -/
def cr8BTKText (s : List UInt8) : BTKey :=
  if s.length < 128 then
    let ksize := (s.length + 1) % 4294967296
    ⟨UInt8.ofNat (s.length * 2 + 1) :: s, decide (ksize ≥ 2048), ksize⟩
  else
    let ksize := (s.length + 4) % 4294967296
    ⟨le 4 (s.length * 2 % 4294967296) ++ s, decide (ksize ≥ 2048), ksize⟩

/-- `createBTKey`, in the trees of tables and on texts. -/
def createBTKey : {t : KType} → Val t → Option BTKey
  | .int, a => cr8BTKInt a
  | .long, a => some (cr8BTKLong a)
  | .u128, a => some (cr8BTKU128 a)
  | .text, a => some (cr8BTKText a)

/-! ## Reading -/

def getSflag (b1 : UInt8) : Bool := decide (b1.toNat % 2 = 1)

/-- `getTString`: the length, and where the text is. -/
def getTString (m : Nat → UInt8) (o : Nat) : Nat × Nat := ((m o).toNat / 2, o + 1)

/-- `getString`. -/
def getString (m : Nat → UInt8) (o : Nat) : Nat × Nat := (ofLe (peek m o 4) / 2, o + 4)

/-- The text of a key, by its flag. -/
def streamText (m : Nat → UInt8) (o : Nat) : Nat × Nat :=
  if getSflag (m o) then getTString m o else getString m o

def streamIntToUInt (m : Nat → UInt8) (o : Nat) : UInt32 := UInt32.ofNat (sI2I m o true).1

def streamLongToULong (m : Nat → UInt8) (o : Nat) : UInt64 := UInt64.ofNat (sI2I m o false).1

def streamToU128 (m : Nat → UInt8) (o : Nat) : BitVec 128 := BitVec.ofNat 128 (ofLe (peek m o 16))

/-- `skipToVal`: the bytes that the stream is moved on by. -/
def skipToVal : KType → (Nat → UInt8) → Nat → Nat
  | .int, m, o => (sI2I m o true).2
  | .long, m, o => (sI2I m o false).2
  | .u128, _, _ => 16
  | .text, m, o =>
      if getSflag (m o) then (getTString m o).1 + 1
      else ((getString m o).1 + 4) % 4294967296

/-- `convertStream2Key`. -/
def convertStream2Key : (t : KType) → (Nat → UInt8) → Nat → Val t
  | .int, m, o => streamIntToUInt m o
  | .long, m, o => streamLongToULong m o
  | .u128, m, o => streamToU128 m o
  | .text, m, o => peek m (streamText m o).2 (streamText m o).1

/-! ## Comparing -/

def btIntCmp (m : Nat → UInt8) (o : Nat) (m' : Nat → UInt8) (o' : Nat) : Int :=
  threeWay (decide (streamIntToUInt m o = streamIntToUInt m' o'))
    (decide (streamIntToUInt m o > streamIntToUInt m' o'))

def btLongCmp (m : Nat → UInt8) (o : Nat) (m' : Nat → UInt8) (o' : Nat) : Int :=
  threeWay (decide (streamLongToULong m o = streamLongToULong m' o'))
    (decide (streamLongToULong m o > streamLongToULong m' o'))

def btU128Cmp (m : Nat → UInt8) (o : Nat) (m' : Nat → UInt8) (o' : Nat) : Int :=
  threeWay (decide (streamToU128 m o = streamToU128 m' o'))
    (decide (streamToU128 m o > streamToU128 m' o'))

def btTextCmp (m : Nat → UInt8) (o : Nat) (m' : Nat → UInt8) (o' : Nat) : Int :=
  let s1 := streamText m o
  let s2 := streamText m' o'
  if s1.1 = s2.1 then strncmp (peek m s1.2 s1.1) fun i => m' (s2.2 + i)
  else
    let ret := strncmp (peek m s1.2 (min s1.1 s2.1)) fun i => m' (s2.2 + i)
    if ret = 0 then (if s1.1 < s2.1 then -1 else 1) else ret

/-- The comparison of a tree. -/
def cmp : KType → (Nat → UInt8) → Nat → (Nat → UInt8) → Nat → Int
  | .int => btIntCmp
  | .long => btLongCmp
  | .u128 => btU128Cmp
  | .text => btTextCmp

/-! ## The codec -/

/-- A text that is no longer than its length can tell. -/
def Fits : {t : KType} → Val t → Prop
  | .text, a => List.length (α := UInt8) a < 2147483648
  | _, _ => True

/-- The key `a` is written in as many bytes as are reported, read back and skipped, and compared with
`b` as the values are; whatever follows the two in memory. -/
def Codec {t : KType} (a b : Val t) : Prop :=
  ∃ ka kb, createBTKey a = some ka ∧ createBTKey b = some kb ∧ ka.ksize = ka.btkey.length ∧
    (∀ m o, Stands m o ka.btkey → convertStream2Key t m o = a ∧ skipToVal t m o = ka.ksize) ∧
    ∀ m o m' o', Stands m o ka.btkey → Stands m' o' kb.btkey →
      (cmp t m o m' o' < 0 ↔ a.lt b = true) ∧ (cmp t m o m' o' = 0 ↔ a = b) ∧
        (0 < cmp t m o m' o' ↔ b.lt a = true)

/-- Of two texts that agree up to a byte 0 the shorter one is less. -/
def CutRight : {t : KType} → Val t → Val t → Prop
  | .text, a, b =>
      let s : List UInt8 := a
      let r : List UInt8 := b
      NulCut s r → (s.length < r.length ↔ s < r) ∧ (s.length = r.length ↔ s = r)
  | _, _, _ => True

variable {m : Nat → UInt8} {o : Nat}

/-! ## Numbers -/

/-- The shifted number is still an INT. -/
theorem cIcol_col_lt {l : Nat} (hl : l < 4294967296) : (cIcol l true).col < 4294967296 := by
  unfold cIcol
  split_ifs
  · show l * 2 + 1 < 4294967296
    omega
  · show l * 4 + 2 < 4294967296
    omega
  · show l * 8 + 4 < 4294967296
    omega
  · exact hl
  all_goals contradiction

/-- The key of every INT can be written. -/
theorem cr8BTKInt_some (i : UInt32) :
    cr8BTKInt i = some ⟨numBytes i.toNat true, false, getCSize i.toNat true⟩ := by
  have h := cIcol_col_lt i.toNat_lt
  unfold cr8BTKInt
  rw [if_neg (Nat.not_le.2 h), cIcol_len]
  rfl

theorem cr8BTKLong_eq (l : UInt64) :
    cr8BTKLong l = ⟨numBytes l.toNat false, false, getCSize l.toNat false⟩ := by
  unfold cr8BTKLong
  rw [cIcol_len]
  rfl

theorem streamIntToUInt_of {i : UInt32} (h : Stands m o (numBytes i.toNat true)) :
    streamIntToUInt m o = i := by
  rw [streamIntToUInt, sI2I_numBytes i.toNat_lt h]
  exact UInt32.ofNat_toNat

theorem streamLongToULong_of {l : UInt64} (h : Stands m o (numBytes l.toNat false)) :
    streamLongToULong m o = l := by
  rw [streamLongToULong, sI2I_numBytes l.toNat_lt h]
  exact UInt64.ofNat_toNat

theorem streamToU128_of {x : BitVec 128} (h : Stands m o (le 16 x.toNat)) : streamToU128 m o = x := by
  rw [streamToU128, ofLe_peek h x.isLt]
  exact BitVec.eq_of_toNat_eq (by simp)

/-! ## Texts -/

/-- Behind its length, of one byte or of four, a text is found. -/
theorem streamText_of {s : List UInt8} (hs : s.length < 2147483648)
    (h : Stands m o (cr8BTKText s).btkey) :
    ∃ a, streamText m o = (s.length, a) ∧ Stands m a s ∧ skipToVal .text m o = (cr8BTKText s).ksize := by
  unfold cr8BTKText at h ⊢
  by_cases h7 : s.length < 128
  · rw [if_pos h7] at h ⊢
    obtain ⟨h1, h2⟩ := stands_cons.1 h
    have hn : (m o).toNat = s.length * 2 + 1 := by
      rw [h1, UInt8.toNat_ofNat', Nat.mod_eq_of_lt (by omega)]
    have hf : getSflag (m o) = true := decide_eq_true (by omega)
    refine ⟨o + 1, ?_, h2, ?_⟩
    · rw [streamText, if_pos hf, getTString, hn]
      congr 1
      omega
    · simp only [skipToVal, hf, if_true, getTString, hn]
      omega
  · rw [if_neg h7] at h ⊢
    have hmod : s.length * 2 % 4294967296 = s.length * 2 := Nat.mod_eq_of_lt (by omega)
    obtain ⟨h1, h2⟩ := stands_append.1 h
    rw [length_le] at h2
    have hv : ofLe (peek m o 4) = s.length * 2 := by
      rw [ofLe_peek h1 (by omega), hmod]
    have hf : ¬ getSflag (m o) = true := by
      have he : (m o).toNat = s.length * 2 % 256 := by
        rw [hmod, le] at h1
        rw [(stands_cons.1 h1).1, UInt8.toNat_ofNat']
      have : (m o).toNat % 2 = 0 := by omega
      exact fun ht => absurd (of_decide_eq_true ht) (by omega)
    refine ⟨o + 4, ?_, h2, ?_⟩
    · rw [streamText, if_neg hf, getString, hv]
      congr 1
      omega
    · simp only [skipToVal, if_neg hf, getString, hv]
      omega

/-- `strncmp` reads no further than it is told. -/
theorem strncmp_congr : ∀ (k : List UInt8) (m m' : Nat → UInt8),
    peek m 0 k.length = peek m' 0 k.length → strncmp k m = strncmp k m'
  | [], _, _, _ => rfl
  | c :: k, m, m', h => by
      have shift (m : Nat → UInt8) (o n : Nat) : peek m (o + 1) n = peek (fun i => m (i + 1)) o n := by
        induction n generalizing o with
        | zero => rfl
        | succ n ih => rw [peek, peek, ih]
      rw [List.length_cons, peek, peek, List.cons.injEq, shift, shift] at h
      rw [strncmp, strncmp, h.1, strncmp_congr k _ _ h.2]

theorem peek_take (m : Nat → UInt8) (o : Nat) {n i : Nat} (h : i ≤ n) :
    peek m o i = (peek m o n).take i := by
  obtain ⟨d, rfl⟩ := Nat.exists_eq_add_of_le h
  rw [peek_add, List.take_append_of_le_length (by rw [length_peek]), List.take_of_length_le]
  rw [length_peek]

/-- The two texts are compared as they are, wherever they stand. -/
theorem btTextCmp_eq {m' : Nat → UInt8} {o' : Nat} {s r : List UInt8} (hs : s.length < 2147483648)
    (hr : r.length < 2147483648) (h : Stands m o (cr8BTKText s).btkey)
    (h' : Stands m' o' (cr8BTKText r).btkey) : btTextCmp m o m' o' = Query.btTextCmp s r := by
  obtain ⟨a, ha, hsa, -⟩ := streamText_of hs h
  obtain ⟨b, hb, hrb, -⟩ := streamText_of hr h'
  have hcmp {i : Nat} (hi : i ≤ s.length) (hj : i ≤ r.length) :
      strncmp (peek m a i) (fun k => m' (b + k)) = strncmp (s.take i) (follow r fun _ => 0) := by
    have hp : peek m a i = s.take i := by
      rw [peek_take m a hi]
      exact congrArg (List.take i) hsa
    rw [hp]
    refine strncmp_congr _ _ _ ?_
    rw [List.length_take_of_le hi, peek_add_right, Nat.add_zero, peek_take m' b hj,
      peek_take (follow r fun _ => 0) 0 hj, peek_follow]
    exact congrArg (List.take i) hrb
  unfold btTextCmp Query.btTextCmp
  simp only [ha, hb]
  split
  · rename_i heq
    rw [hcmp le_rfl (Nat.le_of_eq heq), List.take_length]
  · rw [hcmp (Nat.min_le_left _ _) (Nat.min_le_right _ _)]

/-! ## The codec is right -/

variable {t : KType}

theorem ksize_text {s : List UInt8} (hs : s.length < 2147483648) :
    (cr8BTKText s).ksize = (cr8BTKText s).btkey.length := by
  unfold cr8BTKText
  split
  · simp only [List.length_cons]
    omega
  · simp only [List.length_append, length_le]
    omega

/-- A key is written in as many bytes as are reported, read back and skipped. -/
def Reads (k : BTKey) (a : Val t) : Prop :=
  k.ksize = k.btkey.length ∧
    ∀ m o, Stands m o k.btkey → convertStream2Key t m o = a ∧ skipToVal t m o = k.ksize

theorem reads_int (i : UInt32) :
    Reads (t := .int) ⟨numBytes i.toNat true, false, getCSize i.toNat true⟩ i :=
  ⟨(length_numBytes _ _).symm, fun _ _ h =>
    ⟨streamIntToUInt_of h, congrArg Prod.snd (sI2I_numBytes i.toNat_lt h)⟩⟩

theorem reads_long (l : UInt64) : Reads (t := .long) (cr8BTKLong l) l := by
  rw [cr8BTKLong_eq]
  exact ⟨(length_numBytes _ _).symm, fun _ _ h =>
    ⟨streamLongToULong_of h, congrArg Prod.snd (sI2I_numBytes l.toNat_lt h)⟩⟩

theorem reads_text {s : List UInt8} (hs : s.length < 2147483648) :
    Reads (t := .text) (cr8BTKText s) s := by
  refine ⟨ksize_text hs, fun m o h => ?_⟩
  obtain ⟨p, hp, hstand, hskip⟩ := streamText_of hs h
  refine ⟨?_, hskip⟩
  rw [convertStream2Key, hp]
  exact hstand

theorem createBTKey_reads {a : Val t} (ha : Fits a) : ∃ k, createBTKey a = some k ∧ Reads k a := by
  cases t with
  | int => exact ⟨_, cr8BTKInt_some a, reads_int a⟩
  | long => exact ⟨_, rfl, reads_long a⟩
  | u128 => exact ⟨_, rfl, (length_le 16 _).symm, fun m o h => ⟨streamToU128_of h, rfl⟩⟩
  | text => exact ⟨_, rfl, reads_text ha⟩

/-- Two keys are compared as their values. -/
theorem cmp_eq {a b : Val t} (ha : Fits a) (hb : Fits b) {ka kb : BTKey}
    (hka : createBTKey a = some ka) (hkb : createBTKey b = some kb) {m' : Nat → UInt8} {o' : Nat}
    (h : Stands m o ka.btkey) (h' : Stands m' o' kb.btkey) : cmp t m o m' o' = btCmp a b := by
  cases t with
  | int =>
    obtain rfl : _ = ka := Option.some.inj ((cr8BTKInt_some a).symm.trans hka)
    obtain rfl : _ = kb := Option.some.inj ((cr8BTKInt_some b).symm.trans hkb)
    show btIntCmp m o m' o' = _
    rw [btIntCmp, streamIntToUInt_of h, streamIntToUInt_of h']
    rfl
  | long =>
    obtain rfl : _ = ka := Option.some.inj hka
    obtain rfl : _ = kb := Option.some.inj hkb
    have h : Stands m o (numBytes (UInt64.toNat a) false) := h
    have h' : Stands m' o' (numBytes (UInt64.toNat b) false) := h'
    show btLongCmp m o m' o' = _
    rw [btLongCmp, streamLongToULong_of h, streamLongToULong_of h']
    rfl
  | u128 =>
    obtain rfl : _ = ka := Option.some.inj hka
    obtain rfl : _ = kb := Option.some.inj hkb
    show btU128Cmp m o m' o' = _
    rw [btU128Cmp, streamToU128_of h, streamToU128_of h']
    rfl
  | text =>
    obtain rfl : _ = ka := Option.some.inj hka
    obtain rfl : _ = kb := Option.some.inj hkb
    exact btTextCmp_eq ha hb h h'

/-- The order of the values, by the sign of a comparison. -/
def Ordered (z : Int) (a b : Val t) : Prop :=
  (z < 0 ↔ a.lt b = true) ∧ (z = 0 ↔ a = b) ∧ (0 < z ↔ b.lt a = true)

theorem ordered_int (a b : UInt32) : Ordered (btCmp (t := .int) a b) (t := .int) a b := by
  obtain ⟨hn, hz, hp, -⟩ := signed_threeWay (α := UInt32)
    (fun a b => by
      rw [UInt32.lt_iff_toNat_lt, UInt32.lt_iff_toNat_lt, ← UInt32.toNat_inj]
      omega)
    (fun a b => by
      rw [UInt32.lt_iff_toNat_lt, UInt32.lt_iff_toNat_lt]
      omega) a b
  exact ⟨hn.trans decide_eq_true_iff.symm, hz.trans eq_comm, hp.trans decide_eq_true_iff.symm⟩

theorem ordered_long (a b : UInt64) : Ordered (btCmp (t := .long) a b) (t := .long) a b := by
  obtain ⟨hn, hz, hp, -⟩ := signed_threeWay (α := UInt64)
    (fun a b => by
      rw [UInt64.lt_iff_toNat_lt, UInt64.lt_iff_toNat_lt, ← UInt64.toNat_inj]
      omega)
    (fun a b => by
      rw [UInt64.lt_iff_toNat_lt, UInt64.lt_iff_toNat_lt]
      omega) a b
  exact ⟨hn.trans decide_eq_true_iff.symm, hz.trans eq_comm, hp.trans decide_eq_true_iff.symm⟩

theorem ordered_u128 (a b : BitVec 128) : Ordered (btCmp (t := .u128) a b) (t := .u128) a b := by
  obtain ⟨hn, hz, hp, -⟩ := signed_threeWay (α := BitVec 128)
    (fun a b => by
      rw [BitVec.lt_def, BitVec.lt_def, ← BitVec.toNat_inj]
      omega)
    (fun a b => by
      rw [BitVec.lt_def, BitVec.lt_def]
      omega) a b
  exact ⟨hn.trans decide_eq_true_iff.symm, hz.trans eq_comm, hp.trans decide_eq_true_iff.symm⟩

theorem lenCmp_sign (m n : Nat) :
    (lenCmp m n < 0 ↔ m < n) ∧ (lenCmp m n = 0 ↔ m = n) ∧ (0 < lenCmp m n ↔ n < m) := by
  unfold lenCmp
  split
  · omega
  · split <;> omega

theorem ordered_text (s r : List UInt8) :
    Ordered (Query.btTextCmp s r) (t := .text) s r ↔ CutRight (t := .text) s r := by
  by_cases hcut : NulCut s r
  · obtain ⟨hn, hz, hp⟩ := lenCmp_sign s.length r.length
    unfold Ordered
    rw [btTextCmp_nulCut s r hcut, hn, hz, hp]
    have hlt (x y : List UInt8) : Val.lt (t := .text) x y = true ↔ x < y := decide_eq_true_iff
    rw [hlt, hlt]
    constructor
    · rintro ⟨h1, h2, -⟩ -
      exact ⟨h1, h2⟩
    · intro h
      obtain ⟨h1, h2⟩ := h hcut
      refine ⟨h1, h2, ?_⟩
      -- what is neither less nor equal is greater, of lengths and of texts
      constructor
      · intro hl
        by_contra hrs
        by_cases hsr : s < r
        · exact absurd (h1.2 hsr) (Nat.lt_asymm hl)
        · exact absurd (h2.2 (List.le_antisymm hrs hsr)) (Nat.ne_of_gt hl)
      · intro hrs
        rcases Nat.lt_trichotomy s.length r.length with hl | hl | hl
        · exact absurd (List.lt_trans (h1.1 hl) hrs) (List.lt_irrefl s)
        · exact absurd (h2.1 hl ▸ hrs) (List.lt_irrefl r)
        · exact hl
  · obtain ⟨hn, hz, hp, -⟩ := btTextCmp_signed s r hcut
    refine iff_of_true ⟨hn.trans decide_eq_true_iff.symm, hz.trans eq_comm,
      hp.trans decide_eq_true_iff.symm⟩ fun h => absurd h hcut

/-- The values are compared rightly, texts unless they agree up to a byte 0 and their lengths are not
in the order of the texts. -/
theorem ordered_iff (a b : Val t) : Ordered (btCmp a b) a b ↔ CutRight a b := by
  cases t with
  | int => exact iff_of_true (ordered_int a b) trivial
  | long => exact iff_of_true (ordered_long a b) trivial
  | u128 => exact iff_of_true (ordered_u128 a b) trivial
  | text => exact ordered_text a b

/-- Keys are written, read, skipped and compared rightly, texts unless they agree up to a byte 0 and
their lengths are not in their order. -/
theorem codec_iff (t : KType) (a b : Val t) (ha : Fits a) (hb : Fits b) :
    Codec a b ↔ CutRight a b := by
  obtain ⟨ka, hka, hlen, hread⟩ := createBTKey_reads ha
  obtain ⟨kb, hkb, -⟩ := createBTKey_reads hb
  rw [← ordered_iff]
  constructor
  · rintro ⟨ka', kb', hka', hkb', -, -, h⟩
    obtain rfl : ka = ka' := Option.some.inj (hka.symm.trans hka')
    obtain rfl : kb = kb' := Option.some.inj (hkb.symm.trans hkb')
    have hs := stands_follow ka.btkey fun _ => 0
    have hs' := stands_follow kb.btkey fun _ => 0
    have := h _ 0 _ 0 hs hs'
    rwa [cmp_eq ha hb hka hkb hs hs'] at this
  · intro h
    refine ⟨ka, kb, hka, hkb, hlen, hread, fun m o m' o' hs hs' => ?_⟩
    rw [cmp_eq ha hb hka hkb hs hs']
    exact h

theorem fits_text {s : List UInt8} (h : s.length < 2147483648) : Fits (t := .text) s := h

theorem codec_iff_short : Codec (t := .text) ([97] : List UInt8) ([97, 0] : List UInt8) :=
  (codec_iff .text _ _ (fits_text (by decide)) (fits_text (by decide))).2
    (fun h => absurd h (by simp [NulCut]))

/-- Two texts of the same length that part behind a byte 0, "a\0b" and "a\0c", are the same key. -/
theorem not_codec_nul : ¬ Codec (t := .text) ([97, 0, 98] : List UInt8) ([97, 0, 99] : List UInt8) := by
  intro h
  have hcut := (codec_iff .text _ _ (fits_text (by decide)) (fits_text (by decide))).1 h
  have heq := (hcut (by simp [NulCut])).2.1 rfl
  exact absurd heq (by decide)

end AlchemyDB.Format.Key
