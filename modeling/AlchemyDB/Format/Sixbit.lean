/-
# `sixbit.c` — four characters in three bytes

A text over an alphabet of 63 characters is packed with six bits for each of them.
Packing a text with any other character fails; a byte above 127 is a negative `char`
and indexes the memory before the table, which is the fault here.
-/
import AlchemyDB.Lib.Bytes

namespace AlchemyDB.Format

open Bytes

def sixbitchars : List UInt8 :=
  "abcdefghijklmnopqrstuvwxyzABCDEFGHIJKLMNOPQRSTUVWXYZ _+-.,'\"#/\\".toList.map
    fun c => UInt8.ofNat c.toNat

/-- `to_six_bit_strings`, for the characters that are no negative index. -/
def toSix (c : UInt8) : Nat :=
  match sixbitchars.idxOf? c with
  | some i => i + 1
  | none => 0

/-- `from_six_bit_strings`. -/
def fromSix (b : Nat) : UInt8 := if b = 0 then 0 else sixbitchars.getD (b - 1) 0

/-- `six_bit_pack`: the byte that is finished, and the byte that is filled next. -/
def sixBitPack (s_p s_i cur : Nat) : List UInt8 × Nat :=
  match s_i % 4 with
  | 0 => ([], (cur + s_p * 4 % 256) % 256)
  | 1 => ([UInt8.ofNat (cur + s_p / 16)], s_p * 16 % 256)
  | 2 => ([UInt8.ofNat (cur + s_p / 4)], s_p * 64 % 256)
  | _ => ([UInt8.ofNat (cur + s_p)], 0)

/-- The loop of `_createSixBit`: a fault, `NULL`, or the bytes. -/
def packFrom (s_i cur : Nat) : List UInt8 → Option (Option (List UInt8))
  | [] => some (some [UInt8.ofNat cur])
  | c :: s =>
      if c.toNat ≥ 128 then none
      else if toSix c = 0 then some none
      else
        let p := sixBitPack (toSix c) s_i cur
        (packFrom (s_i + 1) p.2 s).map (Option.map (p.1 ++ ·))

def createSixBit (src : List UInt8) : Option (Option (List UInt8)) :=
  if src = [] then some (some []) else packFrom 0 0 src

/-- `six_bit_unpack`: a code, and the address that is read next. -/
def sixBitUnpack (m : Nat → UInt8) (s_i o : Nat) : Nat × Nat :=
  let b1 := (m o).toNat
  let b2 := (m (o + 1)).toNat
  match s_i % 4 with
  | 0 => (b1 / 4, o)
  | 1 => (b1 * 64 % 256 / 4 + b2 / 16, o + 1)
  | 2 => (b1 * 16 % 256 / 4 + b2 / 64, o + 1)
  | _ => (b1 * 4 % 256 / 4, o + 1)

/-- The loop of `unpackSixBit`, for a number of characters. -/
def unpackFrom (m : Nat → UInt8) : Nat → Nat → Nat → List UInt8
  | 0, _, _ => []
  | n + 1, s_i, o =>
      let u := sixBitUnpack m s_i o
      fromSix u.1 :: unpackFrom m n (s_i + 1) u.2

/-- `unpackSixBit`: the characters that are there, from the beginning. -/
def unpackSixBit (m : Nat → UInt8) (o s_len : Nat) : List UInt8 :=
  let u := unpackFrom m (s_len * 4 % 4294967296 / 3) 0 o
  u.take (u.countP (· ≠ 0))

/-! ## Round trip -/

theorem sixbitchars_ascii : sixbitchars.length = 63 ∧ ∀ c ∈ sixbitchars, c ≠ 0 ∧ c.toNat < 128 := by
  decide +kernel

/-- The code of a character is its place in the alphabet. -/
theorem toSix_place {c : UInt8} (h : toSix c ≠ 0) :
    ∃ i, ∃ hi : i < sixbitchars.length, toSix c = i + 1 ∧ sixbitchars[i] = c := by
  unfold toSix at h ⊢
  cases hi : sixbitchars.idxOf? c with
  | none =>
      rw [hi] at h
      exact absurd rfl h
  | some i =>
      obtain ⟨hlt, hc, -⟩ := List.idxOf?_eq_some_iff.1 hi
      exact ⟨i, hlt, rfl, hc⟩

/-- The alphabet is a bijection with the codes 1 to 63. -/
theorem toSix_cases {c : UInt8} (h : toSix c ≠ 0) :
    toSix c < 64 ∧ fromSix (toSix c) = c ∧ c ≠ 0 := by
  obtain ⟨i, hi, hcode, rfl⟩ := toSix_place h
  obtain ⟨hlen, hall⟩ := sixbitchars_ascii
  refine ⟨by omega, ?_, (hall _ (List.getElem_mem hi)).1⟩
  rw [hcode, fromSix, if_neg (Nat.succ_ne_zero i), Nat.add_sub_cancel, List.getD_eq_getElem?_getD,
    List.getElem?_eq_getElem hi, Option.getD_some]

/-- The bits of the byte being filled that later characters leave alone. -/
def grain (s_i : Nat) : Nat :=
  match s_i % 4 with
  | 0 => 256
  | 1 => 4
  | 2 => 16
  | _ => 64

/-- The places of a character in its group of four. -/
theorem mod_four (s_i : Nat) :
    (s_i % 4 = 0 ∧ (s_i + 1) % 4 = 1) ∨ (s_i % 4 = 1 ∧ (s_i + 1) % 4 = 2) ∨
      (s_i % 4 = 2 ∧ (s_i + 1) % 4 = 3) ∨ (s_i % 4 = 3 ∧ (s_i + 1) % 4 = 0) := by
  omega

/-- A byte of the packed text. -/
theorem toNat_byte {n : Nat} (h : n < 256) : (UInt8.ofNat n).toNat = n := by
  rw [UInt8.toNat_ofNat', Nat.mod_eq_of_lt h]

/-- One character: the next byte to be filled is clear below, the finished byte keeps its upper
bits, and with the upper bits of what follows the code is read back. -/
theorem sixBitPack_spec {p s_i cur : Nat} (hp : p < 64) (hc : cur < 256)
    (hg : cur % grain s_i = 0) {f : UInt8} {bs : List UInt8}
    (hf : f.toNat / grain (s_i + 1) = (sixBitPack p s_i cur).2 / grain (s_i + 1)) :
    (∃ f' bs', (sixBitPack p s_i cur).1 ++ f :: bs = f' :: bs' ∧
        f'.toNat / grain s_i = cur / grain s_i) ∧
      ∀ {m : Nat → UInt8} {o : Nat}, Stands m o ((sixBitPack p s_i cur).1 ++ f :: bs) →
        (sixBitUnpack m s_i o).1 = p ∧ Stands m (sixBitUnpack m s_i o).2 (f :: bs) := by
  have hft := f.toNat_lt
  rcases mod_four s_i with ⟨h, h'⟩ | ⟨h, h'⟩ | ⟨h, h'⟩ | ⟨h, h'⟩
  · simp only [grain, sixBitPack, sixBitUnpack, h, h', List.nil_append] at hg hf ⊢
    refine ⟨⟨f, bs, rfl, by omega⟩, fun hs => ⟨?_, hs⟩⟩
    rw [(stands_cons.1 hs).1]
    omega
  · simp only [grain, sixBitPack, sixBitUnpack, h, h', List.cons_append, List.nil_append] at hg hf ⊢
    refine ⟨⟨_, _, rfl, by rw [toNat_byte (by omega)]; omega⟩, fun hs => ?_⟩
    obtain ⟨h1, h2⟩ := stands_cons.1 hs
    refine ⟨?_, h2⟩
    rw [h1, (stands_cons.1 h2).1, toNat_byte (by omega)]
    omega
  · simp only [grain, sixBitPack, sixBitUnpack, h, h', List.cons_append, List.nil_append] at hg hf ⊢
    refine ⟨⟨_, _, rfl, by rw [toNat_byte (by omega)]; omega⟩, fun hs => ?_⟩
    obtain ⟨h1, h2⟩ := stands_cons.1 hs
    refine ⟨?_, h2⟩
    rw [h1, (stands_cons.1 h2).1, toNat_byte (by omega)]
    omega
  · simp only [grain, sixBitPack, sixBitUnpack, h, h', List.cons_append, List.nil_append] at hg hf ⊢
    refine ⟨⟨_, _, rfl, by rw [toNat_byte (by omega)]; omega⟩, fun hs => ?_⟩
    obtain ⟨h1, h2⟩ := stands_cons.1 hs
    refine ⟨?_, h2⟩
    rw [h1, toNat_byte (by omega)]
    omega

theorem sixBitPack_clear {p s_i cur : Nat} (hc : cur < 256)
    (hg : cur % grain s_i = 0) :
    (sixBitPack p s_i cur).2 < 256 ∧ (sixBitPack p s_i cur).2 % grain (s_i + 1) = 0 ∧
      (sixBitPack p s_i cur).1.length + 3 * s_i / 4 = 3 * (s_i + 1) / 4 := by
  rcases mod_four s_i with ⟨h, h'⟩ | ⟨h, h'⟩ | ⟨h, h'⟩ | ⟨h, h'⟩ <;>
    simp only [grain, sixBitPack, h, h', List.length_nil, List.length_cons] at hg ⊢
  · omega
  · omega
  · omega
  · exact ⟨by omega, trivial, by omega⟩

/-- A packed text begins with the byte that was being filled, has six bits for each character, and
is unpacked to its characters; the code behind the last one, where it is asked for, is 0. -/
theorem packFrom_spec : ∀ (s : List UInt8) (s_i cur : Nat) (b : List UInt8),
    cur < 256 → cur % grain s_i = 0 → packFrom s_i cur s = some (some b) →
    (∃ f bs, b = f :: bs ∧ f.toNat / grain s_i = cur / grain s_i) ∧
    b.length + 3 * s_i / 4 = 3 * (s_i + s.length) / 4 + 1 ∧ (∀ c ∈ s, c ≠ 0) ∧
    ∀ m o e, Stands m o b → e = 0 ∨ (e = 1 ∧ ((s_i + s.length) % 4 = 0 ∨ (s_i + s.length) % 4 = 3)) →
      unpackFrom m (s.length + e) s_i o = s ++ List.replicate e 0
  | [], s_i, cur, b, hc, hg, h => by
      cases h
      refine ⟨⟨_, _, rfl, by rw [toNat_byte hc]⟩, ?_, by simp, fun m o e hs he => ?_⟩
      · simp only [List.length_cons, List.length_nil]
        omega
      · rcases he with rfl | ⟨rfl, he⟩
        · rfl
        · have hm : (m o).toNat = cur := by rw [(stands_cons.1 hs).1, toNat_byte hc]
          have hz : (sixBitUnpack m s_i o).1 = 0 := by
            simp only [List.length_nil, Nat.add_zero] at he
            rcases he with he | he <;> simp only [grain, sixBitUnpack, he, hm] at hg ⊢ <;> omega
          simp only [List.length_nil, unpackFrom, hz, fromSix, if_true,
            List.nil_append, List.replicate]
  | c :: s, s_i, cur, b, hc, hg, h => by
      rw [packFrom] at h
      split at h
      · cases h
      split at h
      · cases h
      rename_i hz
      obtain ⟨h64, hfrom, hc0⟩ := toSix_cases hz
      obtain ⟨hl, hgr, hlen⟩ := sixBitPack_clear (p := toSix c) hc hg
      obtain ⟨r, hr, hb⟩ := Option.map_eq_some_iff.1 h
      obtain ⟨b', rfl, rfl⟩ := Option.map_eq_some_iff.1 hb
      obtain ⟨⟨f, bs, rfl, hf⟩, hlen', hne, hun⟩ := packFrom_spec s (s_i + 1) _ b' hl hgr hr
      obtain ⟨hhead, hback⟩ := sixBitPack_spec h64 hc hg hf
      refine ⟨hhead, ?_, ?_, fun m o e hs he => ?_⟩
      · have hi : s_i + (c :: s).length = s_i + 1 + s.length := by
          rw [List.length_cons]
          omega
        rw [List.length_append, hi]
        omega
      · exact fun d hd => (List.mem_cons.1 hd).elim (fun e => e ▸ hc0) (hne d)
      · obtain ⟨hu, hs'⟩ := hback hs
        have hlc : (c :: s).length + e = s.length + e + 1 := by simp only [List.length_cons]; omega
        rw [hlc, unpackFrom, hu, hfrom, List.cons_append]
        refine congrArg (c :: ·) (hun m _ e hs' ?_)
        rw [List.length_cons] at he
        rw [show s_i + 1 + s.length = s_i + (s.length + 1) by omega]
        exact he

theorem length_createSixBit {s b : List UInt8} (hne : s ≠ [])
    (h : createSixBit s = some (some b)) : b.length = 3 * s.length / 4 + 1 := by
  rw [createSixBit, if_neg hne] at h
  obtain ⟨-, hlen, -, -⟩ := packFrom_spec s 0 0 b (by omega) (by simp [grain]) h
  simpa using hlen

/-- What was packed is unpacked, at any address. -/
theorem unpackSixBit_spec {s b : List UInt8} {m : Nat → UInt8} {o : Nat}
    (h : createSixBit s = some (some b)) (hs : Stands m o b) (hb : b.length * 4 < 4294967296) :
    unpackSixBit m o b.length = s := by
  unfold createSixBit at h
  split at h
  · rename_i hnil
    cases h
    subst hnil
    rfl
  obtain ⟨-, hlen, hne, hun⟩ := packFrom_spec s 0 0 b (by omega) (by simp [grain]) h
  unfold unpackSixBit
  rw [Nat.mod_eq_of_lt hb]
  obtain ⟨e, he, hw⟩ : ∃ e, (e = 0 ∨ (e = 1 ∧ ((0 + s.length) % 4 = 0 ∨ (0 + s.length) % 4 = 3))) ∧
      b.length * 4 / 3 = s.length + e := by
    rcases mod_four s.length with ⟨h, -⟩ | ⟨h, -⟩ | ⟨h, -⟩ | ⟨h, -⟩
    · exact ⟨1, .inr ⟨rfl, .inl (by omega)⟩, by omega⟩
    · exact ⟨0, .inl rfl, by omega⟩
    · exact ⟨0, .inl rfl, by omega⟩
    · exact ⟨1, .inr ⟨rfl, .inr (by omega)⟩, by omega⟩
  rw [hw, hun m o e hs he]
  have hall : s.countP (fun c => decide (c ≠ 0)) = s.length := by
    rw [List.countP_eq_length]
    exact fun c hc => decide_eq_true (hne c hc)
  have hzero : (List.replicate e (0 : UInt8)).countP (fun c => decide (c ≠ 0)) = 0 := by
    rw [List.countP_eq_zero]
    intro c hc
    simp [List.eq_of_mem_replicate hc]
  simp only [List.countP_append, hall, hzero, Nat.add_zero, List.take_left']

theorem length_unpackFrom (m : Nat → UInt8) : ∀ n s_i o : Nat, (unpackFrom m n s_i o).length = n
  | 0, _, _ => rfl
  | n + 1, s_i, o => by rw [unpackFrom, List.length_cons, length_unpackFrom m n]

/-- A packed text is read back just when four times its length is a number of 32 bits. -/
theorem unpackSixBit_iff {s b : List UInt8} {m : Nat → UInt8} {o : Nat} (hne : s ≠ [])
    (h : createSixBit s = some (some b)) (hs : Stands m o b) :
    unpackSixBit m o b.length = s ↔ s.length < 1431655764 := by
  have hlen := length_createSixBit hne h
  constructor
  · intro hu
    -- the reader asks for no more characters than the number of 32 bits allows
    have hle : (unpackSixBit m o b.length).length ≤ b.length * 4 % 4294967296 / 3 := by
      unfold unpackSixBit
      rw [List.length_take, length_unpackFrom]
      exact Nat.min_le_right _ _
    rw [hu] at hle
    by_contra hge
    have hbig : 4294967296 ≤ b.length * 4 := by omega
    have hmod : b.length * 4 % 4294967296 ≤ b.length * 4 - 4294967296 := by
      rw [Nat.mod_eq_sub_mod hbig]
      exact Nat.mod_le _ _
    omega
  · intro hlt
    exact unpackSixBit_spec h hs (by omega)

/-! ## Whether a text can be packed -/

/-- A character that is not in the alphabet. -/
def outside (c : UInt8) : Bool := decide (toSix c = 0)

theorem outside_of_ge {c : UInt8} (h : c.toNat ≥ 128) : outside c = true := by
  refine decide_eq_true (by_contra fun hin => ?_)
  obtain ⟨i, hi, -, rfl⟩ := toSix_place hin
  exact absurd (sixbitchars_ascii.2 _ (List.getElem_mem hi)).2 (Nat.not_lt.2 h)

/-- The first character outside the alphabet decides: none, one that is found to be outside, or one
that is a fault. -/
def packable : Option UInt8 → Option Bool
  | none => some true
  | some c => if c.toNat ≥ 128 then none else some false

theorem packFrom_outcome : ∀ (s : List UInt8) (s_i cur : Nat),
    (packFrom s_i cur s).map Option.isSome = packable (s.find? outside)
  | [], _, _ => rfl
  | c :: s, s_i, cur => by
      rw [packFrom, List.find?_cons]
      by_cases hf : c.toNat ≥ 128
      · rw [if_pos hf, outside_of_ge hf]
        simp only [packable, if_pos hf, Option.map_none]
      · rw [if_neg hf]
        by_cases hz : toSix c = 0
        · have ho : outside c = true := decide_eq_true hz
          rw [if_pos hz, ho]
          simp only [packable, if_neg hf, Option.map_some, Option.isSome_none]
        · have ho : outside c = false := decide_eq_false hz
          rw [if_neg hz, ho, ← packFrom_outcome s (s_i + 1) (sixBitPack (toSix c) s_i cur).2]
          simp only [Option.map_map]
          congr 1
          funext r
          cases r <;> rfl

theorem createSixBit_outcome (s : List UInt8) :
    (createSixBit s).map Option.isSome = packable (s.find? outside) := by
  unfold createSixBit
  split
  · rename_i h
    subst h
    rfl
  · exact packFrom_outcome s 0 0

/-- A text is refused just when it has a character outside the alphabet, and is read back, with its
length, when it has none. -/
def SixBitOk (s : List UInt8) : Prop :=
  (createSixBit s = some none ↔ ∃ c ∈ s, outside c = true) ∧
    ((∀ c ∈ s, outside c = false) → ∃ b, createSixBit s = some (some b) ∧
      ∀ m o, Stands m o b → unpackSixBit m o b.length = s)

theorem createSixBit_packed {s : List UInt8} (h : ∀ c ∈ s, outside c = false) :
    ∃ b, createSixBit s = some (some b) := by
  have hnone : s.find? outside = none :=
    List.find?_eq_none.2 fun c hc ho => Bool.noConfusion ((h c hc).symm.trans ho)
  have hout := createSixBit_outcome s
  rw [hnone, packable] at hout
  obtain ⟨r, hr, hsome⟩ := Option.map_eq_some_iff.1 hout
  obtain ⟨b, rfl⟩ := Option.isSome_iff_exists.1 hsome
  exact ⟨b, hr⟩

theorem createSixBit_refused {s : List UInt8} {c : UInt8} (h : s.find? outside = some c) :
    createSixBit s = some none ↔ c.toNat < 128 := by
  have hout := createSixBit_outcome s
  rw [h, packable] at hout
  split at hout
  · rename_i hge
    have hfault : createSixBit s = none := Option.map_eq_none_iff.1 hout
    rw [hfault]
    exact iff_of_false nofun (Nat.not_lt.2 hge)
  · rename_i hlt
    obtain ⟨r, hr, hnone⟩ := Option.map_eq_some_iff.1 hout
    cases r with
    | none => exact ⟨fun _ => Nat.not_le.1 hlt, fun _ => hr⟩
    | some b => cases hnone

/-- The packing does its work unless the first character outside the alphabet is above 127. -/
theorem sixBitOk_iff (s : List UInt8) (hs : s.length < 536870912) :
    SixBitOk s ↔ ∀ c, s.find? outside = some c → c.toNat < 128 := by
  constructor
  · rintro ⟨hrefuse, -⟩ c hc
    exact (createSixBit_refused hc).1
      (hrefuse.2 ⟨c, List.mem_of_find?_eq_some hc, List.find?_some hc⟩)
  · intro h
    refine ⟨⟨fun hnone => ?_, fun hex => ?_⟩, fun hin => ?_⟩
    · -- a text of the alphabet is packed
      by_contra hno
      obtain ⟨b, hb⟩ := createSixBit_packed fun c hc =>
        Bool.eq_false_iff.2 fun ho => hno ⟨c, hc, ho⟩
      rw [hnone] at hb
      cases hb
    · obtain ⟨c, hc⟩ := Option.isSome_iff_exists.1 (List.find?_isSome.2 hex)
      exact (createSixBit_refused hc).2 (h c hc)
    · obtain ⟨b, hb⟩ := createSixBit_packed hin
      refine ⟨b, hb, fun m o hm => unpackSixBit_spec hb hm ?_⟩
      by_cases hne : s = []
      · subst hne
        cases hb
        exact Nat.zero_lt_succ _
      · rw [length_createSixBit hne hb]
        omega

theorem sixBitOk_newline : SixBitOk [97, 10, 200] :=
  (sixBitOk_iff [97, 10, 200] (by decide)).2 (by decide +kernel)

/-- A letter beyond ASCII is a fault, where the packing should be refused. -/
theorem not_sixBitOk_accent : ¬ SixBitOk [195, 169] := by
  rintro ⟨hrefuse, -⟩
  have hfault : createSixBit [195, 169] = none := by decide +kernel
  have := hrefuse.2 ⟨195, by decide, by decide +kernel⟩
  rw [hfault] at this
  cases this

end AlchemyDB.Format
