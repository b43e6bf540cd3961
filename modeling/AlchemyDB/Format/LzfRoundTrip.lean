/-
# What `lzf_compress` wrote, `lzf_decompress` reads

The bytes of a compressed text are those of a stream of runs and references.  While
`lzf_compress` runs, the stream before the open run denotes what was read before it:
this is the invariant `Holds` of every round, and the table of places has no part in
it, since what it refers to is compared.
-/
import AlchemyDB.Lib.Lz
import AlchemyDB.Format.Lzf
import AlchemyDB.Format.Transparent

namespace AlchemyDB.Format

open Bytes

namespace Lzf

/-! ## The bytes of a stream -/

/-- The limits of the two kinds of tokens. -/
def Fits : Lz.Token UInt8 → Prop
  | .run l => 1 ≤ l.length ∧ l.length ≤ 32
  | .ref dist len => 1 ≤ dist ∧ dist ≤ 8192 ∧ 3 ≤ len ∧ len ≤ 264

/-- The bytes of a reference: its offset is one less than the distance. -/
def refBytes (off len : Nat) : List UInt8 :=
  if len < 7 then [UInt8.ofNat (off / 256 + len * 32), UInt8.ofNat off]
  else [UInt8.ofNat (off / 256 + 7 * 32), UInt8.ofNat (len - 7), UInt8.ofNat off]

def tokenBytes : Lz.Token UInt8 → List UInt8
  | .run l => UInt8.ofNat (l.length - 1) :: l
  | .ref dist len => refBytes (dist - 1) (len - 2)

def bytes (ts : List (Lz.Token UInt8)) : List UInt8 := ts.flatMap tokenBytes

theorem bytes_snoc (ts : List (Lz.Token UInt8)) (t : Lz.Token UInt8) :
    bytes (ts ++ [t]) = bytes ts ++ tokenBytes t := by
  simp [bytes]

theorem bytes_ne_nil {ts : List (Lz.Token UInt8)} (h : ts ≠ []) : bytes ts ≠ [] := by
  obtain ⟨t, ts, rfl⟩ := List.exists_cons_of_ne_nil h
  have ht : tokenBytes t ≠ [] := by
    cases t with
    | run l => exact List.cons_ne_nil _ _
    | ref dist len =>
        simp only [tokenBytes, refBytes]
        split
        · exact List.cons_ne_nil _ _
        · exact List.cons_ne_nil _ _
  simp [bytes, ht]

theorem toNat_ofNat_lt {n : Nat} (h : n < 256) : (UInt8.ofNat n).toNat = n := by
  rw [UInt8.toNat_ofNat']
  exact Nat.mod_eq_of_lt h

/-! ## Reading a stream -/

theorem copyRef_eq : ∀ (n ref : Nat) (out : List UInt8), copyRef ref n out = Lz.copy ref n out
  | 0, _, _ => rfl
  | n + 1, ref, out => by
      rw [copyRef, Lz.copy]
      congr 1
      funext b
      exact copyRef_eq n (ref + 1) (out ++ [b])

section Reading

variable {outLen : Nat} {out out' : List UInt8}

theorem token_run {l : List UInt8} (ht : Fits (.run l)) (hle : (out ++ l).length ≤ outLen)
    (post : List UInt8) :
    token outLen (UInt8.ofNat (l.length - 1)) (l ++ post) out = some (some (post, out ++ l)) := by
  obtain ⟨h1, h2⟩ := ht
  have hctrl : (UInt8.ofNat (l.length - 1)).toNat = l.length - 1 := toNat_ofNat_lt (by omega)
  have hrun : l.length - 1 + 1 = l.length := by omega
  rw [List.length_append] at hle
  have hpost : ¬ (l ++ post).length < l.length := by simp
  unfold token
  rw [if_pos (by omega)]
  simp only [hctrl, hrun]
  rw [if_neg (by omega), if_neg hpost, List.drop_left, List.take_left]

theorem backRef_eq {dist len : Nat} (hle : out.length + len + 2 ≤ outLen) (hdist : dist ≤ out.length)
    (hw : Lz.copy (out.length - dist) (len + 2) out = some out') (post : List UInt8) :
    backRef outLen dist len post out = some (some (post, out')) := by
  rw [backRef, if_neg (by omega), if_neg (by omega), copyRef_eq, hw]
  rfl

theorem token_short {off len : Nat} (hoff : off < 8192) (h1 : 1 ≤ len) (h7 : len < 7)
    (hle : out.length + len + 2 ≤ outLen) (hdist : off + 1 ≤ out.length)
    (hw : Lz.copy (out.length - (off + 1)) (len + 2) out = some out') (post : List UInt8) :
    token outLen (UInt8.ofNat (off / 256 + len * 32)) (UInt8.ofNat off :: post) out =
      some (some (post, out')) := by
  have hctrl : (UInt8.ofNat (off / 256 + len * 32)).toNat = off / 256 + len * 32 :=
    toNat_ofNat_lt (by omega)
  have hlen : (off / 256 + len * 32) / 32 = len := by omega
  have hd : (off / 256 + len * 32) % 32 * 256 + 1 + off % 256 = off + 1 := by omega
  unfold token
  rw [if_neg (by omega)]
  simp only [hctrl, hlen, UInt8.toNat_ofNat', Nat.reducePow]
  rw [if_neg (show ¬ len = 7 by omega)]
  simp only [if_neg (show ¬ len = 7 by omega), UInt8.toNat_ofNat', Nat.reducePow, hd]
  exact backRef_eq hle hdist hw post

theorem token_long {off len : Nat} (hoff : off < 8192) (h7 : 7 ≤ len) (h262 : len ≤ 262)
    (hle : out.length + len + 2 ≤ outLen) (hdist : off + 1 ≤ out.length)
    (hw : Lz.copy (out.length - (off + 1)) (len + 2) out = some out') (post : List UInt8) :
    token outLen (UInt8.ofNat (off / 256 + 7 * 32))
        (UInt8.ofNat (len - 7) :: UInt8.ofNat off :: post) out = some (some (post, out')) := by
  have hctrl : (UInt8.ofNat (off / 256 + 7 * 32)).toNat = off / 256 + 7 * 32 :=
    toNat_ofNat_lt (by omega)
  have hlen : (off / 256 + 7 * 32) / 32 = 7 := by omega
  have hmore : (UInt8.ofNat (len - 7)).toNat = len - 7 := toNat_ofNat_lt (by omega)
  have hsum : 7 + (len - 7) = len := by omega
  have hd : (off / 256 + 7 * 32) % 32 * 256 + 1 + off % 256 = off + 1 := by omega
  unfold token
  rw [if_neg (by omega)]
  simp only [hctrl, hlen, if_true, hmore, hsum, UInt8.toNat_ofNat', Nat.reducePow, hd]
  exact backRef_eq hle hdist hw post

/-- The bytes of a token are read as the token. -/
theorem token_bytes {t : Lz.Token UInt8} (ht : Fits t) (hw : Lz.write out t = some out')
    (hle : out'.length ≤ outLen) : ∃ ctrl ip, tokenBytes t = ctrl :: ip ∧
      ∀ post, token outLen ctrl (ip ++ post) out = some (some (post, out')) := by
  cases t with
  | run l =>
      obtain rfl := Option.some.inj hw
      exact ⟨_, l, rfl, token_run ht hle⟩
  | ref dist len =>
      obtain ⟨hd1, hd2, hl1, hl2⟩ := ht
      obtain ⟨hdist, hw⟩ := Lz.write_ref.1 hw
      have hlen := Lz.copy_length hw
      obtain ⟨off, rfl⟩ : ∃ off, dist = off + 1 := ⟨dist - 1, by omega⟩
      obtain ⟨n, rfl⟩ : ∃ n, len = n + 2 := ⟨len - 2, by omega⟩
      simp only [tokenBytes, refBytes, Nat.add_sub_cancel]
      by_cases h7 : n < 7
      · rw [if_pos h7]
        exact ⟨_, [UInt8.ofNat off], rfl,
          token_short (by omega) (by omega) h7 (by omega) hdist hw⟩
      · rw [if_neg h7]
        exact ⟨_, [UInt8.ofNat (n - 7), UInt8.ofNat off], rfl,
          token_long (by omega) (by omega) (by omega) (by omega) hdist hw⟩

/-- The bytes of a stream are read as what it denotes. -/
theorem decode_bytes : ∀ {ts : List (Lz.Token UInt8)} {out : List UInt8}, (∀ t ∈ ts, Fits t) →
    ts ≠ [] → ts.foldlM Lz.write out = some out' → out'.length ≤ outLen →
      ∀ {n : Nat}, (bytes ts).length ≤ n → decode outLen n (bytes ts) out = some (some out')
  | [], _, _, hne, _, _, _, _ => absurd rfl hne
  | t :: ts, out, hfit, _, hw, hle, n, hn => by
      obtain ⟨out₁, hw₁, hw⟩ := Option.bind_eq_some_iff.1 hw
      obtain ⟨ht, hts⟩ := List.forall_mem_cons.1 hfit
      obtain ⟨ctrl, ip, hb, hread⟩ := token_bytes ht hw₁ ((Lz.writes_length hw).trans hle)
      have hcons : bytes (t :: ts) = ctrl :: (ip ++ bytes ts) := by
        rw [bytes, List.flatMap_cons, hb]
        rfl
      rw [hcons] at hn ⊢
      cases n with
      | zero => exact absurd hn (by simp)
      | succ n =>
          simp only [decode, hread]
          cases ts with
          | nil =>
              cases hw
              exact if_pos rfl
          | cons u us =>
              rw [if_neg (bytes_ne_nil (List.cons_ne_nil u us))]
              refine decode_bytes hts (List.cons_ne_nil _ _) hw hle ?_
              simp only [List.length_cons, List.length_append] at hn
              omega

end Reading

/-! ## The bytes that a reference covers -/

section Covered

variable {s : List UInt8} {ref ip : Nat}

/-- `k` bytes at two places are the same. -/
def Same (s : List UInt8) (ref ip k : Nat) : Prop :=
  ∀ i < k, byteAt s (ref + i) = byteAt s (ip + i)

theorem Same.succ {k : Nat} (h : Same s ref ip k)
    (hk : byteAt s (ref + k) = byteAt s (ip + k)) : Same s ref ip (k + 1) := by
  intro i hi
  rcases Nat.lt_succ_iff_lt_or_eq.1 hi with hi | rfl
  · exact h i hi
  · exact hk

theorem unrolled_spec : ∀ {n len : Nat}, Same s ref ip (len + 1) →
    ((unrolled s ref ip n len).2 = true → len < (unrolled s ref ip n len).1 ∧
      (unrolled s ref ip n len).1 ≤ len + n ∧ Same s ref ip (unrolled s ref ip n len).1) ∧
    ((unrolled s ref ip n len).2 = false → (unrolled s ref ip n len).1 = len + n ∧
      Same s ref ip (len + n + 1))
  | 0, len, h => ⟨(fun hf => nomatch hf), fun _ => ⟨rfl, h⟩⟩
  | n + 1, len, h => by
      unfold unrolled
      split
      · next heq =>
        obtain ⟨h1, h2⟩ := unrolled_spec (n := n) (h.succ heq)
        refine ⟨fun ht => ?_, fun hf => ?_⟩
        · obtain ⟨ha, hb, hc⟩ := h1 ht
          exact ⟨by omega, by omega, hc⟩
        · obtain ⟨ha, hb⟩ := h2 hf
          rw [Nat.add_right_comm len 1 n] at hb
          exact ⟨by omega, hb⟩
      · exact ⟨fun _ => ⟨Nat.lt_succ_self len, by omega, h⟩, fun hf => by cases hf⟩

theorem doWhile_spec (maxlen : Nat) : ∀ {n len : Nat}, Same s ref ip (len + 1) →
    len ≤ doWhile s ref ip maxlen n len ∧
      (n ≠ 0 → len < doWhile s ref ip maxlen n len) ∧
      doWhile s ref ip maxlen n len ≤ max (len + 1) maxlen ∧
      Same s ref ip (doWhile s ref ip maxlen n len)
  | 0, len, h => ⟨Nat.le_refl len, fun hn => absurd rfl hn, by unfold doWhile; omega,
      fun i hi => h i (Nat.lt_succ_of_lt hi)⟩
  | n + 1, len, h => by
      unfold doWhile
      split
      · next hc =>
        obtain ⟨h1, -, h3, h4⟩ := doWhile_spec maxlen (n := n) (h.succ hc.2)
        exact ⟨by omega, fun _ => by omega, by omega, h4⟩
      · exact ⟨Nat.le_succ len, fun _ => Nat.lt_succ_self len, Nat.le_max_left _ _, h⟩

/-- A reference covers three bytes or more, no more than can be written, and none behind the input. -/
theorem matchLen_spec (h4 : ip + 4 < s.length) (h : Same s ref ip 3) :
    3 ≤ matchLen s ref ip ∧ matchLen s ref ip ≤ maxRef ∧ ip + matchLen s ref ip ≤ s.length ∧
      Same s ref ip (matchLen s ref ip) := by
  unfold matchLen
  set maxlen := if s.length - ip - 2 > maxRef then maxRef else s.length - ip - 2 with hm
  have hle : maxlen ≤ s.length - ip - 2 ∧ maxlen ≤ maxRef ∧ 3 ≤ maxlen := by
    rw [hm, maxRef]
    split
    · omega
    · omega
  obtain ⟨hle, href, hge⟩ := hle
  rw [maxRef] at *
  dsimp only
  split
  · next h16 =>
    obtain ⟨h1, h2⟩ := unrolled_spec (n := 16) h
    cases hu : unrolled s ref ip 16 2 with
    | mk len b =>
        rw [hu] at h1 h2
        cases b with
        | true =>
            obtain ⟨ha, hb, hc⟩ := h1 rfl
            exact ⟨ha, by simp only at hb ⊢; omega, by simp only at hb ⊢; omega, hc⟩
        | false =>
            obtain ⟨ha, hb⟩ := h2 rfl
            simp only at ha
            subst ha
            obtain ⟨hx, -, hy, hz⟩ := doWhile_spec maxlen (n := maxlen + 1) hb
            exact ⟨by simp only; omega, by simp only; omega, by simp only; omega, hz⟩
  · obtain ⟨-, hx, hy, hz⟩ := doWhile_spec maxlen (n := maxlen + 1) h
    have hx := hx (Nat.succ_ne_zero _)
    exact ⟨hx, by omega, by omega, hz⟩

theorem getElem?_byteAt {p q : Nat} (hp : p < s.length) (hq : q < s.length)
    (h : byteAt s p = byteAt s q) : s[p]? = s[q]? := by
  simp only [byteAt, List.getD_eq_getElem?_getD, List.getElem?_eq_getElem hp,
    List.getElem?_eq_getElem hq, Option.getD_some] at h
  rw [List.getElem?_eq_getElem hp, List.getElem?_eq_getElem hq, h]

end Covered

/-! ## The output while it is written -/

section Output

variable {e : Enc} {l : List UInt8}

theorem stands_poke_above {m : Nat → UInt8} {o a : Nat} {bs : List UInt8} (h : Stands m o bs)
    (ha : o + bs.length ≤ a) (b : UInt8) : Stands (poke m a [b]) o bs := by
  have hc : peek (poke m a [b]) o bs.length = peek m o bs.length :=
    peek_congr fun i _ hi => if_pos (by omega)
  exact hc.trans h

theorem stands_poke_below {m : Nat → UInt8} {o a : Nat} {bs : List UInt8} (h : Stands m o bs)
    (ha : a < o) (b : UInt8) : Stands (poke m a [b]) o bs := by
  have hc : peek (poke m a [b]) o bs.length = peek m o bs.length := by
    refine peek_congr fun i hi _ => ?_
    rw [poke, if_neg (by omega), List.getElem?_eq_none (by simp; omega)]
    rfl
  exact hc.trans h

/-- The output is `l`. -/
structure Wrote (l : List UInt8) (e : Enc) : Prop where
  op : e.op = l.length
  stands : Stands e.mem 0 l

/-- A byte behind the output. -/
theorem Wrote.out (h : Wrote l e) (b : UInt8) : Wrote (l ++ [b]) (e.out b) where
  op := by
    rw [List.length_append, ← h.op]
    rfl
  stands := by
    refine stands_append.2 ⟨stands_poke_above h.stands (by rw [h.op]; omega) b, ?_⟩
    rw [Nat.zero_add, ← h.op]
    exact stands_poke _ _ _

@[simp] theorem put_top (i : Nat) (b : UInt8) : (e.put i b).top = max e.top (i + 1) := rfl

@[simp] theorem put_op (i : Nat) (b : UInt8) : (e.put i b).op = e.op := rfl

@[simp] theorem out_top (b : UInt8) : (e.out b).top = max e.top (e.op + 1) := rfl

@[simp] theorem out_op (b : UInt8) : (e.out b).op = e.op + 1 := rfl

@[simp] theorem out_ip (b : UInt8) : (e.out b).ip = e.ip := rfl

theorem outRef_ip (off len : Nat) : (e.outRef off len).ip = e.ip := by
  unfold Enc.outRef
  split
  · rfl
  · rfl

theorem Wrote.outRef (h : Wrote l e) (off len : Nat) :
    Wrote (l ++ refBytes off len) (e.outRef off len) := by
  unfold Enc.outRef refBytes
  split
  · have h2 := (h.out (UInt8.ofNat (off / 256 + len * 32))).out (UInt8.ofNat off)
    rwa [List.append_assoc] at h2
  · have h3 := ((h.out (UInt8.ofNat (off / 256 + 7 * 32))).out (UInt8.ofNat (len - 7))).out
      (UInt8.ofNat off)
    rwa [List.append_assoc, List.append_assoc] at h3

/-- A reference takes three bytes at the most. -/
theorem outRef_bounds (off len : Nat) : (e.outRef off len).top ≤ max e.top (e.op + 3) ∧
    (e.outRef off len).op ≤ e.op + 3 := by
  unfold Enc.outRef
  split
  · simp only [out_top, out_op]
    omega
  · simp only [out_top, out_op]
    omega

end Output

/-! ## The runs of a stream -/

section Runs

variable {s : List UInt8} {ts : List (Lz.Token UInt8)} {p : Nat} {e : Enc}

/-- The stream before the open run denotes what was read before `p`, and the bytes from `p` on stand
in the run. -/
structure Run (s : List UInt8) (ts : List (Lz.Token UInt8)) (p : Nat) (e : Enc) : Prop where
  fits : ∀ t ∈ ts, Fits t
  upto : Lz.Upto s ts p
  ip : e.ip = p + e.lit
  le : e.ip ≤ s.length
  op : e.op = (bytes ts).length + 1 + e.lit
  stands : Stands e.mem 0 (bytes ts)
  run : Stands e.mem ((bytes ts).length + 1) ((s.drop p).take e.lit)

/-- No run is open. -/
structure Closed (s : List UInt8) (ts : List (Lz.Token UInt8)) (e : Enc) : Prop where
  fits : ∀ t ∈ ts, Fits t
  upto : Lz.Upto s ts e.ip
  le : e.ip ≤ s.length
  wrote : Wrote (bytes ts) e

theorem Closed.startRun (h : Closed s ts e) : Run s ts e.ip e.startRun where
  fits := h.fits
  upto := h.upto
  ip := rfl
  le := h.le
  op := congrArg (· + 1) h.wrote.op
  stands := h.wrote.stands
  run := rfl

theorem Run.length_run (R : Run s ts p e) : ((s.drop p).take e.lit).length = e.lit := by
  have h1 := R.ip
  have h2 := R.le
  rw [List.length_take, List.length_drop]
  omega

theorem Run.place (R : Run s ts p e) : e.op - e.lit - 1 = (bytes ts).length := by
  have := R.op
  omega

/-- One more byte in the open run. -/
theorem Run.more (R : Run s ts p e) (h : e.ip < s.length) :
    Run s ts p { e.out (byteAt s e.ip) with lit := e.lit + 1, ip := e.ip + 1 } := by
  have hlen := R.length_run
  have hnext : (s.drop p).take (e.lit + 1) = (s.drop p).take e.lit ++ [byteAt s e.ip] := by
    have hget : (s.drop p)[e.lit]? = some (byteAt s e.ip) := by
      rw [List.getElem?_drop, ← R.ip, List.getElem?_eq_getElem h, byteAt,
        List.getD_eq_getElem?_getD, List.getElem?_eq_getElem h]
      rfl
    rw [List.take_add_one, hget]
    rfl
  refine ⟨R.fits, R.upto, by rw [R.ip, Nat.add_assoc], h, by rw [out_op, R.op, Nat.add_assoc], ?_, ?_⟩
  · exact stands_poke_above R.stands (by rw [R.op]; omega) _
  · rw [hnext]
    refine stands_append.2 ⟨stands_poke_above R.run (by rw [hlen, R.op]) _, ?_⟩
    rw [hlen, ← R.op]
    exact stands_poke _ _ _

/-- The length is written in front of a run of some bytes. -/
theorem Run.stop (R : Run s ts p e) (h0 : e.lit ≠ 0) (h32 : e.lit ≤ 32) :
    Closed s (ts ++ [.run ((s.drop p).take e.lit)]) e.stopRun := by
  have hlen := R.length_run
  have hbytes : bytes (ts ++ [.run ((s.drop p).take e.lit)]) =
      bytes ts ++ UInt8.ofNat (e.lit - 1) :: (s.drop p).take e.lit := by
    rw [bytes_snoc, tokenBytes, hlen]
  have hctrl : UInt8.ofNat (e.lit + 255) = UInt8.ofNat (e.lit - 1) := by
    refine UInt8.toNat_inj.1 ?_
    rw [UInt8.toNat_ofNat', UInt8.toNat_ofNat']
    omega
  have hmem : e.stopRun.mem = poke e.mem (bytes ts).length [UInt8.ofNat (e.lit - 1)] := by
    rw [← R.place, ← hctrl]
    rfl
  refine ⟨?_, ?_, R.le, ?_, ?_⟩
  · intro t ht
    rcases List.mem_append.1 ht with ht | ht
    · exact R.fits t ht
    · rw [List.mem_singleton.1 ht, Fits, hlen]
      omega
  · have hu := R.upto.run e.lit
    rwa [← R.ip] at hu
  · rw [hbytes, List.length_append, List.length_cons, hlen]
    have hop : e.stopRun.op = e.op := rfl
    have := R.op
    omega
  · rw [hbytes, hmem]
    refine stands_append.2 ⟨stands_poke_above R.stands (by omega) _, ?_⟩
    rw [Nat.zero_add]
    refine stands_cons.2 ⟨?_, stands_poke_below R.run (Nat.lt_succ_self _) _⟩
    exact (stands_cons.1 (stands_poke e.mem (bytes ts).length [UInt8.ofNat (e.lit - 1)])).1

/-- A run of no bytes is undone. -/
theorem Run.undo (R : Run s ts p e) (h0 : e.lit = 0) : Closed s ts e.stopRun.undoRun := by
  have hmem : e.stopRun.undoRun = { e.stopRun with op := e.op - 1 } := if_pos h0
  have hop := R.op
  have hip := R.ip
  have hplace := R.place
  rw [hmem]
  refine ⟨R.fits, ?_, R.le, ?_, ?_⟩
  · have hp : e.ip = p := by omega
    exact hp ▸ R.upto
  · simp only
    omega
  · exact stands_poke_above R.stands (by omega) _

/-- The end of a run, of some bytes or of none. -/
theorem Run.close (R : Run s ts p e) (h32 : e.lit ≤ 32) :
    ∃ ts', Closed s ts' e.stopRun.undoRun := by
  by_cases h0 : e.lit = 0
  · exact ⟨ts, R.undo h0⟩
  · have hsame : e.stopRun.undoRun = e.stopRun := if_neg h0
    rw [hsame]
    exact ⟨_, R.stop h0 h32⟩

theorem Run.copyLit (R : Run s ts p e) (hl : e.lit < 32) (h : e.ip < s.length) :
    ∃ ts' p', Run s ts' p' (e.copyLit s) := by
  have R' := R.more h
  unfold Enc.copyLit
  dsimp only
  split
  · exact ⟨_, _, (R'.stop (Nat.succ_ne_zero _) hl).startRun⟩
  · exact ⟨ts, p, R'⟩

/-- A reference to bytes that are the same. -/
theorem Closed.outRef (C : Closed s ts e) (off len n : Nat) (hoff : off < 8192)
    (hdist : off + 1 ≤ e.ip) (hlen : len + 2 ≤ 264) (h3 : 3 ≤ len + 2)
    (hle : e.ip + (len + 2) ≤ s.length) (hsame : Same s (e.ip - (off + 1)) e.ip (len + 2))
    (hn : n = e.ip + (len + 2)) :
    Closed s (ts ++ [.ref (off + 1) (len + 2)]) { e.outRef off len with ip := n } := by
  subst hn
  have hw := C.wrote.outRef off len
  refine ⟨?_, ?_, hle, ?_⟩
  · intro t ht
    rcases List.mem_append.1 ht with ht | ht
    · exact C.fits t ht
    · rw [List.mem_singleton.1 ht]
      exact ⟨by omega, by omega, h3, hlen⟩
  · refine C.upto.ref (Nat.succ_pos off) hdist hle fun k hk => ?_
    exact getElem?_byteAt (by omega) (by omega) (hsame k hk)
  · have hb : bytes (ts ++ [.ref (off + 1) (len + 2)]) = bytes ts ++ refBytes off len := by
      rw [bytes_snoc, tokenBytes, Nat.add_sub_cancel, Nat.add_sub_cancel]
    rw [hb]
    exact ⟨hw.op, hw.stands⟩

end Runs

/-! ## The rounds -/

section Rounds

variable {s : List UInt8} {outLen : Nat} {e : Enc}

/-- The limits of the output hold, but for the byte in front of an open run. -/
structure Fine (outLen : Nat) (e : Enc) : Prop where
  lit : e.lit < 32
  op : e.lit + 1 ≤ e.op
  room : e.op ≤ outLen + 1
  top : e.top ≤ outLen

/-- What holds between two rounds. -/
structure Holds (s : List UInt8) (outLen : Nat) (e : Enc) : Prop where
  run : ∃ ts p, Run s ts p e
  fine : Fine outLen e

/-- What a round comes to, from a place of the input on. -/
def Round.Keeps (s : List UInt8) (outLen ip : Nat) : Round → Prop
  | .full e => e.top ≤ outLen + 1
  | .done e => s.length ≤ e.ip + 2 ∧ Holds s outLen e
  | .go e => ip < e.ip ∧ Holds s outLen e

theorem copyLit_ip (s : List UInt8) (e : Enc) : (e.copyLit s).ip = e.ip + 1 := by
  unfold Enc.copyLit
  dsimp only
  split
  · rfl
  · rfl

/-- The output of a round that copies a byte; a full run costs the place of the next length. -/
theorem copyLit_out (s : List UInt8) (e : Enc) :
    (e.copyLit s).op = e.op + 1 + (if e.lit + 1 = 32 then 1 else 0) ∧
    (e.copyLit s).lit = (if e.lit + 1 = 32 then 0 else e.lit + 1) ∧
    (e.copyLit s).top ≤ max e.top (e.op + 1) := by
  unfold Enc.copyLit
  dsimp only
  rw [maxLit]
  split
  · refine ⟨rfl, rfl, ?_⟩
    show max (max e.top (e.op + 1)) (e.op + 1 - (e.lit + 1) - 1 + 1) ≤ _
    omega
  · exact ⟨rfl, rfl, le_rfl⟩

theorem Holds.copyLit (H : Holds s outLen e) (h : e.ip < s.length) (hop : e.op < outLen) :
    Holds s outLen (e.copyLit s) := by
  obtain ⟨ts, p, R⟩ := H.run
  obtain ⟨h1, h2, h3⟩ := copyLit_out s e
  have hl := H.fine.lit
  have hr := H.fine.op
  have ht := H.fine.top
  refine ⟨R.copyLit hl h, ?_⟩
  split at h1
  · next hc =>
    rw [if_pos hc] at h2
    exact ⟨by omega, by omega, by omega, by omega⟩
  · next hc =>
    rw [if_neg hc] at h2
    exact ⟨by omega, by omega, by omega, by omega⟩

/-- The place of the output when a run ends. -/
theorem close_op (hf : e.lit + 1 ≤ e.op) : e.stopRun.undoRun.top = max e.top (e.op - e.lit) ∧
    e.stopRun.undoRun.op ≤ e.op ∧ e.op ≤ e.stopRun.undoRun.op + 1 ∧
    (e.lit = 0 → e.stopRun.undoRun.op + 1 = e.op) ∧ e.stopRun.undoRun.ip = e.ip := by
  have hplace : e.op - e.lit - 1 + 1 = e.op - e.lit := by omega
  have htop : e.stopRun.top = max e.top (e.op - e.lit) := by
    rw [← hplace]
    rfl
  have hop : e.stopRun.op = e.op := rfl
  by_cases h0 : e.lit = 0
  · have hs : e.stopRun.undoRun = { e.stopRun with op := e.stopRun.op - 1 } := if_pos h0
    rw [hs]
    exact ⟨htop, by simp only; omega, by simp only; omega, fun _ => by simp only; omega, rfl⟩
  · have hs : e.stopRun.undoRun = e.stopRun := if_neg h0
    rw [hs]
    exact ⟨htop, by omega, by omega, fun h => absurd h h0, rfl⟩

theorem refer_eq (e : Enc) (off len : Nat) : e.refer off len =
    Enc.startRun { e.outRef off len with ip := e.ip + 1 + (len + 1) } := by
  unfold Enc.refer Enc.outRef
  dsimp only
  split
  · rfl
  · rfl

theorem rehash_ip (h : 2 ≤ e.ip) : (e.rehash s).ip = e.ip := by
  show e.ip - 2 + 1 + 1 = e.ip
  omega

/-- The entries behind a reference change nothing but the table. -/
theorem Holds.rehash (H : Holds s outLen e) (h : 2 ≤ e.ip) : Holds s outLen (e.rehash s) := by
  obtain ⟨⟨ts, p, R⟩, F⟩ := H
  have hip := rehash_ip (s := s) h
  exact ⟨⟨ts, p, R.fits, R.upto, hip.trans R.ip, hip.le.trans R.le, R.op, R.stands, R.run⟩,
    F.lit, F.op, F.room, F.top⟩

/-- What is compared before something is referred to. -/
theorem found_iff {ip ref : Nat} : found s ip ref = true ↔
    ref < ip ∧ ip - ref - 1 < maxOff ∧ ip + 4 < s.length ∧ 0 < ref ∧ Same s ref ip 3 := by
  have h3 : Same s ref ip 3 ↔ byteAt s ref = byteAt s ip ∧
      byteAt s (ref + 1) = byteAt s (ip + 1) ∧ byteAt s (ref + 2) = byteAt s (ip + 2) := by
    constructor
    · exact fun h => ⟨h 0 (by decide), h 1 (by decide), h 2 (by decide)⟩
    · rintro ⟨h0, h1, h2⟩ i hi
      match i, hi with
      | 0, _ => exact h0
      | 1, _ => exact h1
      | 2, _ => exact h2
  rw [h3]
  simp only [found, Bool.and_eq_true, decide_eq_true_eq, and_assoc]

theorem reference_keeps (H : Holds s outLen e) {ref : Nat} (hf : found s e.ip ref = true) :
    (reference s outLen ref e).Keeps s outLen e.ip := by
  obtain ⟨hlt, hoff, h4, -, hsame⟩ := found_iff.1 hf
  rw [maxOff] at hoff
  obtain ⟨hm3, hmax, hmle, hm⟩ := matchLen_spec h4 hsame
  rw [maxRef] at hmax
  obtain ⟨⟨ts, p, R⟩, F⟩ := H
  obtain ⟨hl, ho, hr, ht⟩ := F
  obtain ⟨ts', C⟩ := R.close hl.le
  obtain ⟨hctop, hcop, hcop', hc0, hcip⟩ := close_op ho
  unfold reference
  dsimp only
  split
  · -- no room: the length of a run of no bytes may have been written behind the buffer
    show e.stopRun.undoRun.top ≤ outLen + 1
    omega
  · next hroom =>
    have hctop' : e.stopRun.undoRun.top ≤ outLen := by
      by_cases h0 : e.lit = 0
      · have := hc0 h0
        omega
      · omega
    set c := e.stopRun.undoRun with hc
    obtain ⟨n, hn⟩ : ∃ n, matchLen s ref c.ip = n + 2 := ⟨matchLen s ref c.ip - 2, by
      rw [hcip]
      omega⟩
    rw [hcip] at hn
    rw [hcip, hn, Nat.add_sub_cancel]
    rw [hn] at hm3 hmax hmle hm
    have hd : c.ip - (e.ip - ref - 1 + 1) = ref := by omega
    have hend : c.ip + 1 + (n + 1) = e.ip + (n + 2) := by omega
    have C' := C.outRef (e.ip - ref - 1) n (c.ip + 1 + (n + 1)) hoff (by omega) (by omega) (by omega)
      (by omega) (by rw [hd, hcip]; exact hm) (by omega)
    have hip : (c.refer (e.ip - ref - 1) n).ip = e.ip + (n + 2) := by
      rw [refer_eq, ← hend]
      rfl
    have hholds : Holds s outLen (c.refer (e.ip - ref - 1) n) := by
      obtain ⟨hb1, hb2⟩ := outRef_bounds (e := c) (e.ip - ref - 1) n
      rw [refer_eq]
      refine ⟨⟨_, _, C'.startRun⟩, Nat.zero_lt_succ 31, Nat.succ_le_succ (Nat.zero_le _), ?_, ?_⟩
      · show (c.outRef _ _).op + 1 ≤ outLen + 1
        omega
      · show (c.outRef _ _).top ≤ outLen
        omega
    split
    · next hlast => exact ⟨hlast, hholds⟩
    · refine ⟨?_, hholds.rehash (by omega)⟩
      rw [rehash_ip (by omega), hip]
      omega

/-- A round keeps what holds, and reads on. -/
theorem round_keeps (H : Holds s outLen e) (hip : e.ip + 2 < s.length) :
    (round s outLen e).Keeps s outLen e.ip := by
  set e₁ := Enc.enter { e with hval := next e.hval s e.ip } with he₁
  have H₁ : Holds s outLen e₁ := by
    obtain ⟨⟨ts, p, R⟩, F⟩ := H
    exact ⟨⟨ts, p, R.fits, R.upto, R.ip, R.le, R.op, R.stands, R.run⟩, F.lit, F.op, F.room, F.top⟩
  have hround : round s outLen e =
      branch s outLen e₁ ((e.htab (idx (next e.hval s e.ip))).filter (found s e.ip)) := rfl
  rw [hround]
  cases hs : (e.htab (idx (next e.hval s e.ip))).filter (found s e.ip) with
  | some ref => exact reference_keeps H₁ (Option.filter_eq_some_iff.1 hs).2
  | none =>
      show Round.Keeps s outLen e.ip (if e₁.op ≥ outLen then .full e₁ else .go (e₁.copyLit s))
      split
      · exact H₁.fine.top.trans (Nat.le_succ _)
      · next hroom =>
        have hlt : e₁.ip < s.length := Nat.lt_of_le_of_lt (Nat.le_add_right _ _) hip
        exact ⟨(copyLit_ip s e₁).ge, H₁.copyLit hlt (Nat.lt_of_not_le hroom)⟩

theorem loop_keeps : ∀ {n : Nat} {e : Enc}, Holds s outLen e → s.length ≤ e.ip + n →
    ((loop s outLen n e).1 = false → (loop s outLen n e).2.top ≤ outLen + 1) ∧
    ((loop s outLen n e).1 = true →
      s.length ≤ (loop s outLen n e).2.ip + 2 ∧ Holds s outLen (loop s outLen n e).2)
  | 0, e, H, hn => by
      refine ⟨(fun h => nomatch h), fun _ => ⟨?_, H⟩⟩
      show s.length ≤ e.ip + 2
      omega
  | n + 1, e, H, hn => by
      unfold loop
      split
      · next hip =>
        have hk := round_keeps H hip
        cases hr : round s outLen e with
        | full e' =>
            rw [hr] at hk
            exact ⟨fun _ => hk, (fun h => nomatch h)⟩
        | done e' =>
            rw [hr] at hk
            exact ⟨(fun h => nomatch h), fun _ => hk⟩
        | go e' =>
            rw [hr] at hk
            obtain ⟨hlt, hk⟩ := hk
            exact loop_keeps hk (by omega)
      · next hip => exact ⟨(fun h => nomatch h), fun _ => ⟨Nat.le_of_not_lt hip, H⟩⟩

/-! ## The last bytes -/

/-- The bytes that are left fit behind what was written. -/
def Tail (s : List UInt8) (outLen : Nat) (e : Enc) : Prop :=
  e.op + (s.length - e.ip) + (if 32 ≤ e.lit + (s.length - e.ip) then 1 else 0) ≤ outLen

theorem Holds.tail (H : Holds s outLen e) (hle : s.length ≤ e.ip + 2) (hroom : e.op + 3 ≤ outLen) :
    Tail s outLen e := by
  have := H.fine.lit
  unfold Tail
  split
  · omega
  · omega

theorem Tail.copyLit (T : Tail s outLen e) (hl : e.lit < 32) (hle : s.length ≤ e.ip + 2)
    (h : e.ip < s.length) : Tail s outLen (e.copyLit s) := by
  obtain ⟨h1, h2, -⟩ := copyLit_out s e
  unfold Tail at T ⊢
  rw [copyLit_ip, h1, h2]
  by_cases hfull : e.lit + 1 = 32
  · rw [if_pos (by omega)] at T
    rw [if_pos hfull, if_pos hfull, if_neg (by omega)]
    omega
  · rw [if_neg hfull, if_neg hfull]
    split
    · rw [if_pos (by omega)] at T
      omega
    · omega

theorem rest_spec : ∀ {n : Nat} {e : Enc}, Holds s outLen e → Tail s outLen e →
    s.length ≤ e.ip + 2 → s.length ≤ e.ip + n →
      Holds s outLen (rest s n e) ∧ (rest s n e).op ≤ outLen ∧ (rest s n e).ip = s.length
  | 0, e, H, T, _, hn => by
      obtain ⟨ts, p, R⟩ := H.run
      have hle := R.le
      refine ⟨H, ?_, Nat.le_antisymm hle hn⟩
      unfold Tail at T
      show e.op ≤ outLen
      omega
  | n + 1, e, H, T, hle, hn => by
      unfold rest
      split
      · next hip =>
        have hop : e.op < outLen := by
          unfold Tail at T
          omega
        have hnext := copyLit_ip s e
        exact rest_spec (H.copyLit hip hop) (T.copyLit H.fine.lit hle hip) (by omega) (by omega)
      · next hip =>
        obtain ⟨ts, p, R⟩ := H.run
        have hle := R.le
        refine ⟨H, ?_, by omega⟩
        unfold Tail at T
        omega

end Rounds

/-! ## The library -/

section Library

variable {s : List UInt8} {outLen : Nat} {out : Nat → UInt8}

theorem start_holds (s : List UInt8) (outLen : Nat) (out : Nat → UInt8) :
    Holds s outLen (start s out) := by
  have C : Closed s [] ⟨0, frst s 0, fun _ => none, out, 0, 0, 0⟩ :=
    ⟨(fun _ ht => absurd ht List.not_mem_nil), Lz.Upto.nil s, Nat.zero_le _, rfl, rfl⟩
  exact ⟨⟨[], 0, C.startRun⟩, Nat.zero_lt_succ 31, le_rfl, Nat.succ_le_succ (Nat.zero_le _),
    Nat.zero_le _⟩

/-- What is returned is 0, and then no more than one byte behind the buffer was written; or it is the
length of the bytes of a stream that denotes the input, and nothing behind the buffer was written. -/
theorem lzfCompress_spec (s : List UInt8) (outLen : Nat) (out : Nat → UInt8) :
    ((lzfCompress s outLen out).1 = 0 ∧ (lzfCompress s outLen out).2.top ≤ outLen + 1) ∨
    ((lzfCompress s outLen out).2.top ≤ outLen ∧ (lzfCompress s outLen out).1 ≤ outLen ∧
      ∃ ts, (∀ t ∈ ts, Fits t) ∧ Lz.expand ts = some s ∧ ts ≠ [] ∧
        (lzfCompress s outLen out).1 = (bytes ts).length ∧
        Stands (lzfCompress s outLen out).2.mem 0 (bytes ts)) := by
  unfold lzfCompress
  split
  · exact Or.inl ⟨rfl, Nat.zero_le _⟩
  · next hne =>
    rw [not_or] at hne
    obtain ⟨hfull, hdone⟩ := loop_keeps (start_holds s outLen out)
      (n := s.length) (Nat.le_add_left _ _)
    cases hl : loop s outLen s.length (start s out) with
    | mk ok e =>
        rw [hl] at hfull hdone
        cases ok with
        | false => exact Or.inl ⟨rfl, hfull rfl⟩
        | true =>
            obtain ⟨hle, H⟩ := hdone rfl
            simp only at hle H ⊢
            split
            · exact Or.inl ⟨rfl, H.fine.top.trans (Nat.le_succ _)⟩
            · next hroom =>
              obtain ⟨H', hop, hip⟩ := rest_spec H (H.tail hle (by omega)) hle
                (n := s.length) (Nat.le_add_left _ _)
              obtain ⟨⟨ts, p, R⟩, F⟩ := H'
              obtain ⟨ts', C⟩ := R.close F.lit.le
              obtain ⟨htop, hcop, -, -, hcip⟩ := close_op F.op
              have hend : Lz.expand ts' = some s := by
                have := C.upto
                rw [hcip, hip, Lz.Upto, List.take_length] at this
                exact this
              have htop' := F.top
              refine Or.inr ⟨by rw [htop]; omega, hcop.trans hop, ts', C.fits, hend, ?_, C.wrote.op,
                C.wrote.stands⟩
              rintro rfl
              exact hne.1 (by cases hend; rfl)

/-- `lzf_compress` writes one byte behind its buffer at the most, and none when it does not fail. -/
theorem lzfCompress_within (s : List UInt8) (outLen : Nat) (out : Nat → UInt8) :
    (lzfCompress s outLen out).2.top ≤ outLen + 1 ∧ ((lzfCompress s outLen out).1 ≠ 0 →
      (lzfCompress s outLen out).2.top ≤ outLen ∧ (lzfCompress s outLen out).1 ≤ outLen) := by
  rcases lzfCompress_spec s outLen out with ⟨h0, htop⟩ | ⟨htop, hle, -⟩
  · exact ⟨htop, fun h => absurd h0 h⟩
  · exact ⟨htop.trans (Nat.le_succ _), fun _ => ⟨htop, hle⟩⟩

/-- A run of 32 bytes that fills the buffer, and then something to refer to. -/
example : (lzfCompress (List.ofFn (n := 32) (fun i => UInt8.ofNat i) ++ [1, 2, 3, 4, 5]) 33
    fun _ => 0).2.top = 34 := by
  decide +kernel

/-- The bytes that a reference leads to are there: it leads back by one byte or more. -/
theorem backRef_safe {dist : Nat} (hpos : 0 < dist) (outLen len : Nat) (ip out : List UInt8) :
    ∃ r, backRef outLen dist len ip out = some r ∧ ∀ ip' out', r = some (ip', out') →
      ip' = ip ∧ out'.length ≤ outLen := by
  unfold backRef
  split
  · exact ⟨none, rfl, fun _ _ h => nomatch h⟩
  · split
    · exact ⟨none, rfl, fun _ _ h => nomatch h⟩
    · next hlen hdist =>
      obtain ⟨o, ho⟩ := Option.isSome_iff_exists.1 (Lz.copy_isSome (len + 2)
        (show out.length - dist < out.length by omega))
      rw [copyRef_eq, ho]
      refine ⟨some (ip, o), rfl, ?_⟩
      rintro ip' out' ⟨⟩
      have := Lz.copy_length ho
      exact ⟨rfl, by omega⟩

/-- What is read behind a control byte is there, and the output stays in its buffer. -/
theorem token_safe (outLen : Nat) (ctrl : UInt8) (ip out : List UInt8) :
    ∃ r, token outLen ctrl ip out = some r ∧ ∀ ip' out', r = some (ip', out') →
      ip'.length ≤ ip.length ∧ out'.length ≤ outLen := by
  unfold token
  split
  · dsimp only
    split
    · exact ⟨none, rfl, fun _ _ h => nomatch h⟩
    · split
      · exact ⟨none, rfl, fun _ _ h => nomatch h⟩
      · refine ⟨_, rfl, ?_⟩
        rintro ip' out' ⟨⟩
        simp only [List.length_drop, List.length_append, List.length_take]
        omega
  · cases ip with
    | nil => exact ⟨none, rfl, fun _ _ h => nomatch h⟩
    | cons b ip₁ =>
        dsimp only
        have hshort : (if ctrl.toNat / 32 = 7 then ip₁ else b :: ip₁).length ≤ ip₁.length + 1 := by
          split
          · exact Nat.le_succ _
          · exact le_rfl
        cases hip : if ctrl.toNat / 32 = 7 then ip₁ else b :: ip₁ with
        | nil => exact ⟨none, rfl, fun _ _ h => nomatch h⟩
        | cons b' ip₂ =>
            rw [hip, List.length_cons] at hshort
            obtain ⟨r, hr, hsafe⟩ := backRef_safe
              (show 0 < ctrl.toNat % 32 * 256 + 1 + b'.toNat by omega) outLen
              (if ctrl.toNat / 32 = 7 then 7 + b.toNat else ctrl.toNat / 32) ip₂ out
            refine ⟨r, hr, fun ip' out' h => ?_⟩
            obtain ⟨rfl, hle⟩ := hsafe ip' out' h
            exact ⟨by rw [List.length_cons]; omega, hle⟩

theorem decode_safe : ∀ {n : Nat} {ip out : List UInt8}, ip ≠ [] → ip.length ≤ n →
    ∃ r, decode outLen n ip out = some r ∧ ∀ out', r = some out' → out'.length ≤ outLen
  | n, [], _, hne, _ => absurd rfl hne
  | 0, ctrl :: ip, _, _, hn => by simp at hn
  | n + 1, ctrl :: ip, out, _, hn => by
      obtain ⟨r, hr, hsafe⟩ := token_safe outLen ctrl ip out
      simp only [decode, hr]
      cases r with
      | none => exact ⟨none, rfl, fun _ h => nomatch h⟩
      | some p =>
          obtain ⟨ip', out'⟩ := p
          obtain ⟨hip, hout⟩ := hsafe ip' out' rfl
          dsimp only
          split
          · refine ⟨_, rfl, ?_⟩
            rintro o ⟨⟩
            exact hout
          · next hne =>
            rw [List.length_cons] at hn
            exact decode_safe hne (by omega)

/-- `lzf_decompress` reads nothing that is not there and writes nothing behind its buffer, whatever the
bytes are, but for no bytes at all. -/
theorem lzfDecompress_safe {c : List UInt8} (h : c ≠ []) (outLen : Nat) :
    ∃ r, lzfDecompress c outLen = some r ∧ ∀ out, r = some out → out.length ≤ outLen :=
  decode_safe h le_rfl

theorem lzfDecompress_safe_garbage : ∃ r, lzfDecompress [255, 255, 255, 7] 3 = some r ∧
    ∀ out, r = some out → out.length ≤ 3 :=
  lzfDecompress_safe (List.cons_ne_nil 255 _) 3

end Library

end Lzf

end AlchemyDB.Format
