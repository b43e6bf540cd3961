/-
# PREPARE — the ORDER BY as bytes

A prepared statement keeps its ORDER BY, LIMIT and OFFSET as bytes, which are written into
a buffer of their own first.  Nothing but the number of columns is written when there are
none; the buffer has no room for that number.
-/
import AlchemyDB.Lib.Bytes

namespace AlchemyDB.Query.Serial

open Bytes

/-- One column of an ORDER BY: `obt[i]`, `obc[i].cmatch` and `asc[i]`. -/
structure Ob where
  obt : BitVec 32
  obc : BitVec 32
  asc : UInt8
  deriving DecidableEq, Repr

/-- `wob_t`, with as many columns as `nob` says. -/
structure Wob where
  obs : List Ob
  lim : BitVec 64
  ofst : BitVec 64
  deriving DecidableEq, Repr

def maxOrderByCols : Nat := 16
def wbCtaSize : Nat := 9
def wbLimOfstSize : Nat := 16

/-- `init_wob`. -/
def initWob : Wob := ⟨[], -1, -1⟩

/-- `getSizeWB`. -/
def getSizeWB (wb : Wob) : Nat :=
  if wb.obs.length = 0 then 4 else 4 + wbCtaSize * wb.obs.length + wbLimOfstSize

/-- `SERIAL_WB_SIZE`. -/
def serialWbSize : Nat := maxOrderByCols * wbCtaSize + wbLimOfstSize

/-- What `serialiseWB` writes for a column. -/
def obBytes (ob : Ob) : List UInt8 := le 4 ob.obt.toNat ++ le 4 ob.obc.toNat ++ [ob.asc]

/-- What `serialiseWB` writes from the beginning of the buffer on. -/
def serialiseWB (wb : Wob) : List UInt8 :=
  if wb.obs.length = 0 then le 4 wb.obs.length
  else
    le 4 wb.obs.length ++ (wb.obs.flatMap obBytes ++ (le 8 wb.lim.toNat ++ le 8 wb.ofst.toNat))

/-- The loop of `deserialiseWB`: the columns, and where it stops. -/
def readObs (m : Nat → UInt8) : Nat → Nat → List Ob × Nat
  | 0, x => ([], x)
  | n + 1, x =>
      let r := readObs m n (x + 9)
      (⟨BitVec.ofNat 32 (ofLe (peek m x 4)), BitVec.ofNat 32 (ofLe (peek m (x + 4) 4)), m (x + 8)⟩ ::
        r.1, r.2)

/-- `deserialiseWB`: what `wb` is afterwards, and the number of bytes read. -/
def deserialiseWB (m : Nat → UInt8) (x : Nat) (wb : Wob) : Wob × Nat :=
  let nob := ofLe (peek m x 4)
  if nob = 0 then ({ wb with obs := [] }, 4)
  else
    let r := readObs m nob (x + 4)
    ({ obs := r.1
       lim := BitVec.ofNat 64 (ofLe (peek m r.2 8))
       ofst := BitVec.ofNat 64 (ofLe (peek m (r.2 + 8) 8)) }, r.2 + 16 - x)

/-- The bytes are as many as was reserved for them, fit into the buffer, and are read back wherever
they stand. -/
structure Restored (wb : Wob) : Prop where
  size : (serialiseWB wb).length = getSizeWB wb
  fits : (serialiseWB wb).length ≤ serialWbSize
  back : ∀ m x, Stands m x (serialiseWB wb) → deserialiseWB m x initWob = (wb, getSizeWB wb)

/-! ## Reading what was written -/

variable {m : Nat → UInt8} {wb : Wob}

@[simp] theorem length_obBytes (ob : Ob) : (obBytes ob).length = 9 := by
  simp [obBytes]

theorem length_serialiseWB (wb : Wob) : (serialiseWB wb).length = getSizeWB wb := by
  unfold serialiseWB getSizeWB wbCtaSize wbLimOfstSize
  split
  · rw [length_le]
  · simp only [List.length_append, length_le, length_table length_obBytes]
    omega

theorem ofNat_peek {x n w : Nat} {v : BitVec w} (h : Stands m x (le n v.toNat)) (hw : 2 ^ w = 256 ^ n) :
    BitVec.ofNat w (ofLe (peek m x n)) = v := by
  rw [ofLe_peek h (hw ▸ v.isLt), BitVec.ofNat_toNat, BitVec.setWidth_eq]

theorem readObs_stands : ∀ {obs : List Ob} {x : Nat}, Stands m x (obs.flatMap obBytes) →
    readObs m obs.length x = (obs, x + 9 * obs.length)
  | [], _, _ => rfl
  | ob :: obs, x, h => by
      rw [List.flatMap_cons, stands_append, length_obBytes] at h
      obtain ⟨hob, hrest⟩ := h
      simp only [obBytes, stands_append, length_le, stands_cons, List.length_append] at hob
      obtain ⟨⟨ht, hc⟩, ha, -⟩ := hob
      have ih := readObs_stands hrest
      rw [List.length_cons, readObs]
      simp only [ih, ofNat_peek ht (by decide), ofNat_peek hc (by decide), ha]
      congr 1
      omega

/-- The columns are read back, and LIMIT and OFFSET behind them. -/
theorem deserialiseWB_stands {x : Nat} {init : Wob} (hne : wb.obs ≠ [])
    (hn : wb.obs.length < 4294967296) (h : Stands m x (serialiseWB wb)) :
    deserialiseWB m x init = (wb, getSizeWB wb) := by
  have hlen : wb.obs.length ≠ 0 := fun e => hne (List.length_eq_zero_iff.1 e)
  rw [serialiseWB, if_neg hlen, stands_append, stands_append, stands_append] at h
  simp only [length_le, length_table length_obBytes] at h
  obtain ⟨hnob, hobs, hlim, hofst⟩ := h
  have hread := readObs_stands hobs
  have hend : x + 4 + 9 * wb.obs.length = x + 4 + wb.obs.length * 9 := by omega
  unfold deserialiseWB getSizeWB wbCtaSize wbLimOfstSize
  simp only [ofLe_peek hnob (show wb.obs.length < 256 ^ 4 from hn), hlen, if_false, hread, hend,
    ofNat_peek hlim (by decide), ofNat_peek hofst (by decide)]
  congr 1
  omega

/-- An ORDER BY is kept just when there is a column less than the code allows, and a LIMIT or an
OFFSET stands only beside a column. -/
theorem restored_iff (hn : wb.obs.length ≤ maxOrderByCols) : Restored wb ↔
    wb.obs.length < maxOrderByCols ∧ (wb.obs = [] → wb.lim = -1 ∧ wb.ofst = -1) := by
  have hsize := length_serialiseWB wb
  unfold maxOrderByCols at *
  constructor
  · intro h
    refine ⟨?_, fun hnil => ?_⟩
    · have hfits := h.fits
      rw [hsize] at hfits
      unfold getSizeWB serialWbSize wbCtaSize wbLimOfstSize maxOrderByCols at hfits
      split at hfits <;> omega
    · have hback := h.back _ 0 (stands_follow (serialiseWB wb) fun _ => 0)
      have hread : (deserialiseWB (follow (serialiseWB wb) fun _ => 0) 0 initWob).1 = initWob := by
        simp only [serialiseWB, hnil]
        rfl
      rw [hback] at hread
      simp only at hread
      rw [hread]
      exact ⟨rfl, rfl⟩
  · rintro ⟨hlt, hnil⟩
    refine ⟨hsize, ?_, fun m x hs => ?_⟩
    · rw [hsize]
      unfold getSizeWB serialWbSize wbCtaSize wbLimOfstSize maxOrderByCols
      split <;> omega
    · by_cases hobs : wb.obs = []
      · obtain ⟨hl, ho⟩ := hnil hobs
        obtain ⟨obs, lim, ofst⟩ := wb
        simp only at hobs hl ho
        subst hobs hl ho
        have hz : ofLe (peek m x 4) = 0 := ofLe_peek hs (by decide)
        simp only [deserialiseWB, hz, if_true]
        rfl
      · exact deserialiseWB_stands hobs (by omega) hs

theorem restored_one : Restored ⟨[⟨0, 1, 1⟩], 10, 20⟩ ↔
    ([⟨0, 1, 1⟩] : List Ob).length < maxOrderByCols ∧
      (([⟨0, 1, 1⟩] : List Ob) = [] → (10 : BitVec 64) = -1 ∧ (20 : BitVec 64) = -1) :=
  @restored_iff ⟨[⟨0, 1, 1⟩], 10, 20⟩ (by decide)

/-- `LIMIT 5` without an ORDER BY is forgotten, and 16 columns are written four bytes past the end
of the buffer. -/
theorem not_restored : ¬ Restored ⟨[], 5, -1⟩ ∧
    ¬ Restored ⟨List.replicate 16 ⟨0, 1, 1⟩, -1, -1⟩ := by
  constructor
  · intro h
    have hback := h.back (fun _ => 0) 0 rfl
    exact absurd hback (by decide)
  · intro h
    have hfits := h.fits
    rw [length_serialiseWB] at hfits
    exact absurd hfits (by decide)

end AlchemyDB.Query.Serial
