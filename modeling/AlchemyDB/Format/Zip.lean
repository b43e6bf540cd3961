/-
# `zipCol` — one scheme for all texts

When `zipCol` ends without a fault every text of the row stands for itself by one scheme:
as it is, packed, or compressed with its length before it.  The other columns stay.
-/
import AlchemyDB.Format.Geometry

namespace AlchemyDB.Format

open Bytes Row

/-- What is written for a text under a scheme. -/
def Packed (z : Lzf) : Czip → List UInt8 → List UInt8 → Prop
  | .none, s, b => b = s
  | .six, s, b => createSixBit s = some (some b)
  | .lzf, s, b => lzfZipCol z s = some b

theorem packed_none (z : Lzf) (s : List UInt8) : Packed z .none s s := rfl

/-- A column before and after. -/
def ZipRel (R : List UInt8 → List UInt8 → Prop) (c c' : Crd) : Prop :=
  c'.empty = c.empty ∧
    ((∃ s b, c.data = .text s ∧ c'.data = .text b ∧ R s b) ∨
      ((∀ s, c.data ≠ .text s) ∧ c'.data = c.data))

theorem sixLoop_spec : ∀ {ts bs : List (List UInt8)}, sixLoop ts = some (some bs) →
    List.Forall₂ (fun s b => createSixBit s = some (some b)) ts bs
  | [], bs, h => by
      cases h
      exact .nil
  | s :: ss, bs, h => by
      rw [sixLoop] at h
      cases hs : createSixBit s with
      | none => simp [hs] at h
      | some o =>
          cases o with
          | none => simp [hs] at h
          | some b =>
              simp only [hs] at h
              obtain ⟨r, hr, he⟩ := Option.map_eq_some_iff.1 h
              obtain ⟨bs', rfl, rfl⟩ := Option.map_eq_some_iff.1 he
              exact .cons hs (sixLoop_spec hr)

/-- The texts can be packed when the first character outside the alphabet, over all of them, says
so. -/
theorem sixLoop_outcome : ∀ ts : List (List UInt8),
    (sixLoop ts).map Option.isSome = packable (ts.flatten.find? outside)
  | [] => rfl
  | s :: ss => by
      have hs := createSixBit_outcome s
      rw [sixLoop, List.flatten_cons, List.find?_append]
      cases ho : s.find? outside with
      | none =>
          rw [ho] at hs
          obtain ⟨r, hr, hsome⟩ := Option.map_eq_some_iff.1 hs
          obtain ⟨b, rfl⟩ := Option.isSome_iff_exists.1 hsome
          rw [Option.none_or, ← sixLoop_outcome ss, hr]
          simp only [Option.map_map]
          congr 1
          funext r
          cases r <;> rfl
      | some c =>
          rw [ho] at hs
          rw [Option.some_or]
          by_cases hc : c.toNat ≥ 128
          · simp only [packable, if_pos hc, Option.map_eq_none_iff] at hs ⊢
            rw [hs]
          · simp only [packable, if_neg hc] at hs ⊢
            obtain ⟨r, hr, hnone⟩ := Option.map_eq_some_iff.1 hs
            cases r with
            | none =>
                rw [hr]
                rfl
            | some b => cases hnone

theorem lzfLoop_spec (z : Lzf) : ∀ {ts bs : List (List UInt8)},
    (lzfLoop z ts).2.2.mapM id = some bs →
    List.Forall₂ (fun s b => lzfZipCol z s = some b) ts bs
  | [], bs, h => by
      cases h
      exact .nil
  | s :: ss, bs, h => by
      rw [lzfLoop] at h
      cases hs : lzfZipCol z s with
      | none => simp [hs] at h
      | some b =>
          simp only [hs] at h
          rw [List.mapM_cons] at h
          obtain ⟨b', hb', h⟩ := Option.bind_eq_some_iff.1 h
          obtain ⟨bs', hbs, h⟩ := Option.bind_eq_some_iff.1 h
          cases h
          cases hb'
          exact .cons hs (lzfLoop_spec z hbs)

theorem zipTexts_spec {z : Lzf} {ts bs : List (List UInt8)} {zt : Czip}
    (h : zipTexts z ts = some (zt, bs)) : List.Forall₂ (Packed z zt) ts bs := by
  unfold zipTexts at h
  dsimp only at h
  split at h
  · obtain ⟨bs', hb, he⟩ := Option.map_eq_some_iff.1 h
    cases he
    exact lzfLoop_spec z hb
  · cases h6 : sixLoop ts with
    | none => simp [h6] at h
    | some o =>
        cases o with
        | none =>
            simp only [h6, Option.some_inj] at h
            cases h
            exact List.forall₂_same.2 fun s _ => packed_none z s
        | some bs' =>
            simp only [h6, Option.some_inj] at h
            cases h
            exact sixLoop_spec h6

theorem texts_cons_text {c : Crd} {s : List UInt8} (h : c.data = .text s) (cs : List Crd) :
    texts (c :: cs) = s :: texts cs := by
  simp only [texts, List.filterMap_cons, h]

theorem texts_cons_other {c : Crd} (h : ∀ s, c.data ≠ .text s) (cs : List Crd) :
    texts (c :: cs) = texts cs := by
  unfold texts
  rw [List.filterMap_cons]
  cases hd : c.data with
  | text s => exact absurd hd (h s)
  | num isi f i => rfl
  | u128 x => rfl
  | float f x => rfl

/-- The columns after the texts were exchanged. -/
theorem shrink_rel {R : List UInt8 → List UInt8 → Prop} : ∀ (cs : List Crd)
    (bs : List (List UInt8)) (d : Int), List.Forall₂ R (texts cs) bs →
    List.Forall₂ (ZipRel R) cs (shrink d cs bs).1
  | [], _, _, _ => .nil
  | c :: cs, bs, d, h => by
      by_cases ht : ∃ s, c.data = .text s
      · obtain ⟨s, hs⟩ := ht
        rw [texts_cons_text hs] at h
        cases h with
        | cons hb hbs =>
            rw [shrink_text hs]
            exact .cons ⟨rfl, .inl ⟨s, _, hs, rfl, hb⟩⟩ (shrink_rel cs _ _ hbs)
      · push Not at ht
        rw [texts_cons_other ht] at h
        rw [shrink_other (.inl ht)]
        exact .cons ⟨rfl, .inr ⟨ht, rfl⟩⟩ (shrink_rel cs bs d h)

theorem zipRel_none (z : Lzf) (c : Crd) : ZipRel (Packed z .none) c c := by
  refine ⟨rfl, ?_⟩
  by_cases ht : ∃ s, c.data = .text s
  · obtain ⟨s, hs⟩ := ht
    exact .inl ⟨s, s, hs, hs, packed_none z s⟩
  · push Not at ht
    exact .inr ⟨ht, rfl⟩

/-- Every column of a row that is written stands for a column of the row. -/
theorem prepared_rel {zip : Bool} {z : Lzf} {cr cr' : Cr} {zt : Czip}
    (h : prepared zip z cr = some (zt, cr')) :
    List.Forall₂ (ZipRel (Packed z zt)) cr.cols cr'.cols := by
  unfold prepared at h
  split at h
  · obtain ⟨t, ht, he⟩ := Option.map_eq_some_iff.1 h
    have hsp := zipTexts_spec ht
    split at he
    · cases he
      exact List.forall₂_same.2 fun c _ => zipRel_none z c
    · cases he
      exact shrink_rel _ _ _ hsp
  · cases h
    exact List.forall₂_same.2 fun c _ => zipRel_none z c

end AlchemyDB.Format
