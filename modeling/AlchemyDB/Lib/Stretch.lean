/-
# Filters over a list that is gone through in steps

A list that is read in several passes, each of which takes a stretch of it: two
passes together are one filter when the first one takes what comes first.
-/
import Mathlib.Data.List.Basic

namespace Stretch

variable {A : Type} {p q : A → Bool}

/-- Two filters one after the other, where what the first one takes comes before what the second
one takes. -/
theorem filter_append_filter : ∀ {l : List A}, (∀ a ∈ l, ¬ (p a = true ∧ q a = true)) →
    l.Pairwise (fun a b => ¬ (q a = true ∧ p b = true)) →
    l.filter p ++ l.filter q = l.filter (fun a => p a || q a)
  | [], _, _ => rfl
  | a :: l, hd, ho => by
      obtain ⟨ha, ho⟩ := List.pairwise_cons.1 ho
      have ih := filter_append_filter (fun b hb => hd b (List.mem_cons_of_mem _ hb)) ho
      have hda := hd a List.mem_cons_self
      cases hp : p a with
      | true =>
          have hq : q a = false := by simpa [hp] using hda
          simp [hp, hq, ih]
      | false =>
          cases hq : q a with
          | true =>
              have hnil : l.filter p = [] := by
                rw [List.filter_eq_nil_iff]
                exact fun b hb hpb => ha b hb ⟨hq, hpb⟩
              rw [hnil, List.nil_append] at ih
              simp [hp, hq, hnil, ih]
          | false => simp [hp, hq, ih]

/-- On a list on which `p` holds of a beginning, numbered from `s` on. -/
theorem drop_takeWhile : ∀ {l : List A} {o s : Nat}, l.Pairwise (fun a b => p b = true → p a = true) →
    (l.drop o).takeWhile p =
      ((l.zipIdx s).filter fun e => decide (o + s ≤ e.2) && p e.1).map Prod.fst
  | [], _, _, _ => by simp
  | a :: l, 0, s, h => by
      obtain ⟨ha, hl⟩ := List.pairwise_cons.1 h
      rw [List.drop_zero, List.zipIdx_cons, List.filter_cons, List.takeWhile_cons]
      cases hp : p a with
      | true =>
          have ih := drop_takeWhile (o := 0) (s := s + 1) hl
          rw [List.drop_zero] at ih
          simp only [Nat.zero_add, Nat.le_refl, decide_true, Bool.and_self, if_true, List.map_cons]
          rw [ih]
          congr 2
          refine List.filter_congr fun e he => ?_
          have hle := List.le_snd_of_mem_zipIdx he
          simp only [Nat.zero_add, hle, decide_true, show s ≤ e.2 by omega]
      | false =>
          simp only [Bool.and_false, Bool.false_eq_true, if_false]
          symm
          rw [List.map_eq_nil_iff, List.filter_eq_nil_iff]
          intro e he hpe
          have hm := List.fst_mem_of_mem_zipIdx he
          have := ha e.1 hm (Bool.and_eq_true_iff.1 hpe).2
          rw [hp] at this
          cases this
  | a :: l, o + 1, s, h => by
      have ih := drop_takeWhile (o := o) (s := s + 1) (List.pairwise_cons.1 h).2
      rw [List.drop_succ_cons, List.zipIdx_cons, List.filter_cons, ih]
      rw [if_neg (by rw [Bool.and_eq_true, decide_eq_true_eq]; omega)]
      congr 2
      funext e
      rw [show o + (s + 1) = o + 1 + s by omega]

/-- A filter that drops none of the elements with an image. -/
theorem filterMap_filter_full {B : Type} {f : A → Option B} : ∀ {l : List A},
    (l.filterMap f).length ≤ ((l.filter p).filterMap f).length →
    ∀ a ∈ l, (f a).isSome = true → p a = true
  | b :: l, h, a, ha, hf => by
      have hle : ((l.filter p).filterMap f).length ≤ (l.filterMap f).length :=
        (List.filter_sublist.filterMap f).length_le
      cases hp : p b with
      | true =>
          rcases List.mem_cons.1 ha with rfl | ha
          · exact hp
          · refine filterMap_filter_full ?_ a ha hf
            rw [List.filter_cons_of_pos hp] at h
            cases hb : f b with
            | none => simpa [List.filterMap_cons, hb] using h
            | some c => simpa [List.filterMap_cons, hb] using h
      | false =>
          rw [List.filter_cons_of_neg (by simp [hp])] at h
          cases hb : f b with
          | none =>
              rw [List.filterMap_cons_none hb] at h
              rcases List.mem_cons.1 ha with rfl | ha
              · rw [hb] at hf
                cases hf
              · exact filterMap_filter_full h a ha hf
          | some c =>
              rw [List.filterMap_cons_some hb, List.length_cons] at h
              omega

end Stretch
