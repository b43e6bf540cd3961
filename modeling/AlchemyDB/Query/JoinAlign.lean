/-
# The chain of a simple path

`alignChainToJans` links a list in which pairs that follow each other have an alias in common, and no
other one; reversed, the list is linked as before.  So `buildJoinChain` makes a chain of a simple path
exactly if its loop leaves the pairs in the order of the path.
-/
import AlchemyDB.Query.JoinChain
import Mathlib.Data.Fintype.Card

namespace AlchemyDB.Query.Join

open Gather

variable {β γ : Type} {v : List Jan}

/-! ## Switched pairs -/

@[simp] theorem switchIJ_switchIJ (e : Ijp β γ) : switchIJ (switchIJ e) = e := rfl

theorem mark_switchIJ (e : Ijp β γ) : mark v (switchIJ e) = mark v e := min_comm _ _

theorem OnPath.switch {e : Ijp β γ} (h : OnPath v e) : OnPath v (switchIJ e) :=
  ⟨h.rhs, h.lhs, h.next.symm⟩

theorem OnPath.dir_switch {e : Ijp β γ} (h : OnPath v e) : dir v (switchIJ e) = -dir v e := by
  have h1 := h.lhs_place
  have h2 := h.switch.rhs_place
  rw [mark_switchIJ] at h2
  have h3 : place v (switchIJ e).rhs.jan = place v e.lhs.jan := rfl
  omega

/-! ## Alignment -/

theorem OnPath.rhs_lhs {a b : Ijp β γ} (ha : OnPath v a) (hb : OnPath v b) :
    a.rhs.jan = b.lhs.jan ↔ 2 * mark v a + dir v a = 2 * mark v b - dir v b := by
  rw [← place_inj ha.rhs]
  have h1 := ha.rhs_place
  have h2 := hb.lhs_place
  omega

theorem OnPath.lhs_lhs {a b : Ijp β γ} (ha : OnPath v a) (hb : OnPath v b) :
    a.lhs.jan = b.lhs.jan ↔ 2 * mark v a - dir v a = 2 * mark v b - dir v b := by
  rw [← place_inj ha.lhs]
  have h1 := ha.lhs_place
  have h2 := hb.lhs_place
  omega

theorem OnPath.rhs_rhs {a b : Ijp β γ} (ha : OnPath v a) (hb : OnPath v b) :
    a.rhs.jan = b.rhs.jan ↔ 2 * mark v a + dir v a = 2 * mark v b + dir v b := by
  rw [← place_inj ha.rhs]
  have h1 := ha.rhs_place
  have h2 := hb.rhs_place
  omega

theorem OnPath.lhs_rhs {a b : Ijp β γ} (ha : OnPath v a) (hb : OnPath v b) :
    a.lhs.jan = b.rhs.jan ↔ 2 * mark v a - dir v a = 2 * mark v b + dir v b := by
  rw [← place_inj ha.lhs]
  have h1 := ha.lhs_place
  have h2 := hb.rhs_place
  omega

/-- Two pairs that follow each other on the path are turned to where it goes. -/
theorem alignTwo_dir {a b : Ijp β γ} {τ : ℤ} (hτ : τ = 1 ∨ τ = -1) (ha : OnPath v a)
    (hb : OnPath v b) (hm : mark v b = mark v a + τ) :
    dir v (alignTwo a b).1 = τ ∧ dir v (alignTwo a b).2 = τ := by
  have hda := dir_cases (v := v) a
  have hdb := dir_cases (v := v) b
  have ha' := ha.dir_switch
  have hb' := hb.dir_switch
  have hma := mark_switchIJ (v := v) a
  have hmb := mark_switchIJ (v := v) b
  rw [alignTwo]
  by_cases h1 : a.rhs.jan = b.lhs.jan
  · rw [if_neg (not_not.mpr h1)]
    rw [ha.rhs_lhs hb] at h1
    show dir v a = τ ∧ dir v b = τ
    omega
  · rw [if_pos h1]
    rw [ha.rhs_lhs hb] at h1
    by_cases h2 : a.lhs.jan = b.lhs.jan
    · rw [if_pos h2]
      rw [ha.lhs_lhs hb] at h2
      have h3 : (switchIJ a).rhs.jan ≠ b.rhs.jan := by
        rw [ne_eq, ha.switch.rhs_rhs hb]
        omega
      have h4 : (switchIJ a).lhs.jan ≠ b.rhs.jan := by
        rw [ne_eq, ha.switch.lhs_rhs hb]
        omega
      simp only [if_neg h3, if_neg h4]
      omega
    · rw [if_neg h2]
      rw [ha.lhs_lhs hb] at h2
      by_cases h3 : a.rhs.jan = b.rhs.jan
      · rw [ha.rhs_rhs hb] at h3
        have h4 : a.lhs.jan ≠ (switchIJ b).rhs.jan := by
          rw [ne_eq, ha.lhs_rhs hb.switch]
          omega
        simp only [if_pos ((ha.rhs_rhs hb).mpr h3), if_neg h4]
        exact ⟨by omega, by omega⟩
      · have h4 : a.lhs.jan = b.rhs.jan := by
          rw [ha.rhs_rhs hb] at h3
          rw [ha.lhs_rhs hb]
          omega
        simp only [if_neg h3, if_pos h4]
        rw [ha.lhs_rhs hb] at h4
        exact ⟨by omega, by omega⟩

theorem alignTwo_turned (a b : Ijp β γ) : Turned a (alignTwo a b).1 ∧ Turned b (alignTwo a b).2 := by
  rw [alignTwo]
  split
  · dsimp only
    split <;> split <;> split <;> simp [Turned]
  · exact ⟨.inl rfl, .inl rfl⟩

theorem Turned.trans {a b c : Ijp β γ} (h : Turned a b) (h' : Turned b c) : Turned a c := by
  rcases h with rfl | rfl <;> rcases h' with rfl | rfl
  · exact .inl rfl
  · exact .inr rfl
  · exact .inr rfl
  · exact .inl rfl

theorem Turned.mark_eq {a b : Ijp β γ} (h : Turned a b) : mark v b = mark v a := by
  rcases h with rfl | rfl
  · rfl
  · exact mark_switchIJ a

theorem Turned.onPath {a b : Ijp β γ} (h : Turned a b) (ha : OnPath v a) : OnPath v b := by
  rcases h with rfl | rfl
  · exact ha
  · exact ha.switch

theorem forall₂_trans {l₁ l₂ l₃ : List (Ijp β γ)} (h : List.Forall₂ Turned l₁ l₂)
    (h' : List.Forall₂ Turned l₂ l₃) : List.Forall₂ Turned l₁ l₃ := by
  induction h generalizing l₃ with
  | nil => exact h'
  | cons hab _ ih =>
      cases h' with
      | cons hbc h' => exact .cons (hab.trans hbc) (ih h')

theorem forall₂_refl (l : List (Ijp β γ)) : List.Forall₂ Turned l l :=
  List.forall₂_same.mpr fun _ _ => .inl rfl

theorem alignFrom_turned : ∀ {l : List (Ijp β γ)} {a : Ijp β γ},
    List.Forall₂ Turned (a :: l) (alignFrom a l)
  | [], a => .cons (.inl rfl) .nil
  | b :: l, a => by
      obtain ⟨ha, hb⟩ := alignTwo_turned a b
      rw [alignFrom]
      refine .cons ha ?_
      exact forall₂_trans (.cons hb (forall₂_refl l)) alignFrom_turned

theorem forall₂_marks {l l' : List (Ijp β γ)} (h : List.Forall₂ Turned l l') :
    numbers v l' = numbers v l := by
  induction h with
  | nil => rfl
  | cons hab _ ih => exact List.cons_eq_cons.mpr ⟨hab.mark_eq, ih⟩

theorem forall₂_onPath {l l' : List (Ijp β γ)} (h : List.Forall₂ Turned l l')
    (hl : ∀ e ∈ l, OnPath v e) : ∀ e ∈ l', OnPath v e := by
  induction h with
  | nil => exact hl
  | cons hab _ ih =>
      obtain ⟨ha, hl⟩ := List.forall_mem_cons.mp hl
      exact List.forall_mem_cons.mpr ⟨hab.onPath ha, ih hl⟩

/-- In the order of the path all pairs are turned to where it goes. -/
theorem alignFrom_dir {τ : ℤ} (hτ : τ = 1 ∨ τ = -1) : ∀ {l : List (Ijp β γ)} {a : Ijp β γ},
    (∀ e ∈ a :: l, OnPath v e) → numbers v (a :: l) = steps τ (mark v a) (l.length + 1) →
    (l = [] → dir v a = τ) → ∀ e ∈ alignFrom a l, dir v e = τ
  | [], a, _, _, hd => fun e he => List.mem_singleton.mp he ▸ hd rfl
  | b :: l, a, hpath, hm, _ => by
      obtain ⟨ha, hpath⟩ := List.forall_mem_cons.mp hpath
      obtain ⟨hb, hpath⟩ := List.forall_mem_cons.mp hpath
      have hmb : mark v b = mark v a + τ := by
        rw [numbers, List.map_cons, List.map_cons, List.length_cons, steps_cons, steps_cons] at hm
        exact (List.cons.inj (List.cons.inj hm).2).1
      obtain ⟨hda, hdb⟩ := alignTwo_dir hτ ha hb hmb
      obtain ⟨hta, htb⟩ := alignTwo_turned a b
      rw [alignFrom]
      refine List.forall_mem_cons.mpr ⟨hda, alignFrom_dir hτ ?_ ?_ fun _ => hdb⟩
      · exact List.forall_mem_cons.mpr ⟨htb.onPath hb, hpath⟩
      · rw [numbers, List.map_cons, List.length_cons, steps_cons] at hm
        rw [numbers, List.map_cons, htb.mark_eq, ← List.map_cons, (List.cons.inj hm).2, hmb]

/-! ## Chains and lists in line -/

/-- Pairs that point along the path, in its order, are linked. -/
theorem linked_of_dir {τ : ℤ} : ∀ {l : List (Ijp β γ)} {x : ℤ}, (∀ e ∈ l, OnPath v e) →
    numbers v l = steps τ x l.length → (∀ e ∈ l, dir v e = τ) → Linked l
  | [], _, _, _, _ => .nil
  | [_], _, _, _, _ => .singleton _
  | a :: b :: l, x, hpath, hm, hd => by
      obtain ⟨ha, hpath⟩ := List.forall_mem_cons.mp hpath
      obtain ⟨hda, hd⟩ := List.forall_mem_cons.mp hd
      obtain ⟨hb, -⟩ := List.forall_mem_cons.mp hpath
      obtain ⟨hdb, -⟩ := List.forall_mem_cons.mp hd
      rw [numbers, List.map_cons, List.length_cons, steps_cons] at hm
      obtain ⟨hma, hm⟩ := List.cons.inj hm
      have hmb := hm
      rw [List.map_cons, List.length_cons, steps_cons] at hmb
      have hmb := (List.cons.inj hmb).1
      refine List.isChain_cons_cons.mpr ⟨?_, linked_of_dir hpath hm hd⟩
      rw [ha.rhs_lhs hb]
      omega

/-- Linked pairs of a path are in line. -/
theorem inLine_of_linked : ∀ {l : List (Ijp β γ)}, (∀ e ∈ l, OnPath v e) →
    (numbers v l).Nodup → Linked l → InLine (numbers v l)
  | [], _, _, _ => .nil
  | [_], _, _, _ => .singleton _
  | a :: b :: l, hpath, hn, hl => by
      obtain ⟨ha, hpath⟩ := List.forall_mem_cons.mp hpath
      obtain ⟨hb, -⟩ := List.forall_mem_cons.mp hpath
      obtain ⟨hna, hn⟩ := List.nodup_cons.mp hn
      obtain ⟨hab, hl⟩ := List.isChain_cons_cons.mp hl
      refine List.isChain_cons_cons.mpr ⟨?_, inLine_of_linked hpath hn hl⟩
      have hne : mark v a ≠ mark v b := fun he => hna (he ▸ List.mem_cons_self)
      rw [ha.rhs_lhs hb] at hab
      rcases dir_cases (v := v) a with hda | hda <;> rcases dir_cases (v := v) b with hdb | hdb <;>
        omega

/-- `alignChainToJans` links just the lists in line. -/
theorem alignFrom_linked {a : Ijp β γ} {l : List (Ijp β γ)} (hpath : ∀ e ∈ a :: l, OnPath v e)
    (hn : (numbers v (a :: l)).Nodup) :
    Linked (alignFrom a l) ↔ InLine (numbers v (a :: l)) := by
  have hturn := alignFrom_turned (l := l) (a := a)
  have hpath' := forall₂_onPath hturn hpath
  have hnum := forall₂_marks (v := v) hturn
  constructor
  · intro hl
    rw [← hnum] at hn ⊢
    exact inLine_of_linked hpath' hn hl
  · intro hl
    cases l with
    | nil => exact .singleton a
    | cons b l =>
        have hnext := (List.isChain_cons_cons.mp hl).1
        obtain ⟨τ, hτ, hb⟩ : ∃ τ : ℤ, (τ = 1 ∨ τ = -1) ∧ mark v b = mark v a + τ := by
          rcases hnext with h | h
          · exact ⟨1, .inl rfl, h⟩
          · exact ⟨-1, .inr rfl, h⟩
        rw [numbers, List.map_cons, List.map_cons, hb] at hl hn
        have hline := inLine_steps hτ hl hn
        have hm : numbers v (a :: b :: l) = steps τ (mark v a) (l.length + 2) := by
          rw [numbers, List.map_cons, List.map_cons, hb, hline, List.length_map]
          rfl
        refine linked_of_dir (τ := τ) (x := mark v a) hpath' ?_
          (alignFrom_dir hτ hpath hm fun h => absurd h (List.cons_ne_nil b l))
        rw [hnum, hm, ← hturn.length_eq, List.length_cons, List.length_cons]

/-- The reversed chain is one. -/
theorem revChain_linked {l : List (Ijp β γ)} : Linked (revChain l) ↔ Linked l := by
  rw [Linked, revChain, List.isChain_reverse, List.isChain_map]
  refine ⟨fun h => h.imp fun a b hab => Eq.symm hab, fun h => h.imp fun a b hab => Eq.symm hab⟩

theorem aliasesFrom_iff : ∀ {l : List (Ijp β γ)} {rjan : Jan},
    aliasesFrom rjan l = true ↔ (∀ e ∈ l.head?, e.lhs.jan = rjan) ∧ Linked l
  | [], _ => by simp [aliasesFrom, Linked]
  | [e], rjan => by simp [aliasesFrom, Linked]
  | e :: e' :: l, rjan => by
      rw [aliasesFrom, Bool.and_eq_true, decide_eq_true_eq, aliasesFrom_iff, Linked, Linked,
        List.isChain_cons_cons]
      simp [eq_comm]

/-- `validateChain` accepts the aliases of a chain, and no others. -/
theorem validAliases_iff : ∀ {l : List (Ijp β γ)}, validAliases l = true ↔ Linked l
  | [] => by simp [validAliases, Linked]
  | e :: l => by
      rw [validAliases, aliasesFrom_iff]
      simp

/-! ## The pairs of the chain -/

theorem chainLoop_perm : ∀ {k : ℕ} {l : List (Ijp β γ)}, (chainLoop k l).Perm l
  | 0, l => .refl l
  | k + 1, l => by
      rw [chainLoop]
      split
      · exact pass_perm
      · exact chainLoop_perm.trans pass_perm

theorem alignChainToJans_turned : ∀ {l : List (Ijp β γ)},
    List.Forall₂ Turned l (alignChainToJans l)
  | [] => .nil
  | _ :: _ => alignFrom_turned

/-- Whatever the pairs are, none is lost and none is added. -/
theorem buildJoinChain_reordered (jb : Jb β γ) : Reordered jb.ij (buildJoinChain jb).1.ij := by
  have halign : Reordered jb.ij (alignChainToJans (chainLoop 255 jb.ij)) :=
    ⟨_, chainLoop_perm, alignChainToJans_turned⟩
  rw [buildJoinChain, onFilterlessHeadRevChain]
  split
  · dsimp only
    split
    · obtain ⟨l, hl, hturn⟩ := halign
      refine ⟨l.reverse, (List.reverse_perm l).trans hl, ?_⟩
      rw [revChain, List.forall₂_reverse_iff, List.forall₂_map_right_iff]
      exact hturn.imp fun a b hab => hab.trans (.inr rfl)
    · exact halign
  · exact halign

/-- The end of `buildJoinChain` may reverse the chain. -/
theorem buildJoinChain_linked (jb : Jb β γ) : Linked (buildJoinChain jb).1.ij ↔
    Linked (alignChainToJans (chainLoop 255 jb.ij)) := by
  rw [buildJoinChain, onFilterlessHeadRevChain]
  split
  · dsimp only
    split
    · exact revChain_linked
    · exact Iff.rfl
  · exact Iff.rfl

/-! ## A simple path -/

/-- The number of two aliases that follow each other. -/
def edgeMark (v : List Jan) : Sym2 Jan → ℤ :=
  Sym2.lift ⟨fun a b => min (place v a) (place v b), fun _ _ => min_comm _ _⟩

theorem pathEdges_marks (hn : v.Nodup) :
    (pathEdges v).map (edgeMark v) = (List.range (v.length - 1)).map Nat.cast := by
  refine List.ext_getElem (by simp [pathEdges]) fun i h1 h2 => ?_
  have hi : i + 1 < v.length := by
    rw [List.length_map, List.length_range] at h2
    omega
  rw [List.getElem_map, List.getElem_map, List.getElem_range]
  simp only [pathEdges, List.getElem_zipWith, List.getElem_tail]
  show min (place v v[i]) (place v v[i + 1]) = i
  rw [place, place, hn.idxOf_getElem, hn.idxOf_getElem]
  omega

theorem SimplePath.onPath {ij : List (Ijp β γ)} (S : SimplePath v ij) {e : Ijp β γ} (he : e ∈ ij) :
    OnPath v e := by
  have hmem := S.edges.subset (List.mem_map_of_mem he)
  obtain ⟨i, hi, hedge⟩ := List.mem_iff_getElem.mp hmem
  have hlt : i + 1 < v.length := by
    have := hi
    simp only [pathEdges, List.length_zipWith, List.length_tail] at this
    omega
  simp only [pathEdges, List.getElem_zipWith, List.getElem_tail] at hedge
  have h1 : place v v[i] = i := by rw [place, S.nodup.idxOf_getElem]
  have h2 : place v v[i + 1] = (i + 1 : ℕ) := by rw [place, S.nodup.idxOf_getElem]
  rcases Sym2.eq_iff.mp hedge with ⟨hl, hr⟩ | ⟨hl, hr⟩
  · refine ⟨hl ▸ List.getElem_mem _, hr ▸ List.getElem_mem _, .inl ?_⟩
    rw [← hl, ← hr, h1, h2]
    push_cast
    rfl
  · refine ⟨hr ▸ List.getElem_mem _, hl ▸ List.getElem_mem _, .inr ?_⟩
    rw [← hl, ← hr, h1, h2]
    push_cast
    rfl

theorem SimplePath.numbers_perm {ij : List (Ijp β γ)} (S : SimplePath v ij) :
    (numbers v ij).Perm ((List.range ij.length).map Nat.cast) := by
  have hperm := S.edges.map (edgeMark v)
  rw [pathEdges_marks S.nodup, List.map_map] at hperm
  have hlen := hperm.length_eq
  rw [List.length_map, List.length_map, List.length_range] at hlen
  rw [hlen]
  exact hperm

/-- How many pairs of the path are behind the first one. -/
def pairsBehind (v : List Jan) (h : Ijp β γ) (t : List (Ijp β γ)) : ℕ :=
  if dir v h = 1 then (mark v h).toNat else t.length - (mark v h).toNat

/-- How many are ahead of it. -/
def pairsAhead (v : List Jan) (h : Ijp β γ) (t : List (Ijp β γ)) : ℕ :=
  t.length - pairsBehind v h t

theorem SimplePath.placed {h : Ijp β γ} {t : List (Ijp β γ)} (S : SimplePath v (h :: t)) :
    Placed v h t (pairsBehind v h t) (pairsAhead v h t) := by
  have hperm := S.numbers_perm
  have hn : (numbers v (h :: t)).Nodup :=
    hperm.nodup_iff.mpr (List.nodup_range.map Nat.cast_injective)
  have hmem : ∀ y, y ∈ numbers v (h :: t) ↔ 0 ≤ y ∧ y ≤ t.length := by
    intro y
    rw [hperm.mem_iff, List.mem_map]
    constructor
    · rintro ⟨i, hi, rfl⟩
      rw [List.mem_range, List.length_cons] at hi
      omega
    · rintro ⟨h0, h1⟩
      exact ⟨y.toNat, List.mem_range.mpr (by rw [List.length_cons]; omega), by omega⟩
  have hh := (hmem (mark v h)).mp List.mem_cons_self
  refine ⟨fun e he => S.onPath he, hn, fun y => ?_⟩
  have hy : y ∈ t.map (mark v) ↔ (0 ≤ y ∧ y ≤ t.length) ∧ y ≠ mark v h := by
    rw [← hmem]
    constructor
    · intro hin
      exact ⟨List.mem_cons_of_mem _ hin, fun he => (List.nodup_cons.mp hn).1 (he ▸ hin)⟩
    · exact fun hin => (List.mem_cons.mp hin.1).resolve_left hin.2
  rw [hy, mem_steps, mem_steps, pairsAhead, pairsBehind]
  rcases dir_cases (v := v) h with hd | hd
  · rw [hd, if_pos rfl]
    constructor
    · rintro ⟨⟨h0, h1⟩, hne⟩
      rcases lt_or_gt_of_ne hne with hlt | hgt
      · exact .inr ⟨(mark v h - 1 - y).toNat, by omega, by omega⟩
      · exact .inl ⟨(y - mark v h - 1).toNat, by omega, by omega⟩
    · rintro (⟨i, hi, rfl⟩ | ⟨i, hi, rfl⟩) <;> omega
  · rw [hd, if_neg (by decide)]
    constructor
    · rintro ⟨⟨h0, h1⟩, hne⟩
      rcases lt_or_gt_of_ne hne with hlt | hgt
      · exact .inl ⟨(mark v h - 1 - y).toNat, by omega, by omega⟩
      · exact .inr ⟨(y - mark v h - 1).toNat, by omega, by omega⟩
    · rintro (⟨i, hi, rfl⟩ | ⟨i, hi, rfl⟩) <;> omega

/-! ## The chain -/

/-- What a join makes of its pairs: the same ones, linked to a chain that `validateChain` accepts. -/
structure Chained (jb : Jb β γ) : Prop where
  reordered : Reordered jb.ij (buildJoinChain jb).1.ij
  linked : Linked (buildJoinChain jb).1.ij
  accepted : validAliases (buildJoinChain jb).1.ij = true

theorem chained_iff (jb : Jb β γ) :
    Chained jb ↔ Linked (alignChainToJans (chainLoop 255 jb.ij)) := by
  rw [← buildJoinChain_linked]
  exact ⟨fun h => h.linked, fun h => ⟨buildJoinChain_reordered jb, h, validAliases_iff.mpr h⟩⟩

/-- Pairs whose graph is a simple path are made a chain exactly if no pair is behind the first one, or
at most one on each side of it, or the first two passes do not find all pairs and the first pair comes
to a last one that points back, or to the end just when the byte that counts the passes is used up. -/
theorem buildJoinChain_path {h : Ijp β γ} {t : List (Ijp β γ)} (filters : List (Ijp β γ))
    (S : SimplePath v (h :: t)) : Chained ⟨h :: t, filters⟩ ↔
      pairsBehind v h t = 0 ∨ (pairsBehind v h t = 1 ∧ pairsAhead v h t ≤ 1) ∨
        (Unfinished v h t (pairsBehind v h t) (pairsAhead v h t) ∧
          Settles v h t (pairsBehind v h t) (pairsAhead v h t) 255) := by
  have P := S.placed
  have hlen := P.length
  have hsize : pairsBehind v h t + pairsAhead v h t ≤ 126 := by
    have hvs : v.length ≤ 128 := by
      simpa [maxJoinCols] using S.nodup.length_le_card
    have hedges := S.edges.length_eq
    simp only [pathEdges, List.length_map, List.length_cons, List.length_zipWith,
      List.length_tail] at hedges
    rw [List.length_map] at hlen
    omega
  rw [chained_iff, ← P.chained hsize]
  have hperm : (chainLoop 255 (h :: t)).Perm (h :: t) := chainLoop_perm
  cases hc : chainLoop 255 (h :: t) with
  | nil =>
      rw [hc] at hperm
      exact absurd hperm.length_eq.symm (Nat.succ_ne_zero _)
  | cons a l =>
      rw [hc] at hperm
      exact alignFrom_linked (fun e he => S.onPath (hperm.subset he))
        ((hperm.map (mark v)).nodup_iff.mpr P.nodup)

/-- A pair of aliases. -/
def jpair (i j : Jan) : Ijp Unit Unit := ⟨⟨i, ()⟩, ⟨j, ()⟩, ()⟩

/-- The second pair has its place before the third; the last one points back at the first. -/
theorem buildJoinChain_path_turns :
    Chained ⟨[jpair 2 3, jpair 0 1, jpair 1 2, jpair 4 3], ([] : List (Ijp Unit Unit))⟩ := by
  have S : SimplePath [0, 1, 2, 3, 4] [jpair 2 3, jpair 0 1, jpair 1 2, jpair 4 3] :=
    ⟨by decide, by decide, by decide⟩
  refine (buildJoinChain_path [] S).mpr (.inr (.inr ⟨.inr ⟨by decide, by decide⟩, .inl ⟨0, by decide,
    fun e _ i hi => absurd hi (Nat.not_lt_zero i), ?_⟩⟩))
  show ∀ e ∈ [jpair 0 1, jpair 1 2, jpair 4 3], _
  decide

/-- The path 1, 0, 2, 3 is refused. -/
theorem joinChain_bent :
    SimplePath [1, 0, 2, 3] [jpair 0 1, jpair 0 2, jpair 2 3] ∧
      (buildJoinChain ⟨[jpair 0 1, jpair 0 2, jpair 2 3], ([] : List (Ijp Unit Unit))⟩).1.ij =
        [jpair 0 1, jpair 3 2, jpair 2 0] ∧
      ¬ Chained ⟨[jpair 0 1, jpair 0 2, jpair 2 3], ([] : List (Ijp Unit Unit))⟩ := by
  have hrun : (buildJoinChain ⟨[jpair 0 1, jpair 0 2, jpair 2 3], ([] : List (Ijp Unit Unit))⟩).1.ij =
      [jpair 0 1, jpair 3 2, jpair 2 0] := by decide
  refine ⟨⟨by decide, by decide, by decide⟩, hrun, fun h => ?_⟩
  have hacc := h.accepted
  rw [hrun] at hacc
  exact absurd hacc (by decide)

end AlchemyDB.Query.Join
