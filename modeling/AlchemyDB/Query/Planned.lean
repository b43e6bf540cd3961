/-
# What a plan keeps of the WHERE clause

A plan is right when its filters are those of the WHERE clause, no more and no
fewer, the filters of the key list are equalities on the columns at whose level
they are looked up, and the rows are the same.  That is so when, behind the
first column of the multi-column index, the filters at the places of their
columns are equalities without a gap before them.
-/
import AlchemyDB.Query.Plan
import Mathlib.Data.List.Sort
import Mathlib.Order.Nat

namespace AlchemyDB.Plan

variable {κ ρ : Type} [LinearOrder κ] {T : Indexes} {E : Env κ ρ} {c : Nat} {cs : List Nat}
  {f g w : Filt κ ρ} {l fs klist flist : List (Filt κ ρ)} {val : ρ → Nat → κ}

/-! ## Statement -/

/-- The filters are equalities on the columns, one after the other. -/
def Aligned : List Nat → List (Filt κ ρ) → Prop
  | _, [] => True
  | [], _ :: _ => False
  | c :: cs, f :: fs => f.ic = some c ∧ f.op = .eq ∧ Aligned cs fs

/-- The plan keeps the WHERE clause: no filter is lost or duplicated, none is weakened by the walk
down the index, and the rows are those that satisfy all filters. -/
def Keeps (T : Indexes) (filters : List (Filt κ ρ)) (w : Filt κ ρ) (klist flist : List (Filt κ ρ)) :
    Prop :=
  (w :: (klist ++ flist)).Perm filters ∧ Aligned (mciOf T w).tail klist ∧
    ∀ (val : ρ → Nat → κ) (rows : List ρ),
      (planRows T val w klist flist rows).Perm (rows.filter fun r => filters.all (·.holds val r))

/-- The claim on one WHERE clause that is not refused. -/
def Preserves (T : Indexes) (E : Env κ ρ) (filters : List (Filt κ ρ)) : Prop :=
  ∃ w klist flist, optimiseRangeQueryPlan T E filters = .planned w klist flist ∧
    Keeps T filters w klist flist

/-- Place by place, the filter is an equality on the column there; from the first place on where it
is on another column, no filter stands at the place of its column. -/
def Keyed : List Nat → List (Filt κ ρ) → Prop
  | c :: cs, f :: fs =>
      (f.ic = some c ∧ f.op = .eq ∧ Keyed cs fs) ∨
        (f.ic ≠ some c ∧ ∀ e ∈ cs.zip fs, e.2.ic ≠ some e.1)
  | _, _ => True

/-- The columns of the index that the filters are put in order for, if it is a multi-column one. -/
def chosenMci (T : Indexes) (E : Env κ ρ) (filters : List (Filt κ ρ)) : List Nat :=
  if !T.nmci || filters.all (fun f => (mciOf T f).isEmpty) then []
  else ((sortHits T E filters).head?.map (mciOf T)).getD []

/-- The condition on the filters: the array of hits is large enough, and behind the first column of
the chosen index the filters are keyed. -/
def Straight (T : Indexes) (E : Env κ ρ) (filters : List (Filt κ ρ)) : Prop :=
  (T.nmci = true → filters.length ≤ maxJoinIndxs) ∧
    Keyed (chosenMci T E filters).tail
      (sortFlist2Clist (sortHits T E filters) (chosenMci T E filters)).tail

/-! ## Permutations -/

omit [LinearOrder κ] in
theorem toHead_perm (p : Filt κ ρ → Bool) (l : List (Filt κ ρ)) : (toHead p l).Perm l := by
  unfold toHead
  cases h : l.find? p with
  | none => exact .refl _
  | some f =>
      have hp : p f = true := List.find?_some h
      have hm : f ∈ l := List.mem_of_find?_eq_some h
      obtain ⟨a, l₁, l₂, hl₁, ha, hl, he⟩ := List.exists_of_eraseP hm hp
      have hfa : f = a := by
        rw [hl, List.find?_append, List.find?_eq_none.2 (by simpa using hl₁)] at h
        simpa [ha] using h.symm
      rw [he, hl, hfa]
      exact List.perm_middle.symm

omit [LinearOrder κ] in
theorem sortFlist2Clist_perm (l : List (Filt κ ρ)) : ∀ cs : List Nat, (sortFlist2Clist l cs).Perm l
  | [] => .refl _
  | _ :: cs => (toHead_perm _ _).trans (sortFlist2Clist_perm l cs)

omit [LinearOrder κ] in
theorem mciHit_flt (T : Indexes) (l : List (Filt κ ρ)) (f : Filt κ ρ) : (mciHit T l f).flt = f := by
  unfold mciHit
  split
  · rfl
  · split
    · rfl
    · split <;> rfl

omit [LinearOrder κ] in
theorem sortHits_perm (T : Indexes) (E : Env κ ρ) (l : List (Filt κ ρ)) : (sortHits T E l).Perm l := by
  have h := (E.perm mciHitSort (l.map (mciHit T l))).map Hit.flt
  rw [List.map_map] at h
  have hid : (Hit.flt ∘ mciHit T l) = id := by
    funext f
    exact mciHit_flt T l f
  rwa [hid, List.map_id] at h

omit [LinearOrder κ] in
theorem placeAtHead_perm (l : List (Filt κ ρ)) (n : Option Nat) : (placeAtHead l n).Perm l := by
  unfold placeAtHead
  split
  · exact .refl _
  · rename_i n
    split
    · exact .refl _
    · rename_i f hf
      obtain ⟨hn, rfl⟩ := List.getElem?_eq_some_iff.1 hf
      exact List.getElem_cons_eraseIdx_perm hn

/-! ## The key list -/

/-- The filters at the places of their columns. -/
def keys (cs : List Nat) (fs : List (Filt κ ρ)) : List (Filt κ ρ) :=
  ((cs.zip fs).filter fun e => isOn e.1 e.2).map Prod.snd

omit [LinearOrder κ] in
theorem keys_cons_on (h : f.ic = some c) : keys (c :: cs) (f :: fs) = f :: keys cs fs := by
  simp [keys, isOn, h]

omit [LinearOrder κ] in
theorem keys_cons_off (h : f.ic ≠ some c) : keys (c :: cs) (f :: fs) = keys cs fs := by
  simp [keys, isOn, h]

omit [LinearOrder κ] in
theorem mem_of_mem_keys {c : List Nat} (h : f ∈ keys c fs) : f ∈ fs := by
  obtain ⟨e, he, rfl⟩ := List.mem_map.1 h
  exact (List.of_mem_zip (List.mem_filter.1 he).1).2

omit [LinearOrder κ] in
/-- Keyed filters are taken off the head of the list, all of them and no others. -/
theorem Keyed.keys : ∀ {cs : List Nat} {fs : List (Filt κ ρ)}, Keyed cs fs →
    Aligned cs (keys cs fs) ∧ fs.take (keys cs fs).length = Plan.keys cs fs
  | [], fs, _ => by simp [Plan.keys, Aligned]
  | c :: cs, [], _ => by simp [Plan.keys, Aligned]
  | c :: cs, f :: fs, h => by
      rcases h with ⟨hon, heq, hk⟩ | ⟨hoff, hno⟩
      · obtain ⟨ha, ht⟩ := hk.keys
        rw [keys_cons_on hon]
        exact ⟨⟨hon, heq, ha⟩, by simp [ht]⟩
      · have hnil : Plan.keys cs fs = [] := by
          rw [Plan.keys, List.filter_eq_nil_iff.2]
          · rfl
          · intro e he
            simpa [isOn] using hno e he
        rw [keys_cons_off hoff, hnil]
        simp [Aligned]

/-! ## The order of the filters -/

/-- The list starts with a filter on the first column if it has one, then with one on the second,
and so on up to the first column without. -/
def Led : List Nat → List (Filt κ ρ) → Prop
  | [], _ => True
  | c :: cs, l => (∀ f ∈ l, f.ic ≠ some c) ∨ ∃ f t, l = f :: t ∧ f.ic = some c ∧ Led cs t

omit [LinearOrder κ] in
theorem Led.eraseP (hc : c ∉ cs) : ∀ {l : List (Filt κ ρ)}, Led cs l → Led cs (l.eraseP (isOn c)) := by
  induction cs with
  | nil => intro l _; trivial
  | cons d ds ih =>
      intro l h
      rcases h with hno | ⟨f, t, rfl, hf, ht⟩
      · exact .inl fun g hg => hno g (List.mem_of_mem_eraseP hg)
      · have hcd : c ≠ d := fun h => hc (by simp [h])
        have hskip : isOn c f = false := by simp [isOn, hf, Ne.symm hcd]
        rw [List.eraseP_cons_of_neg (by simp [hskip])]
        exact .inr ⟨f, _, rfl, hf, ih (fun h => hc (List.mem_cons_of_mem _ h)) ht⟩

omit [LinearOrder κ] in
theorem toHead_of_mem {p : Filt κ ρ → Bool} (hm : ∃ f ∈ l, p f = true) :
    ∃ f, p f = true ∧ toHead p l = f :: l.eraseP p := by
  cases h : l.find? p with
  | none =>
      obtain ⟨f, hf, hp⟩ := hm
      exact absurd hp (by simpa using List.find?_eq_none.1 h f hf)
  | some f => exact ⟨f, List.find?_some h, by rw [toHead, h]⟩

omit [LinearOrder κ] in
theorem led_sortFlist2Clist (l : List (Filt κ ρ)) : ∀ {cs : List Nat}, cs.Nodup →
    Led cs (sortFlist2Clist l cs)
  | [], _ => trivial
  | c :: cs, hnd => by
      have ih := led_sortFlist2Clist l (List.nodup_cons.1 hnd).2
      have hstep : sortFlist2Clist l (c :: cs) = toHead (isOn c) (sortFlist2Clist l cs) := rfl
      by_cases hm : ∃ f ∈ sortFlist2Clist l cs, isOn c f = true
      · obtain ⟨f, hf, he⟩ := toHead_of_mem hm
        rw [hstep, he]
        exact .inr ⟨f, _, rfl, by simpa [isOn] using hf, ih.eraseP (List.nodup_cons.1 hnd).1⟩
      · refine .inl fun f hf hic => hm ⟨f, ?_, by simp [isOn, hic]⟩
        rw [hstep] at hf
        exact (toHead_perm _ _).mem_iff.1 hf

omit [LinearOrder κ] in
/-- With the filters in that order, an aligned key list leaves no gap. -/
theorem Led.keyed : ∀ {cs : List Nat} {fs : List (Filt κ ρ)}, Led cs fs →
    Aligned cs (Plan.keys cs fs) → Keyed cs fs
  | [], _, _, _ => trivial
  | _ :: _, [], _, _ => trivial
  | c :: cs, f :: fs, hl, ha => by
      rcases hl with hno | ⟨f', t, heq, hf, ht⟩
      · have hoff : f.ic ≠ some c := hno f List.mem_cons_self
        rw [keys_cons_off hoff] at ha
        -- A first key would be a filter on `c`, and there is none.
        cases hk : Plan.keys cs fs with
        | nil =>
            refine .inr ⟨hoff, fun e he hic => ?_⟩
            have : e.2 ∈ Plan.keys cs fs :=
              List.mem_map.2 ⟨e, List.mem_filter.2 ⟨he, by simp [isOn, hic]⟩, rfl⟩
            rw [hk] at this
            cases this
        | cons g ks =>
            rw [hk] at ha
            have hg : g ∈ fs := mem_of_mem_keys (c := cs) (by rw [hk]; exact List.mem_cons_self)
            exact absurd ha.1 (hno g (List.mem_cons_of_mem _ hg))
      · cases heq
        rw [keys_cons_on hf] at ha
        exact .inl ⟨hf, ha.2.1, ht.keyed ha.2.2⟩

/-! ## The rows -/

theorem holds_eq {r : ρ} (hic : f.ic = some c) (hop : f.op = .eq) :
    f.holds val r = decide (val r c = f.akey) := by
  simp [Filt.holds, Filt.sat, Filt.get, hic, hop]

/-- The walk down an aligned key list leaves the rows that satisfy its filters. -/
theorem btMCIFindVal_rows : ∀ {klist : List (Filt κ ρ)} {cs : List Nat} (rows : List ρ),
    Aligned cs klist →
    ((btMCIFindVal val klist ⟨cs, rows⟩).map Node.rows).getD [] =
      rows.filter fun r => klist.all (·.holds val r)
  | [], _, rows, _ => by simp [btMCIFindVal]
  | _ :: _, [], _, ha => ha.elim
  | f :: klist, c :: cs, rows, ha => by
      obtain ⟨hic, hop, ha⟩ := ha
      have hsplit : (rows.filter fun r => (f :: klist).all (·.holds val r)) =
          (rows.filter fun r => decide (val r c = f.akey)).filter fun r => klist.all (·.holds val r) := by
        rw [List.filter_filter]
        refine List.filter_congr fun r _ => ?_
        rw [List.all_cons, holds_eq hic hop, Bool.and_comm]
      rw [hsplit, btMCIFindVal, btIndFind]
      dsimp only
      cases hl : rows.filter (fun r => decide (val r c = f.akey)) with
      | nil => rfl
      | cons r l => exact btMCIFindVal_rows (r :: l) ha

/-- Rows taken by the values of a column, over different values. -/
theorem flatMap_perm_filter {v : ρ → κ} {q : ρ → Bool} {R : List ρ} : ∀ {ks : List κ}, ks.Nodup →
    (ks.flatMap fun k => (R.filter fun r => decide (v r = k)).filter q).Perm
      (R.filter fun r => decide (v r ∈ ks) && q r)
  | [], _ => by simp
  | k :: ks, hnd => by
      obtain ⟨hk, hnd⟩ := List.nodup_cons.1 hnd
      have ih := flatMap_perm_filter (v := v) (q := q) (R := R) hnd
      have hcut := List.filter_append_perm (fun r => decide (v r = k))
        (R.filter fun r => decide (v r ∈ k :: ks) && q r)
      rw [List.filter_filter, List.filter_filter] at hcut
      rw [List.flatMap_cons]
      refine (List.Perm.append ?_ (ih.trans ?_)).trans hcut
      · rw [List.filter_filter]
        refine List.Perm.of_eq (List.filter_congr fun r _ => ?_)
        by_cases hr : v r = k <;> simp [hr]
      · refine List.Perm.of_eq (List.filter_congr fun r _ => ?_)
        by_cases hr : v r = k
        · simp [hr, hk]
        · simp [hr]

theorem driven_perm (hw : w.op = .eq ∨ w.op = .rq ∨ w.op = .inl)
    (hic : mciOf T w ≠ [] → w.ic = (mciOf T w).head?) (ha : Aligned (mciOf T w).tail klist)
    (rows : List ρ) :
    (driven T val w klist rows).Perm (rows.filter fun r => (w :: klist).all (·.holds val r)) := by
  unfold driven
  cases hm : mciOf T w with
  | nil =>
      rw [hm] at ha
      have hk : klist = [] := by
        cases klist with
        | nil => rfl
        | cons f l => exact ha.elim
      rw [hk]
      simp
  | cons c cs =>
      rw [hm] at ha hic
      have hwc : w.ic = some c := hic (by simp)
      have hsat : ∀ r, w.holds val r = w.sat (val r c) := by
        intro r
        rcases hw with h | h | h <;> simp [Filt.holds, Filt.get, h, hwc]
      have hcs : Aligned cs klist := ha
      simp only [btMCIFindVal_rows _ hcs]
      refine (flatMap_perm_filter ((List.nodup_dedup (rows.map (val · c))).filter _)).trans
        (List.Perm.of_eq (List.filter_congr fun r hr => ?_))
      have hmem : val r c ∈ (rows.map (val · c)).dedup :=
        List.mem_dedup.2 (List.mem_map.2 ⟨r, hr, rfl⟩)
      simp [hsat, List.mem_filter, hmem]

theorem all_holds_perm {l l' : List (Filt κ ρ)} (h : l.Perm l') (r : ρ) :
    l.all (·.holds val r) = l'.all (·.holds val r) := by
  rw [Bool.eq_iff_iff, List.all_eq_true, List.all_eq_true]
  exact ⟨fun H f hf => H f (h.mem_iff.2 hf), fun H f hf => H f (h.mem_iff.1 hf)⟩

/-- The filters of a plan, all of them, and an aligned key list give the rows. -/
theorem keeps_of_perm {filters : List (Filt κ ρ)} (hw : w.op = .eq ∨ w.op = .rq ∨ w.op = .inl)
    (hic : mciOf T w ≠ [] → w.ic = (mciOf T w).head?) (ha : Aligned (mciOf T w).tail klist)
    (hp : (w :: (klist ++ flist)).Perm filters) : Keeps T filters w klist flist := by
  refine ⟨hp, ha, fun val rows => ?_⟩
  refine ((driven_perm hw hic ha rows).filter _).trans (List.Perm.of_eq ?_)
  rw [List.filter_filter]
  refine List.filter_congr fun r _ => ?_
  rw [← all_holds_perm hp r, List.all_cons, List.all_cons, List.all_append, Bool.and_comm,
    Bool.and_assoc]

/-! ## The plan -/

omit [LinearOrder κ] in
/-- What an accepted plan has for its driving filter. -/
theorem accepted_eq {w' : Filt κ ρ} {k' l' : List (Filt κ ρ)}
    (h : accepted w klist flist = .planned w' k' l') :
    w' = w ∧ k' = klist ∧ l' = flist ∧ (w.op = .eq ∨ w.op = .rq ∨ w.op = .inl) := by
  unfold accepted at h
  split at h
  · cases h
  · split at h
    · cases h
    · rename_i hop
      cases h
      refine ⟨rfl, rfl, rfl, ?_⟩
      by_contra hno
      exact hop ⟨fun h => hno (.inl h), fun h => hno (.inr (.inl h)), fun h => hno (.inr (.inr h))⟩

omit [LinearOrder κ] in
theorem accepted_ne_overflow : accepted w klist flist ≠ .overflow := by
  unfold accepted
  split
  · exact nofun
  · split <;> exact nofun

omit [LinearOrder κ] in
theorem Parsed.head (hp : Parsed T f) (hm : mciOf T f ≠ []) : f.ic = (mciOf T f).head? := by
  unfold mciOf at hm ⊢
  cases hi : f.imatch with
  | none => rw [hi] at hm; exact absurd rfl hm
  | some i =>
      rw [hi] at hm
      unfold Parsed at hp
      cases hc : f.ic with
      | none => rw [hc] at hp; exact absurd (hp i hi) hm
      | some c =>
          rw [hc] at hp
          exact (T.first c i (by rw [← hp]; exact hi) hm).2.symm

omit [LinearOrder κ] in
/-- Filters on one column have one index. -/
theorem Parsed.mciOf_eq (hf : Parsed T f) (hg : Parsed T g) (hic : f.ic = some c)
    (hic' : g.ic = some c) : mciOf T f = mciOf T g := by
  unfold Parsed at hf hg
  rw [hic] at hf
  rw [hic'] at hg
  rw [mciOf, mciOf, show f.imatch = g.imatch from hf.trans hg.symm]

theorem matchCheapestMCI_plain (h : chosenMci T E l = []) :
    ∃ l', matchCheapestMCI T E l = ([], l', false) ∧ l'.Perm l := by
  unfold chosenMci at h
  unfold matchCheapestMCI
  split
  · exact ⟨l, rfl, .refl _⟩
  · rename_i hmci
    rw [if_neg hmci] at h
    dsimp only
    split
    · exact ⟨_, rfl, sortHits_perm T E l⟩
    · rename_i f hf
      rw [hf] at h
      split
      · exact ⟨_, rfl, sortHits_perm T E l⟩
      · rename_i c cs hm
        rw [Option.map_some, Option.getD_some, hm] at h
        cases h

omit [LinearOrder κ] in
theorem matchCheapestMCI_mci (h : chosenMci T E l = c :: cs) :
    ∃ known, matchCheapestMCI T E l =
      (keys (c :: cs) (sortFlist2Clist (sortHits T E l) (c :: cs)),
        (sortFlist2Clist (sortHits T E l) (c :: cs)).drop
          (keys (c :: cs) (sortFlist2Clist (sortHits T E l) (c :: cs))).length, known) := by
  unfold chosenMci at h
  unfold matchCheapestMCI
  split at h
  · cases h
  · rename_i hmci
    rw [if_neg hmci]
    dsimp only
    cases hf : (sortHits T E l).head? with
    | none => rw [hf] at h; cases h
    | some f =>
        rw [hf, Option.map_some, Option.getD_some] at h
        dsimp only
        rw [h]
        exact ⟨_, rfl⟩

omit [LinearOrder κ] in
/-- `sortFLCheap`, with a last step that only changes the order of the filter list. -/
theorem sortFLCheap_eq {known : Bool} (h : matchCheapestMCI T E l = (klist, flist, known)) :
    ∃ l', sortFLCheap T E l = (klist, l') ∧ l'.Perm flist := by
  unfold sortFLCheap
  rw [h]
  cases known with
  | true => exact ⟨_, rfl, .refl _⟩
  | false => exact ⟨_, rfl, placeAtHead_perm _ _⟩

/-- The filters are put in order for the index of the first of them, which is on the first column
of that index; so one on that column comes first. -/
theorem sorted_head (hp : ∀ f ∈ l, Parsed T f) (h : chosenMci T E l = c :: cs) :
    ∃ f fs, sortFlist2Clist (sortHits T E l) (c :: cs) = f :: fs ∧ f.ic = some c ∧
      mciOf T f = c :: cs := by
  unfold chosenMci at h
  split at h
  · cases h
  · cases hg : (sortHits T E l).head? with
    | none => rw [hg] at h; cases h
    | some g =>
        rw [hg, Option.map_some, Option.getD_some] at h
        have hgs : g ∈ sortHits T E l := List.mem_of_mem_head? hg
        have hgp : Parsed T g := hp g ((sortHits_perm T E l).mem_iff.1 hgs)
        have hgc : g.ic = some c := by
          have := hgp.head (by rw [h]; simp)
          rwa [h] at this
        have hm : ∃ f ∈ sortFlist2Clist (sortHits T E l) cs, isOn c f = true :=
          ⟨g, (sortFlist2Clist_perm _ cs).mem_iff.2 hgs, by simp [isOn, hgc]⟩
        obtain ⟨f, hf, he⟩ := toHead_of_mem hm
        have hfc : f.ic = some c := by simpa [isOn] using hf
        have hall : sortFlist2Clist (sortHits T E l) (c :: cs) =
            f :: (sortFlist2Clist (sortHits T E l) cs).eraseP (isOn c) := he
        have hfl : f ∈ l := by
          have : f ∈ sortFlist2Clist (sortHits T E l) (c :: cs) := by rw [hall]; simp
          exact (sortHits_perm T E l).mem_iff.1 ((sortFlist2Clist_perm _ _).mem_iff.1 this)
        exact ⟨f, _, hall, hfc, by rw [(hp f hfl).mciOf_eq hgp hfc hgc, h]⟩

/-- The plan when no multi-column index is chosen. -/
theorem plan_plain (hp : ∀ f ∈ l, Parsed T f) (h : chosenMci T E l = [])
    {w : Filt κ ρ} {k fl : List (Filt κ ρ)}
    (hpl : promoteKLorFLtoW (sortFLCheap T E l).1 (sortFLCheap T E l).2 = .planned w k fl) :
    Keeps T l w k fl := by
  obtain ⟨l', hm, hperm⟩ := matchCheapestMCI_plain h
  obtain ⟨l'', hs, hperm'⟩ := sortFLCheap_eq hm
  rw [hs] at hpl
  cases l'' with
  | nil => cases hpl
  | cons w' fl' =>
      obtain ⟨rfl, rfl, rfl, hop⟩ := accepted_eq hpl
      have hall : (w :: ([] ++ fl)).Perm l := hperm'.trans hperm
      exact keeps_of_perm hop (hp w (hall.mem_iff.1 List.mem_cons_self)).head
        (by cases (mciOf T w).tail <;> trivial) hall

/-- The plan when one is: right if and only if the key list is aligned. -/
theorem plan_mci (hp : ∀ f ∈ l, Parsed T f) (h : chosenMci T E l = c :: cs)
    {w : Filt κ ρ} {k fl : List (Filt κ ρ)}
    (hpl : promoteKLorFLtoW (sortFLCheap T E l).1 (sortFLCheap T E l).2 = .planned w k fl) :
    ∃ fs, sortFlist2Clist (sortHits T E l) (c :: cs) = w :: fs ∧ k = keys cs fs ∧
      fl.Perm (fs.drop (keys cs fs).length) ∧ w.ic = some c ∧ mciOf T w = c :: cs ∧
      (w.op = .eq ∨ w.op = .rq ∨ w.op = .inl) := by
  obtain ⟨known, hm⟩ := matchCheapestMCI_mci h
  obtain ⟨l', hs, hperm⟩ := sortFLCheap_eq hm
  obtain ⟨f, fs, hsort, hfc, hmci⟩ := sorted_head hp h
  rw [hsort, keys_cons_on hfc] at hs hperm
  rw [hs] at hpl
  obtain ⟨rfl, rfl, rfl, hop⟩ := accepted_eq hpl
  exact ⟨fs, hsort, rfl, by simpa using hperm, hfc, hmci, hop⟩

omit [LinearOrder κ] in
theorem promote_ne_overflow (klist flist : List (Filt κ ρ)) :
    promoteKLorFLtoW klist flist ≠ .overflow := by
  cases klist with
  | cons w k => exact accepted_ne_overflow
  | nil =>
      cases flist with
      | cons w fl => exact accepted_ne_overflow
      | nil => exact nofun

/-- A WHERE clause that is not refused is kept by its plan when its filters are straight; and
where the columns of the indexes are different ones, only then. -/
theorem plan_keeps_where (T : Indexes) (E : Env κ ρ) (W : Where κ ρ T)
    (hr : optimiseRangeQueryPlan T E W.filters ≠ .refused) :
    (Straight T E W.filters → Preserves T E W.filters) ∧
      ((∀ i, (T.clist i).Nodup) → Preserves T E W.filters → Straight T E W.filters) := by
  have hp := W.parsed
  unfold Preserves Straight
  by_cases hov : (T.nmci && decide (maxJoinIndxs < W.filters.length)) = true
  · have hplan : optimiseRangeQueryPlan T E W.filters = .overflow := by
      rw [optimiseRangeQueryPlan, if_pos hov]
    simp only [Bool.and_eq_true, decide_eq_true_eq] at hov
    refine ⟨fun hs => absurd (hs.1 hov.1) (by omega), ?_⟩
    rintro - ⟨w, k, fl, hpl, -⟩
    rw [hplan] at hpl
    cases hpl
  · have hplan : optimiseRangeQueryPlan T E W.filters =
        promoteKLorFLtoW (sortFLCheap T E W.filters).1 (sortFLCheap T E W.filters).2 := by
      rw [optimiseRangeQueryPlan, if_neg hov]
    have hsize : T.nmci = true → W.filters.length ≤ maxJoinIndxs := by
      intro hn
      by_contra hlt
      exact hov (by simp [hn]; omega)
    rw [hplan] at hr ⊢
    cases hpl : promoteKLorFLtoW (sortFLCheap T E W.filters).1 (sortFLCheap T E W.filters).2 with
    | overflow => exact absurd hpl (promote_ne_overflow _ _)
    | refused => exact absurd hpl hr
    | planned w k fl =>
        cases hm : chosenMci T E W.filters with
        | nil =>
            have hk := plan_plain hp hm hpl
            exact ⟨fun _ => ⟨w, k, fl, rfl, hk⟩, fun _ _ => ⟨hsize, by
              simp only [List.tail_nil]; cases (sortFlist2Clist _ _).tail <;> trivial⟩⟩
        | cons c cs =>
            obtain ⟨fs, hsort, rfl, hfl, hwc, hmci, hop⟩ := plan_mci hp hm hpl
            rw [hsort]
            constructor
            · rintro ⟨-, hkeyed⟩
              obtain ⟨ha, ht⟩ := Keyed.keys hkeyed
              refine ⟨w, _, fl, rfl, keeps_of_perm hop ?_ ?_ ?_⟩
              · intro _
                rw [hmci]
                exact hwc
              · rw [hmci]
                exact ha
              · have hall : (w :: fs).Perm W.filters := by
                  rw [← hsort]
                  exact (sortFlist2Clist_perm _ _).trans (sortHits_perm T E _)
                refine (List.Perm.cons w ((List.Perm.append_left _ hfl).trans ?_)).trans hall
                simp only [List.tail_cons] at ht
                nth_rewrite 1 [← ht]
                rw [List.take_append_drop]
            · rintro hnd ⟨w', k', fl', heq, -, ha, -⟩
              cases heq
              rw [hmci] at ha
              have hnd' : (c :: cs).Nodup := by
                obtain ⟨i, hi⟩ : ∃ i, T.clist i = c :: cs := by
                  unfold mciOf at hmci
                  split at hmci
                  · exact ⟨_, hmci⟩
                  · cases hmci
                rw [← hi]
                exact hnd i
              have hled : Led (c :: cs) (w :: fs) := by
                rw [← hsort]
                exact led_sortFlist2Clist _ hnd'
              rcases hled with hno | ⟨f, t, heq, -, ht⟩
              · exact absurd hwc (hno w List.mem_cons_self)
              · cases heq
                exact ⟨hsize, ht.keyed ha⟩

/-! ## An index on two columns -/

/-- A table with one index, on columns 1 and 2. -/
def pairIndex : Indexes where
  indexOf c := if c = 1 then some 0 else none
  clist _ := [1, 2]
  onFunc _ := false
  nmci := true
  first c i h _ := by
    split at h
    · rename_i hc
      subst hc
      exact ⟨rfl, rfl⟩
    · cases h

/-- `qsort` as a stable sort, all filters equally cheap, and no number of rows known. -/
def plainEnv : Env Nat (Nat → Nat) where
  qsort cmp l := l.insertionSort fun a b => cmp a b ≤ 0
  perm _ l := List.perm_insertionSort _ l
  numRows _ := 0
  mciKeys _ := none

/-- A filter on a column that compares with one key. -/
def keyFilt (op : FOp) (c k : Nat) : Filt Nat (Nat → Nat) :=
  ⟨some c, pairIndex.indexOf c, op, k, 0, 0, [], fun _ => 0, fun _ => false⟩

/-- Column 1 is 1, and column 2 compares with 5. -/
def pairWhere (op : FOp) : Where Nat (Nat → Nat) pairIndex where
  filters := [keyFilt .eq 1 1, keyFilt op 2 5]
  parsed f hf := by
    simp only [List.mem_cons, List.not_mem_nil, or_false] at hf
    rcases hf with rfl | rfl <;> rfl

/-- Both filters are equalities: the plan keeps them. -/
theorem plan_keeps_equalities :
    optimiseRangeQueryPlan pairIndex plainEnv (pairWhere .eq).filters ≠ .refused ∧
      Preserves pairIndex plainEnv (pairWhere .eq).filters := by
  have hplan : optimiseRangeQueryPlan pairIndex plainEnv (pairWhere .eq).filters =
      .planned (keyFilt .eq 1 1) [keyFilt .eq 2 5] [] := rfl
  have hr : optimiseRangeQueryPlan pairIndex plainEnv (pairWhere .eq).filters ≠ .refused := by
    rw [hplan]
    exact nofun
  refine ⟨hr, (plan_keeps_where pairIndex plainEnv (pairWhere .eq) hr).1 ⟨fun _ => by decide, ?_⟩⟩
  exact .inl ⟨rfl, rfl, trivial⟩

/-- `a = 1 AND b > 5` is walked as `a = 1 AND b = 5`. -/
theorem plan_walks_as_equality : ¬ ∀ (T : Indexes) (E : Env Nat (Nat → Nat))
    (W : Where Nat (Nat → Nat) T), optimiseRangeQueryPlan T E W.filters ≠ .refused →
      Preserves T E W.filters := by
  intro H
  have hplan : optimiseRangeQueryPlan pairIndex plainEnv (pairWhere .gt).filters =
      .planned (keyFilt .eq 1 1) [keyFilt .gt 2 5] [] := rfl
  obtain ⟨w, k, fl, heq, -, -, hrows⟩ :=
    H pairIndex plainEnv (pairWhere .gt) (by rw [hplan]; exact nofun)
  rw [hplan] at heq
  cases heq
  have hlen := (hrows (fun r c => r c) [fun c => if c = 1 then 1 else 6]).length_eq
  revert hlen
  decide

end AlchemyDB.Plan
