/-
# `AlchemyDB.BTree.NumRange` — ranges of numbers, up and down

An ascending range begins at the first key from the low key on, wherever the search for
it ends, and so it gives all of the range; the low key 0 alone may be one that the tree
takes for a null pointer.  A descending range begins where the search for the high key
ends, which was written for the other direction: if the key is not there, the scan skips
the key in front of it, or gives one behind it.
-/
import AlchemyDB.BTree.FullOffset
import AlchemyDB.BTree.NumTree

namespace AlchemyDB

open Store Weave

variable {α κ : Type} [LinearOrder κ] {K : RangeKeys α κ} {asc : Bool} {far low high : κ}

/-! ## What a scan takes -/

/-- The key is not beyond the bound. -/
def inside (K : RangeKeys α κ) (asc : Bool) (far : κ) (c : α × Nat) : Bool :=
  if asc then decide (K.key c.1 ≤ far) else decide (far ≤ K.key c.1)

theorem NumberKeys.over_iff (N : NumberKeys K) (c : α × Nat) :
    K.isOver asc (K.key c.1) 0 far = true ↔ inside K asc far c = false := by
  cases asc with
  | true => simp [N.up, inside]
  | false => simp [N.down, inside]

/-- Out of keys that go one way a scan takes those that are not beyond its bound. -/
theorem NumberKeys.takes_eq (N : NumberKeys K) : ∀ {l : List (α × Nat)}, (∀ c ∈ l, c.2 = 0) →
    (l.Pairwise fun x y => if asc then K.key x.1 < K.key y.1 else K.key y.1 < K.key x.1) →
    takes K asc far l = (l.filter (inside K asc far)).map Prod.fst
  | [], _, _ => rfl
  | c :: l, h0, hl => by
      obtain ⟨hc0, h0⟩ := List.forall_mem_cons.1 h0
      obtain ⟨hc, hl⟩ := List.pairwise_cons.1 hl
      -- behind a key at the bound or beyond it there is nothing to take
      have hend (hk : if asc then far ≤ K.key c.1 else K.key c.1 ≤ far) :
          (l.filter (inside K asc far)) = [] := by
        refine List.filter_eq_nil_iff.2 fun x hx => ?_
        have hlt := hc x hx
        cases asc with
        | true => simpa [inside] using lt_of_le_of_lt (by simpa using hk) (by simpa using hlt)
        | false => simpa [inside] using lt_of_lt_of_le (by simpa using hlt) (by simpa using hk)
      rw [takes, hc0]
      by_cases hover : K.isOver asc (K.key c.1) 0 far = true
      · have hout := (N.over_iff _).1 hover
        rw [if_pos hover, List.filter_cons_of_neg (by simp [hout]), hend]
        · rfl
        · cases asc with
          | true => simpa using (lt_of_not_ge (by simpa [inside] using hout)).le
          | false => simpa using (lt_of_not_ge (by simpa [inside] using hout)).le
      · have hin : inside K asc far c = true := by
          simpa using mt (N.over_iff _).2 hover
        rw [if_neg hover, List.filter_cons_of_pos hin, List.map_cons]
        by_cases hex : K.exact (K.key c.1) far = true
        · have hk := (N.exact _ _).1 hex
          rw [if_pos hex, hend (by simp [hk])]
          rfl
        · rw [if_neg hex, N.takes_eq h0 hl]

/-! ## The two directions -/

section Lists

variable {l A B : List (α × Nat)}

theorem between_eq : between K low high l =
    (l.filter fun c => decide (low ≤ K.key c.1 ∧ K.key c.1 ≤ high)).map Prod.fst :=
  List.filter_map

/-- The entries below a key and those from it on. -/
theorem below_append_onwards (K : RangeKeys α κ) (high : κ) (l : List (α × Nat)) :
    l = (below K high l).reverse ++ onwards K high l := by
  rw [below, List.reverse_reverse]
  exact List.takeWhile_append_dropWhile.symm

theorem below_lt {c : α × Nat} (hc : c ∈ below K high l) : K.key c.1 < high := by
  rw [below, List.mem_reverse] at hc
  simpa using List.mem_takeWhile_imp hc

theorem between_append (hB : ∀ c ∈ B, K.key c.1 < high) :
    between K low high (B.reverse ++ A) =
      ((B.filter (inside K false low)).map Prod.fst).reverse ++ between K low high A := by
  rw [between, List.map_append, List.filter_append, ← List.map_reverse, ← List.filter_reverse]
  congr 1
  rw [List.filter_map]
  refine congrArg _ (List.filter_congr fun c hc => ?_)
  have hlt := (hB c (List.mem_reverse.1 hc)).le
  simp [inside, hlt]

/-- Where the first entry is above the high key, nothing of the range is there. -/
theorem between_beyond {c : α × Nat} (hl : (c :: A).Pairwise fun x y => K.key x.1 < K.key y.1)
    (hc : high < K.key c.1) : between K low high (c :: A) = [] := by
  refine List.filter_eq_nil_iff.2 fun e he => ?_
  obtain ⟨x, hx, rfl⟩ := List.mem_map.1 he
  have hle : K.key c.1 ≤ K.key x.1 := by
    rcases List.mem_cons.1 hx with rfl | hx
    · exact le_rfl
    · exact ((List.pairwise_cons.1 hl).1 x hx).le
  simpa using fun _ => hc.trans_le hle

theorem between_at {c : α × Nat} (hl : (c :: A).Pairwise fun x y => K.key x.1 < K.key y.1)
    (hle : low ≤ high) (hc : K.key c.1 = high) : between K low high (c :: A) = [c.1] := by
  rw [between, List.map_cons, List.filter_cons_of_pos (by simp [hc, hle])]
  congr 1
  refine List.filter_eq_nil_iff.2 fun e he => ?_
  obtain ⟨x, hx, rfl⟩ := List.mem_map.1 he
  simpa using fun _ => hc ▸ (List.pairwise_cons.1 hl).1 x hx

/-- Of entries that go down, the first one is left out without loss where it is out of the range. -/
theorem filter_tail_iff (hB : B.Pairwise fun x y => K.key y.1 < K.key x.1) :
    (B.tail.filter (inside K false low)).map Prod.fst =
        (B.filter (inside K false low)).map Prod.fst ↔
      B.filter (inside K false low) = [] := by
  cases B with
  | nil => exact iff_of_true rfl rfl
  | cons x B =>
      obtain ⟨hx, hB⟩ := List.pairwise_cons.1 hB
      rw [List.tail_cons]
      by_cases hin : inside K false low x = true
      · rw [List.filter_cons_of_pos hin]
        refine iff_of_false (fun h => ?_) (List.cons_ne_nil _ _)
        have hlen := congrArg List.length h
        simp at hlen
      · have hnil : B.filter (inside K false low) = [] := by
          refine List.filter_eq_nil_iff.2 fun y hy => ?_
          have hlt : K.key x.1 < low := by simpa [inside] using hin
          simpa [inside] using (hx y hy).trans hlt
        rw [List.filter_cons_of_neg hin, hnil]
        exact iff_of_true rfl rfl

/-- The high key is there just when it is the first key that is not below it. -/
theorem mem_onwards_iff : (∃ c ∈ l, K.key c.1 = high) ↔ ∃ c ∈ onwards K high l, K.key c.1 = high := by
  constructor
  · rintro ⟨c, hc, hk⟩
    rw [below_append_onwards K high l, List.mem_append, List.mem_reverse] at hc
    exact ⟨c, hc.resolve_left fun h => (below_lt h).ne hk, hk⟩
  · rintro ⟨c, hc, hk⟩
    exact ⟨c, (List.dropWhile_sublist _).subset hc, hk⟩

theorem onwards_head {c : α × Nat} (h : onwards K high l = c :: A) : high ≤ K.key c.1 := by
  have hh := List.head?_dropWhile_not (fun c => decide (K.key c.1 < high)) l
  rw [show l.dropWhile (fun c => decide (K.key c.1 < high)) = c :: A from h] at hh
  simpa using hh

/-- A first key above the high key: the high key is not there. -/
theorem not_mem_of_head {c : α × Nat} (hl : (c :: A).Pairwise fun x y => K.key x.1 < K.key y.1)
    (hlt : high < K.key c.1) : ¬ ∃ x ∈ c :: A, K.key x.1 = high := by
  rintro ⟨x, hx, hk⟩
  rcases List.mem_cons.1 hx with rfl | hx
  · exact hlt.ne' hk
  · exact (hlt.trans ((List.pairwise_cons.1 hl).1 x hx)).ne' hk

/-- What a descending range gives is the range backwards if the high key is there; otherwise only if
the range is empty, and the search does not end in front of a key. -/
theorem backFrom_iff (hl : l.Pairwise fun x y => K.key x.1 < K.key y.1) (hle : low ≤ high)
    (front : Bool) :
    ((backFrom K front high l).filter (inside K false low)).map Prod.fst =
        (between K low high l).reverse ↔
      (∃ c ∈ l, K.key c.1 = high) ∨
        between K low high l = [] ∧ (onwards K high l = [] ∨ front = false) := by
  have hcut := below_append_onwards K high l
  have hbelow : ∀ c ∈ below K high l, K.key c.1 < high := fun c => below_lt
  have hbetween : between K low high l =
      (((below K high l).filter (inside K false low)).map Prod.fst).reverse ++
        between K low high (onwards K high l) := by
    conv_lhs => rw [hcut]
    exact between_append hbelow
  have hsorted := hl
  rw [hcut] at hsorted
  obtain ⟨hdown, hup, -⟩ := List.pairwise_append.1 hsorted
  rw [List.pairwise_reverse] at hdown
  rw [mem_onwards_iff, hbetween, backFrom]
  cases hon : onwards K high l with
  | nil => simp [between]
  | cons c A =>
      rw [hon] at hup
      rcases (onwards_head hon).eq_or_lt with heq | hlt
      · -- the high key is there
        have hin : inside K false low c = true := by simp [inside, ← heq, hle]
        refine iff_of_true ?_ (.inl ⟨c, List.mem_cons_self, heq.symm⟩)
        simp only [heq.symm, true_or, if_true]
        rw [List.filter_cons_of_pos hin, between_at hup hle heq.symm]
        simp
      · have hnone := not_mem_of_head hup hlt
        rw [between_beyond hup hlt, List.append_nil, List.reverse_reverse]
        simp only [hnone, hlt.ne', false_or, reduceCtorEq, List.reverse_eq_nil_iff, List.map_eq_nil_iff]
        cases front with
        | true =>
            -- the key behind the range is given
            have hin : inside K false low c = true := by simp [inside, (hle.trans_lt hlt).le]
            simp only [if_true, List.filter_cons_of_pos hin, Bool.true_eq_false, and_false, iff_false]
            intro h
            have hlen := congrArg List.length h
            simp at hlen
        | false =>
            -- the key in front of the high key is not given
            simp only [Bool.false_eq_true, if_false, and_true]
            exact filter_tail_iff hdown

/-- A descending range from a low key that is taken for a null pointer gives nothing. -/
theorem backFrom_nil_iff (hl : l.Pairwise fun x y => K.key x.1 < K.key y.1)
    (hlow : ∀ c ∈ l, low ≤ K.key c.1) (front : Bool) :
    ((backFrom K front high l).filter (inside K false low)).map Prod.fst = [] ↔
      onwards K high l = [] ∨
        (¬ ∃ c ∈ l, K.key c.1 = high) ∧ front = false ∧ (below K high l).length ≤ 1 := by
  have hup := hl.sublist (List.dropWhile_sublist fun c => decide (K.key c.1 < high))
  have hall : (backFrom K front high l).filter (inside K false low) = backFrom K front high l := by
    refine List.filter_eq_self.2 fun c hc => ?_
    simpa [inside] using hlow c (mem_backFrom hc)
  rw [hall, List.map_eq_nil_iff, mem_onwards_iff, backFrom]
  change List.Pairwise _ (onwards K high l) at hup
  cases hon : onwards K high l with
  | nil => exact iff_of_true rfl (.inl rfl)
  | cons c A =>
      rw [hon] at hup
      rcases (onwards_head hon).eq_or_lt with heq | hlt
      · simp [heq.symm]
      · simp only [not_mem_of_head hup hlt, hlt.ne', false_or, reduceCtorEq, not_false_eq_true, true_and]
        cases front with
        | true => simp
        | false =>
            simp only [Bool.false_eq_true, if_false, true_and]
            rw [← List.length_eq_zero_iff, List.length_tail]
            omega

end Lists

/-! ## What the ranges give -/

section Scans

variable [RowStream α] [DecidableEq κ] {D : Nat} {tr : Trans} {b : Bt α} {T : Sub α (D + 1)}

/-- A range of numbers, in either direction. -/
theorem Searched.numRange (S : Searched K tr b T) (N : NumberKeys K)
    (hmake : ∀ k e, K.bkey k = some e → K.key e = k) (low high : κ) (asc : Bool) :
    Scans K b asc (btGetRangeIter K b low high asc)
      (((scanList K b asc (if asc then low else high) (T.flat (tr.view α))).filter
        (inside K asc (if asc then high else low))).map Prod.fst) := by
  rw [← N.takes_eq (fun c hc => (S.entry (mem_scanList hc)).1) (scanList_pairwise S.scanned.order)]
  cases asc with
  | true =>
      simp only [if_true]
      cases hb : K.bkey low with
      | none =>
          simp only [scanList, hb]
          exact range_null hb
      | some k =>
          simp only [scanList, hb, if_true, takes_true]
          exact S.range hb (hmake _ _ hb)
  | false =>
      simp only [Bool.false_eq_true, if_false]
      cases hb : K.bkey high with
      | none =>
          simp only [scanList, hb]
          exact (null_back hb 0).1
      | some k =>
          simp only [scanList, hb, Bool.false_eq_true, if_false]
          exact S.rangeBack hb (hmake _ _ hb)

/-- An ascending range gives all of the range, or nothing. -/
theorem Searched.rangeUp (S : Searched K tr b T) (N : NumberKeys K)
    (hmake : ∀ k e, K.bkey k = some e → K.key e = k) (low high : κ) :
    Scans K b true (btGetRangeIter K b low high true)
      (if K.bkey low = none then [] else AlchemyDB.between K low high (T.flat (tr.view α))) := by
  have h := S.numRange N hmake low high true
  simp only [if_true, scanList] at h
  cases hb : K.bkey low with
  | none =>
      rw [if_pos rfl]
      simp only [hb] at h
      exact h
  | some k =>
      simp only [hb] at h
      rw [if_neg (by simp), between_eq]
      rw [onwards_eq_filter S.scanned.order, List.filter_filter] at h
      have he : (fun c : α × Nat => inside K true high c && decide (low ≤ K.key c.1)) =
          fun c => decide (low ≤ K.key c.1 ∧ K.key c.1 ≤ high) := by
        funext c
        simp [inside, Bool.and_comm]
      rwa [he] at h

/-- The scan of the whole tree gives all its keys, up and down. -/
theorem Searched.numFull (S : Searched K tr b T) (N : NumberKeys K) (asc : Bool) :
    Scans K b asc (btGetFullRangeIter K b asc)
      ((inDirection asc (T.flat (tr.view α))).map Prod.fst) := by
  by_cases hnil : T.flat (tr.view α) = []
  · have hn : b.numkeys = 0 := by
      rw [S.count, keys_of_flat , hnil]
      rfl
    rw [hnil]
    refine ⟨.null, by simp [btGetFullRangeIter, hn], ?_⟩
    cases asc <;> rfl
  obtain ⟨c, l, hc⟩ := List.exists_cons_of_ne_nil hnil
  obtain ⟨c', hlast⟩ : ∃ c', (T.flat (tr.view α)).getLast? = some c' :=
    Option.isSome_iff_exists.1 (by rw [hc]; simp)
  have horder := S.scanned.order
  have h0 : ∀ x ∈ inDirection asc (T.flat (tr.view α)), x.2 = 0 := by
    intro x hx
    refine (S.entry ?_).1
    cases asc with
    | true => exact hx
    | false => exact List.mem_reverse.1 hx
  cases asc with
  | true =>
      have hfar : farEnd true (T.flat (tr.view α)) = some c' := hlast
      have h := S.fullScan hfar
      rw [N.takes_eq h0 (by simpa [inDirection] using horder)] at h
      rwa [List.filter_eq_self.2 fun x hx => by simpa [inside] using (S.between hc hlast hx).2] at h
  | false =>
      have hfar : farEnd false (T.flat (tr.view α)) = some c := by
        rw [farEnd, hc]
        rfl
      have h := S.fullScan hfar
      rw [N.takes_eq h0 (by simpa [inDirection, List.pairwise_reverse] using horder)] at h
      rwa [List.filter_eq_self.2 fun x hx => by
        simpa [inside] using (S.between hc hlast (List.mem_reverse.1 hx)).1] at h

end Scans

/-! ## The keys of a tree and a map -/

section Lists

/-- The keys of a list of entries, and those of a map. -/
structure Lists (key : α → κ) (m : κ → Option α) (l : List (α × Nat)) : Prop where
  order : l.Pairwise fun x y => key x.1 < key y.1
  mem : ∀ k, (∃ c ∈ l, key c.1 = k) ↔ m k ≠ none

variable {key : α → κ} {m : κ → Option α} {l : List (α × Nat)}

theorem Lists.forall_iff (L : Lists key m l) (P : κ → Prop) :
    (∀ c ∈ l, ¬ P (key c.1)) ↔ ∀ k, P k → m k = none := by
  constructor
  · intro h k hk
    by_contra hne
    obtain ⟨c, hc, rfl⟩ := (L.mem k).2 hne
    exact h c hc hk
  · intro h c hc hP
    exact (L.mem _).1 ⟨c, hc, rfl⟩ (h _ hP)

theorem Lists.onwards_iff (L : Lists K.key m l) :
    onwards K high l = [] ↔ ∀ k, high ≤ k → m k = none := by
  rw [onwards_eq_filter L.order, List.filter_eq_nil_iff, ← L.forall_iff]
  simp

theorem Lists.between_iff (L : Lists K.key m l) :
    between K low high l = [] ↔ ∀ k, low ≤ k → k ≤ high → m k = none := by
  rw [between_eq, List.map_eq_nil_iff, List.filter_eq_nil_iff]
  simp only [decide_eq_true_eq]
  rw [L.forall_iff fun k => low ≤ k ∧ k ≤ high]
  exact forall_congr' fun k => and_imp

/-- The keys below a key. -/
theorem Lists.mem_below (L : Lists K.key m l) {k : κ} (hk : k < high) :
    (∃ c ∈ below K high l, K.key c.1 = k) ↔ m k ≠ none := by
  have hcut := below_append_onwards K high l
  rw [← L.mem]
  constructor
  · rintro ⟨c, hc, he⟩
    refine ⟨c, ?_, he⟩
    rw [hcut]
    exact List.mem_append_left _ (List.mem_reverse.2 hc)
  · rintro ⟨c, hc, rfl⟩
    rw [hcut, List.mem_append, List.mem_reverse] at hc
    refine ⟨c, hc.resolve_right fun hon => ?_, rfl⟩
    rw [onwards_eq_filter L.order] at hon
    exact absurd hk (not_lt.2 (by simpa using (List.mem_filter.1 hon).2))

theorem Lists.below_iff (L : Lists K.key m l) : (below K high l).length ≤ 1 ↔
    ∀ k k', k < high → k' < high → m k ≠ none → m k' ≠ none → k = k' := by
  constructor
  · intro hlen k k' hk hk' hm hm'
    obtain ⟨c, hc, rfl⟩ := (L.mem_below hk).2 hm
    obtain ⟨c', hc', rfl⟩ := (L.mem_below hk').2 hm'
    obtain ⟨x, hx⟩ := List.length_eq_one_iff.1 (le_antisymm hlen (List.length_pos_of_mem hc))
    rw [hx, List.mem_singleton] at hc hc'
    rw [hc, hc']
  · intro huniq
    have hdown := L.order
    rw [below_append_onwards K high l] at hdown
    have hdown := List.pairwise_reverse.1 (List.pairwise_append.1 hdown).1
    cases hB : below K high l with
    | nil => exact Nat.zero_le _
    | cons x B =>
        cases B with
        | nil => exact le_rfl
        | cons y B =>
            rw [hB] at hdown
            have hx : x ∈ below K high l := hB ▸ List.mem_cons_self
            have hy : y ∈ below K high l := hB ▸ List.mem_cons_of_mem x List.mem_cons_self
            have heq := huniq _ _ (below_lt hx) (below_lt hy)
              ((L.mem_below (below_lt hx)).1 ⟨x, hx, rfl⟩) ((L.mem_below (below_lt hy)).1 ⟨y, hy, rfl⟩)
            exact absurd heq.symm (List.rel_of_pairwise_cons hdown List.mem_cons_self).ne

end Lists

/-! ## Runs -/

section Runs

variable [RowStream α] {n D : Nat} (N : NumTree α n) {tr : Trans} {sp : Bts} {dirty : Bool}
  {b : Bt α} {m : Fin n → Option α} {T : Sub α (D + 1)} {low high : Fin n}

/-- A tree of numbers that holds what a map holds. -/
structure NumTree.At (tr : Trans) (b : Bt α) (m : Fin n → Option α) (T : Sub α (D + 1)) : Prop where
  searched : Searched N.keys tr b T
  mem : ∀ e, e ∈ (T.flat (tr.view α)).map Prod.fst ↔ m (N.keys.key e) = some e
  key : ∀ k e, m k = some e → N.keys.key e = k

/-- A tree of numbers that was made by steps. -/
theorem NumTree.at [Inhabited α] (h : RunsTo N.keys.key sp (btCreate N.cmp tr sp dirty) b m)
    (he : ∀ k e, m k = some e → N.Entry e) (h32 : b.numkeys < 4294967296) :
    ∃ D, ∃ T : Sub α (D + 1), N.At tr b m T := by
  obtain ⟨D, T, S, hm⟩ := h.searched N.ordered (fun k e hk => N.sound e (he k e hk)) h32
  exact ⟨D, T, S, fun e => by rw [← keys_of_flat, hm], fun _ _ hk => h.key_eq N.ordered hk⟩

/-- An ascending range gives the keys from `low` to `high`, and the scans of the whole tree give all
of its keys, up and down. -/
def RangesExact (b : Bt α) (m : Fin n → Option α) (low high : Fin n) : Prop :=
  (∃ l, Scans N.keys b true (btGetRangeIter N.keys b low high true) l ∧
    InRange N.keys.key m low high l) ∧
  ∃ l, (l.Pairwise fun x y => N.keys.key x < N.keys.key y) ∧
    (∀ e, e ∈ l ↔ m (N.keys.key e) = some e) ∧
    Scans N.keys b true (btGetFullRangeIter N.keys b true) l ∧
    Scans N.keys b false (btGetFullRangeIter N.keys b false) l.reverse

/-- A descending range gives the keys of the ascending one, backwards. -/
def Mirrored (b : Bt α) (low high : Fin n) : Prop :=
  ∃ l, Scans N.keys b true (btGetRangeIter N.keys b low high true) l ∧
    Scans N.keys b false (btGetRangeIter N.keys b low high false) l.reverse

/-- The search for the key ends in a leaf, in front of its first key. -/
def EndsInFront (b : Bt α) (k : Fin n) : Prop :=
  ∃ e, N.keys.bkey k = some e ∧ endsInFront b e b.next b.root = true

variable {N}

theorem NumTree.At.lists (A : N.At tr b m T) : Lists N.keys.key m (T.flat (tr.view α)) where
  order := A.searched.scanned.order
  mem k := by
    constructor
    · rintro ⟨c, hc, rfl⟩
      rw [(A.mem c.1).1 (List.mem_map_of_mem hc)]
      exact Option.some_ne_none _
    · intro hk
      obtain ⟨e, hk⟩ := Option.ne_none_iff_exists'.1 hk
      obtain rfl := A.key _ _ hk
      obtain ⟨c, hc, rfl⟩ := List.mem_map.1 ((A.mem e).2 hk)
      exact ⟨c, hc, rfl⟩

theorem NumTree.At.exact_iff (A : N.At tr b m T) : RangesExact N b m low high ↔
    N.keys.bkey low ≠ none ∨ ∀ k, low ≤ k → k ≤ high → m k = none := by
  have S := A.searched
  have hsorted : ((T.flat (tr.view α)).map Prod.fst).Pairwise fun x y =>
      N.keys.key x < N.keys.key y := List.pairwise_map.2 S.scanned.order
  have hbetween : InRange N.keys.key m low high (between N.keys low high (T.flat (tr.view α))) := by
    refine ⟨hsorted.filter _, fun e => ?_⟩
    rw [between, List.mem_filter, A.mem, decide_eq_true_eq]
  have hfull : ∃ l, (l.Pairwise fun x y => N.keys.key x < N.keys.key y) ∧
      (∀ e, e ∈ l ↔ m (N.keys.key e) = some e) ∧
      Scans N.keys b true (btGetFullRangeIter N.keys b true) l ∧
      Scans N.keys b false (btGetFullRangeIter N.keys b false) l.reverse := by
    refine ⟨_, hsorted, A.mem, S.numFull N.number true, ?_⟩
    rw [← List.map_reverse]
    exact S.numFull N.number false
  have hup := S.rangeUp N.number N.made low high
  rw [RangesExact, and_iff_left hfull]
  by_cases hb : N.keys.bkey low = none
  · -- nothing is given
    rw [if_pos hb] at hup
    simp only [hb, ne_eq, not_true_eq_false, false_or]
    constructor
    · rintro ⟨l, hl, hr⟩
      rw [hl.unique hup] at hr
      rw [← A.lists.between_iff]
      exact (hr.unique hbetween).symm
    · intro hnone
      rw [← A.lists.between_iff.2 hnone] at hup
      exact ⟨_, hup, hbetween⟩
  · rw [if_neg hb] at hup
    exact iff_of_true ⟨_, hup, hbetween⟩ (.inl hb)

theorem NumTree.At.mirrored_iff (A : N.At tr b m T) (hle : low ≤ high) : Mirrored N b low high ↔
    if N.keys.bkey low = none then
      N.keys.bkey high = none ∨ (∀ k, high ≤ k → m k = none) ∨
        (m high = none ∧ ¬ EndsInFront N b high ∧
          ∀ k k', k < high → k' < high → m k ≠ none → m k' ≠ none → k = k')
    else
      m high ≠ none ∨ (∀ k, low ≤ k → k ≤ high → m k = none) ∧
        ((∀ k, high ≤ k → m k = none) ∨ ¬ EndsInFront N b high) := by
  have S := A.searched
  have L := A.lists
  have hup := S.rangeUp N.number N.made low high
  have hdown := S.numRange N.number N.made low high false
  simp only [Bool.false_eq_true, if_false] at hdown
  have hmirror : Mirrored N b low high ↔
      ((scanList N.keys b false high (T.flat (tr.view α))).filter (inside N.keys false low)).map Prod.fst =
        (if N.keys.bkey low = none then [] else between N.keys low high (T.flat (tr.view α))).reverse := by
    constructor
    · rintro ⟨l, hl, hl'⟩
      rw [hup.unique hl]
      exact hdown.unique hl'
    · intro heq
      exact ⟨_, hup, heq ▸ hdown⟩
  rw [hmirror]
  cases hhigh : N.keys.bkey high with
  | none =>
      -- the high key is 0, and so is the low key
      have h0 := N.zero high hhigh
      have heq : low = high := Fin.ext (by have := Fin.le_def.1 hle; omega)
      rw [heq, if_pos hhigh, if_pos hhigh, scanList, hhigh]
      exact iff_of_true rfl (.inl rfl)
  | some e =>
      have hfront : EndsInFront N b high ↔ endsInFront b e b.next b.root = true := by
        simp only [EndsInFront, hhigh, Option.some.injEq, exists_eq_left']
      simp only [scanList, hhigh, Bool.false_eq_true, if_false, hfront, Bool.not_eq_true,
        reduceCtorEq, false_or]
      by_cases hlow : N.keys.bkey low = none
      · have h0 := N.zero low hlow
        rw [if_pos hlow, if_pos hlow, List.reverse_nil, backFrom_nil_iff L.order fun c _ =>
          Fin.le_def.2 (by omega), L.onwards_iff, L.below_iff, L.mem, not_not]
      · rw [if_neg hlow, if_neg hlow, backFrom_iff L.order hle, L.onwards_iff, L.between_iff, L.mem]

variable [Inhabited α]

end Runs

/-! ## Three rows -/

/-- The specification of a table of two INTs. -/
def uuBts : Bts := ⟨.int, .table, 8, btflagUintUint⟩

/-- The rows (1, 7), (3, 7) and (5, 7). -/
def oddRows : List UUWord :=
  [⟨Index.uuPack 1 7, by decide⟩, ⟨Index.uuPack 3 7, by decide⟩, ⟨Index.uuPack 5 7, by decide⟩]

/-- What the table of the three rows holds. -/
def oddHeld : Fin 2147483649 → Option UUWord := held uuTree.keys.key (oddRows.map .insert)

theorem runsTo_odd : ∃ b, play (oddRows.map .insert) (btCreate uuTree.cmp .one uuBts false) = some b ∧
    RunsTo uuTree.keys.key uuBts (btCreate uuTree.cmp .one uuBts false) b oddHeld ∧ b.numkeys = 3 :=
  runsTo_inserts rfl rfl (by decide) (by decide)

/-- The range from 0 to 4 gives nothing. -/
theorem range_from_zero : ∃ b,
    play (oddRows.map .insert) (btCreate uuTree.cmp .one uuBts false) = some b ∧
      ¬ RangesExact uuTree b oddHeld 0 4 := by
  obtain ⟨b, hp, h, hn⟩ := runsTo_odd
  obtain ⟨D, T, A⟩ := uuTree.at h (fun _ _ _ => trivial) (by omega)
  refine ⟨b, hp, fun hr => ?_⟩
  rcases A.exact_iff.1 hr with hz | hnone
  · exact hz (by decide)
  · exact absurd (hnone 3 (by decide) (by decide)) (by decide)

/-- The range from 1 to 4 gives 1 and 3 upwards, and 1 alone downwards. -/
theorem range_down_loses_key : ∃ b,
    play (oddRows.map .insert) (btCreate uuTree.cmp .one uuBts false) = some b ∧
      ¬ Mirrored uuTree b 1 4 := by
  obtain ⟨b, hp, h, hn⟩ := runsTo_odd
  obtain ⟨D, T, A⟩ := uuTree.at h (fun _ _ _ => trivial) (by omega)
  refine ⟨b, hp, fun hr => ?_⟩
  have hiff := (A.mirrored_iff (by decide)).1 hr
  rw [if_neg (by decide)] at hiff
  rcases hiff with hthere | ⟨hnone, -⟩
  · exact hthere (by decide)
  · exact absurd (hnone 3 (by decide) (by decide)) (by decide)

end AlchemyDB
