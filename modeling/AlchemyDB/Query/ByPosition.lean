/-
# `idx.pos()` — rows by their position in a UNIQUE index

Selected, `idx.pos()` is what the search for the row has counted: the first row has the position 1.
As a filter it is rewritten to a scan of the whole index with an OFFSET and a LIMIT: there `p` stands
for the row behind the first `p`, and `BETWEEN a AND b` for the `b - a` rows behind the first `a`.

A row whose entry in a packed tree has the primary key 0 is taken for one that is not there: the scan
fails, and so does a SELECT of its position.  Nor is a key found that makes no stream; if it is the
least one the scan does not begin.
-/
import AlchemyDB.BTree.Position
import AlchemyDB.BTree.Offset

namespace AlchemyDB.Query.ByPosition

open Store Weave

variable {α κ : Type} [RowStream α] [DecidableEq κ] (K : RangeKeys α κ) (noval : α → Bool)

/-! ## The query -/

/-- A filter on `idx.pos()`. -/
inductive PosFlt where
  | key (akey : Nat)
  | range (alow ahigh : Nat)

/-- The range, LIMIT and OFFSET of a query. -/
structure LimOfst (κ : Type) where
  alow : κ
  ahigh : κ
  lim : Nat
  ofst : Nat

/-- `rewriteFuncToLimOfstQuery`; it fails if there is no least or no largest key. -/
def rewriteFuncToLimOfstQuery (b : Bt α) (flt : PosFlt) : Option (Option (LimOfst κ)) := do
  let lo := match flt with
    | .key akey => (1, akey)
    | .range alow ahigh => (ahigh - alow, alow)
  let edges ← edgeKeys K b
  some (edges.map fun e => ⟨e.1, e.2, lo.1, lo.2⟩)

/-- The loop of `rangeOpFK` over a UNIQUE index on one column, with `uBT_Op`: the rows, or none if an
entry has no value. -/
def rangeLoop (b : Bt α) (lim : Nat) : Nat → BtSIter α κ → Nat → Option (Option (List α))
  | 0, _, _ => none
  | fuel + 1, bi, card => do
      let (be, bi) ← btRangeNext K b true bi
      match be with
      | none => some (some [])
      | some e =>
          if noval e then some none
          else if lim = card then some (some [])
          else (rangeLoop b lim fuel bi (card + 1)).map (Option.map (e :: ·))

/-- `rangeOpFK` of the rewritten query; `btGetXthIter` takes care of the OFFSET. -/
def posQuery (b : Bt α) (flt : PosFlt) : Option (Option (List α)) := do
  match ← rewriteFuncToLimOfstQuery K b flt with
  | none => some (some [])
  | some w =>
      match ← btGetXthIter K b w.alow w.ahigh w.ofst true with
      | .iter bi => rangeLoop K noval b w.lim (b.numkeys.toNat + 1) bi 0
      | _ => some (some [])

/-- `idx.pos()` as it is selected for a row: the `cipos` that the search for it leaves. -/
def selectPos (b : Bt α) (e : α) : Option Int :=
  if noval e then none
  else do
    let k ← K.bkey (K.key e)
    let r ← findnodekeyPos k (K.num (K.key e)) b
    some r.1.2

/-- What is queried by a position is what is selected with it. -/
structure Inverts (b : Bt α) (keys : List α) (p a c : Nat) : Prop where
  key : ∃ rows, posQuery K noval b (.key p) = some (some rows) ∧
    ∀ e, e ∈ rows ↔ e ∈ keys ∧ selectPos K noval b e = some (p : Int)
  range : ∃ rows, posQuery K noval b (.range a c) = some (some rows) ∧
    ∀ e, e ∈ rows ↔ e ∈ keys ∧ ∃ n : Int, selectPos K noval b e = some n ∧ (a : Int) ≤ n ∧ n ≤ c

/-- The position of the row can be selected. -/
def selectable (e : α) : Bool := !noval e && (K.bkey (K.key e)).isSome

/-- No row has the position. -/
def NoRow (keys : List α) (p : Nat) : Prop :=
  p = 0 ∨ ∀ e, keys[p - 1]? = some e → selectable K noval e = false

/-- The entries that a scan from the least to the largest key goes over behind the OFFSET: up to the
first that is over the largest key, and none if one of the two is a null pointer or the least makes no
stream. -/
def seen (keys : List α) (ofst : Nat) : List α :=
  match keys.head?, keys.getLast? with
  | some lo, some hi =>
      if K.null lo ∨ K.null hi ∨ (K.bkey (K.key lo)).isNone then []
      else taken K (K.key hi) ((keys.drop ofst).map (·, 0))
  | _, _ => []

/-! ## The loop -/

variable {K noval} {b : Bt α}

variable (noval) in
/-- What a scan gives up to a LIMIT: it looks at one entry more. -/
def limited (lim : Nat) (l : List α) : Option (List α) :=
  if (l.take (lim + 1)).all (fun e => !noval e) then some (l.take lim) else none

omit [RowStream α] in
theorem limited_nil (lim : Nat) : limited noval lim ([] : List α) = some [] := by
  simp [limited]

omit [RowStream α] in
theorem limited_noval {e : α} (h : noval e = true) (lim : Nat) (l : List α) :
    limited noval lim (e :: l) = none := by
  simp [limited, h]

omit [RowStream α] in
theorem limited_zero {e : α} (h : noval e = false) (l : List α) :
    limited noval 0 (e :: l) = some [] := by
  simp [limited, h]

omit [RowStream α] in
theorem limited_succ {e : α} (h : noval e = false) (lim : Nat) (l : List α) :
    limited noval (lim + 1) (e :: l) = (limited noval lim l).map (e :: ·) := by
  simp only [limited, List.take_succ_cons, List.all_cons, h, Bool.not_false, Bool.true_and]
  split <;> rfl

omit [DecidableEq κ] in
theorem rangeLoop_yields {lim : Nat} {l : List α} {fuel : Nat} {bi : BtSIter α κ} {card : Nat}
    (hy : Yields K b true bi l) (hf : l.length < fuel) (hc : card ≤ lim) :
    rangeLoop K noval b lim fuel bi card = some (limited noval (lim - card) l) := by
  induction l generalizing fuel bi card with
  | nil =>
      obtain ⟨f, rfl⟩ : ∃ f, fuel = f + 1 := ⟨fuel - 1, by omega⟩
      obtain ⟨bi', hnext, _⟩ := hy
      simp [rangeLoop, hnext, limited_nil]
  | cons e l ih =>
      obtain ⟨f, rfl⟩ : ∃ f, fuel = f + 1 := ⟨fuel - 1, by omega⟩
      obtain ⟨bi', hnext, _, _, hy⟩ := hy
      simp only [rangeLoop, hnext, Option.bind_eq_bind, Option.bind_some]
      cases he : noval e with
      | true => rw [limited_noval he, if_pos rfl]
      | false =>
          rw [if_neg Bool.false_ne_true]
          by_cases hlim : lim = card
          · rw [if_pos hlim, hlim, Nat.sub_self, limited_zero he]
          · have hf' : l.length < f := by simpa using hf
            have hcard : card + 1 ≤ lim := by omega
            have hrest := ih hy hf' hcard
            rw [if_neg hlim, hrest, show lim - card = lim - (card + 1) + 1 by omega,
              limited_succ he]
            rfl

omit [RowStream α] [DecidableEq κ] in
/-- A scan reads the entries from the first on. -/
theorem taken_front (high : κ) : ∀ l : List (α × Nat), taken K high l <+: l.map Prod.fst
  | [] => List.prefix_rfl
  | c :: l => by
      rw [taken, List.map_cons]
      split
      · exact List.nil_prefix
      · split
        · exact List.cons_prefix_cons.mpr ⟨rfl, List.nil_prefix⟩
        · exact List.cons_prefix_cons.mpr ⟨rfl, taken_front high l⟩

/-! ## Keys without a stream -/

/-- The keys of `K`, but every key of an entry makes a stream. -/
def filled (K : RangeKeys α κ) (keys : List α) (null : α → Bool) : RangeKeys α κ :=
  { K with
    bkey := fun k => (K.bkey k).or (keys.find? fun e => decide (K.key e = k))
    null := null }

omit [RowStream α] in
theorem filled_bkey (hmake : ∀ k e, K.bkey k = some e → K.key e = k) {keys : List α}
    {null : α → Bool} {e : α} (he : e ∈ keys) :
    ∃ k, (filled K keys null).bkey (K.key e) = some k ∧ K.key k = K.key e := by
  show ∃ k, (K.bkey (K.key e)).or (keys.find? fun x => decide (K.key x = K.key e)) = some k ∧ _
  cases hk : K.bkey (K.key e) with
  | some k => exact ⟨k, rfl, hmake _ k hk⟩
  | none =>
      cases hf : keys.find? fun x => decide (K.key x = K.key e) with
      | some x => exact ⟨x, rfl, by simpa using List.find?_some hf⟩
      | none => exact absurd (decide_eq_true rfl) (List.find?_eq_none.mp hf e he)

omit [RowStream α] in
theorem taken_filled (keys : List α) {high : κ} : ∀ {l : List (α × Nat)},
    taken (filled K keys K.null) high l = taken K high l
  | [] => rfl
  | c :: l => by
      simp only [taken, taken_filled keys (l := l)]
      rfl

theorem rangeLoop_filled (keys : List α) {lim : Nat} : ∀ {f : Nat} {bi : BtSIter α κ} {card : Nat},
    rangeLoop (filled K keys K.null) noval b lim f bi card = rangeLoop K noval b lim f bi card
  | 0, _, _ => rfl
  | f + 1, bi, card => by
      simp only [rangeLoop, rangeLoop_filled keys (f := f)]
      rfl

theorem xthLoop_filled {keys : List α} {asc : Bool} : ∀ {n : Nat} {si : BtSIter α κ},
    xthLoop (filled K keys K.null) b asc n si = xthLoop K b asc n si
  | 0, _ => rfl
  | n + 1, si => by
      simp only [xthLoop, xthLoop_filled (n := n)]
      rfl

theorem btGetXthIter_filled {keys : List α} {low high : κ} {k : α} (hk : K.bkey low = some k)
    (ofst : Nat) : btGetXthIter (filled K keys K.null) b low high ofst true =
      btGetXthIter K b low high ofst true := by
  have hk' : (filled K keys K.null).bkey low = some k := by
    show (K.bkey low).or _ = some k
    rw [hk]
    rfl
  simp only [btGetXthIter, xthIterFind, reduceIte, hk, hk', xthLoop_filled]
  rfl

/-! ## The whole index -/

omit [RowStream α] [DecidableEq κ] in
theorem edgeKeys_none (hn : b.numkeys = 0) : edgeKeys K b = some none := by
  have hmin : btMin b = some (none, b) := by
    rw [btMin, run_bind (run_get b), if_pos hn]
    rfl
  have hmax : btMax b = some (none, b) := by
    rw [btMax, run_bind (run_get b), if_pos hn]
    rfl
  simp [edgeKeys, edgeKey, hmin, hmax]

section Searched

variable [LinearOrder κ] {D : Nat} {tr : Trans} {T₀ : Sub α (D + 1)}

omit [RowStream α] [DecidableEq κ] in
/-- Numbers up to the last one end no scan before it. -/
theorem taken_all (N : NumberKeys K) {h : κ} : ∀ {l : List (α × Nat)}, (∀ c ∈ l, c.2 = 0) →
    (l.Pairwise fun x y => K.key x.1 < K.key y.1) → (∀ c ∈ l, K.key c.1 ≤ h) →
    taken K h l = l.map Prod.fst
  | [], _, _, _ => rfl
  | c :: l, h0, hl, hle => by
      obtain ⟨hc, hl⟩ := List.pairwise_cons.mp hl
      obtain ⟨hch, hlh⟩ := List.forall_mem_cons.mp hle
      have hover : ¬ K.isOver true (K.key c.1) c.2 h = true := by
        rw [h0 c List.mem_cons_self, N.up]
        exact not_lt.mpr hch
      rw [taken, if_neg hover, List.map_cons]
      by_cases hex : K.exact (K.key c.1) h = true
      · have hnil : l = [] := by
          rw [List.eq_nil_iff_forall_not_mem]
          intro x hx
          rw [N.exact] at hex
          exact absurd (hlh x hx) (not_le.mpr (hex ▸ hc x hx))
        rw [if_pos hex, hnil, List.map_nil]
      · rw [if_neg hex, taken_all N (fun x hx => h0 x (List.mem_cons_of_mem _ hx)) hl hlh]

/-- A tree in order, whose keys are counted and whose entries are no ghosts. -/
abbrev Counted (K : RangeKeys α κ) (tr : Trans) (b : Bt α) (T : Sub α (D + 1)) : Prop :=
  Searched (filled K T.keys fun _ => false) tr b T

theorem onwards_first {c : α × Nat} {l : List (α × Nat)} (S : Counted K tr b T₀)
    (hl : T₀.flat (tr.view α) = c :: l) :
    onwards K (K.key c.1) (T₀.flat (tr.view α)) = T₀.flat (tr.view α) := by
  have hord := S.scanned.order
  rw [hl] at hord ⊢
  exact onwards_at (l := []) hord rfl

/-- Unless the first entry is a null pointer, no entry is. -/
theorem Counted.searched (S : Counted K tr b T₀)
    (hnull : ∀ e ∈ T₀.keys, K.null e = true → ∀ x ∈ T₀.keys, K.key e ≤ K.key x)
    {first : α} {rest : List α} (hfirst : T₀.keys = first :: rest) (hf : K.null first = false) :
    Searched (filled K T₀.keys K.null) tr b T₀ where
  clean := S.clean
  strict := S.strict
  count := S.count
  sound e he := by
    refine ⟨?_, (S.sound e he).ghost, (S.sound e he).bkey⟩
    rw [Bool.eq_false_iff]
    intro hn
    have hle := hnull e he hn first (hfirst ▸ List.mem_cons_self)
    have hstrict := S.strict
    rw [hfirst] at he hstrict
    rcases List.mem_cons.mp he with rfl | he
    · exact Bool.false_ne_true (hf.symm.trans hn)
    · exact absurd hle (not_le.mpr ((List.pairwise_cons.mp hstrict).1 e he))
  left := S.left
  depth := S.depth

variable (noval) in
/-- The rewritten query gives what is seen behind the OFFSET, up to the LIMIT. -/
theorem posQuery_run (S : Counted K tr b T₀)
    (hnull : ∀ e ∈ T₀.keys, K.null e = true → ∀ x ∈ T₀.keys, K.key e ≤ K.key x)
    (hdirty : b.dirty = false) (flt : PosFlt) (ofst lim : Nat)
    (hflt : (match flt with
      | .key akey => (1, akey)
      | .range alow ahigh => (ahigh - alow, alow)) = (lim, ofst)) :
    posQuery K noval b flt = some (limited noval lim (seen K T₀.keys ofst)) := by
  have hflat : T₀.keys = (T₀.flat (tr.view α)).map Prod.fst := keys_of_flat
  by_cases hn : b.numkeys = 0
  · have hnil : T₀.keys = [] := by
      rw [hflat, S.cells_nil hn]
      rfl
    simp [posQuery, rewriteFuncToLimOfstQuery, edgeKeys_none hn, hnil, seen, limited_nil]
  obtain ⟨c, l, c', hl, hlast, e1, e2⟩ := S.edgeEntries hn
  have hhead : T₀.keys.head? = some c.1 := by
    rw [hflat, hl]
    rfl
  have hend : T₀.keys.getLast? = some c'.1 := by
    rw [hflat, List.getLast?_map, hlast]
    rfl
  simp only [posQuery, rewriteFuncToLimOfstQuery, hflt, edgeKeys, e1, e2, seen, hhead, hend,
    Option.bind_eq_bind, Option.bind_some]
  by_cases hz : K.null c.1 = true ∨ K.null c'.1 = true
  · rw [if_pos hz, if_pos (hz.imp_right .inl), limited_nil]
    rfl
  rw [if_neg hz]
  cases hk : K.bkey (K.key c.1) with
  | none =>
      simp only [Option.map_some, Option.isNone_none, or_true, if_true, limited_nil, btGetXthIter, hn,
        if_false, xthIterFind, hk]
      simp [rangeLoop, btRangeNext, createIterator]
  | some k =>
      have hclear : ¬ (K.null c.1 = true ∨ K.null c'.1 = true ∨ (some k).isNone = true) := by
        simpa [not_or] using hz
      rw [if_neg hclear]
      have hkeys : T₀.keys = c.1 :: l.map Prod.fst := by rw [hflat, hl, List.map_cons]
      have S' := S.searched hnull hkeys (by simpa using fun h => hz (.inl h))
      obtain ⟨k', hk', hkey⟩ := (S'.sound c.1 (by rw [hkeys]; exact List.mem_cons_self)).bkey
      obtain ⟨g, hget, hg⟩ := S'.xth hdirty hk' hkey ofst
      rw [show (filled K T₀.keys K.null).key c.1 = K.key c.1 from rfl,
        btGetXthIter_filled hk] at hget
      have hdrop : ((T₀.flat (tr.view α)).drop ofst) = (T₀.keys.drop ofst).map (·, 0) := by
        rw [hflat, ← List.map_drop, List.map_map]
        refine ((List.map_congr_left fun x hx => ?_).trans (List.map_id _)).symm
        exact Prod.ext rfl (S.entry (List.mem_of_mem_drop hx)).1.symm
      have hg : Delivers (filled K T₀.keys K.null) b true
          (taken K (K.key c'.1) ((T₀.keys.drop ofst).map (·, 0))) g := by
        rw [← hdrop, ← onwards_first S hl, ← taken_filled T₀.keys]
        exact hg
      generalize hL : taken K (K.key c'.1) ((T₀.keys.drop ofst).map (·, 0)) = L at hg
      simp only [Option.map_some, Option.bind_some, hget]
      cases g with
      | null =>
          have hz : L = [] := hg
          rw [hz, limited_nil]
      | leaked =>
          have hz : L = [] := hg
          rw [hz, limited_nil]
      | iter bi =>
          have hlen : L.length < b.numkeys.toNat + 1 := by
            have hle := (taken_front (K := K) (K.key c'.1)
              ((T₀.keys.drop ofst).map (·, 0))).length_le
            rw [hL, List.length_map, List.length_map, List.length_drop] at hle
            rw [S.count]
            omega
          show rangeLoop K noval b lim (b.numkeys.toNat + 1) bi 0 = _
          rw [← rangeLoop_filled T₀.keys, rangeLoop_yields hg hlen (Nat.zero_le _),
            Nat.sub_zero]

/-! ## Positions -/

omit [RowStream α] [DecidableEq κ] [LinearOrder κ] in
theorem seen_front (keys : List α) (ofst : Nat) : seen K keys ofst <+: keys.drop ofst := by
  cases hlo : keys.head? with
  | none => simp [seen, hlo]
  | some lo =>
      cases hhi : keys.getLast? with
      | none => simp [seen, hlo, hhi]
      | some hi =>
          simp only [seen, hlo, hhi]
          split
          · exact List.nil_prefix
          · have h := taken_front (K := K) (K.key hi) ((keys.drop ofst).map (·, 0))
            rwa [List.map_map, List.map_id''] at h
            exact fun x => rfl

omit [RowStream α] [DecidableEq κ] in
/-- Behind `i` rows the keys up to that of the next one are `i + 1`. -/
theorem position_at (hstrict : T₀.keys.Pairwise fun x y => K.key x < K.key y) {i : Nat} {e k : α}
    (he : T₀.keys[i]? = some e) (hk : K.key k = K.key e) : T₀.position K.key k = i + 1 := by
  obtain ⟨hi, hie⟩ := List.getElem?_eq_some_iff.mp he
  have hcut : T₀.keys = T₀.keys.take i ++ e :: T₀.keys.drop (i + 1) := by
    rw [← hie, ← List.drop_eq_getElem_cons hi, List.take_append_drop]
  have hord := hstrict
  rw [hcut, List.pairwise_append] at hord
  have hfront : (T₀.keys.take i).filter (fun x => K.key x ≤ K.key e) = T₀.keys.take i := by
    rw [List.filter_eq_self]
    intro x hx
    exact decide_eq_true (le_of_lt (hord.2.2 x hx _ List.mem_cons_self))
  have hback : (T₀.keys.drop (i + 1)).filter (fun x => K.key x ≤ K.key e) = [] := by
    rw [List.filter_eq_nil_iff]
    intro x hx
    rw [decide_eq_true_eq]
    exact not_le.mpr ((List.pairwise_cons.mp hord.2.1).1 x hx)
  have hself : decide (K.key e ≤ K.key e) = true := decide_eq_true le_rfl
  rw [Sub.position, hk, hcut, List.filter_append, hfront,
    List.filter_cons_of_pos (p := fun x => decide (K.key x ≤ K.key e)) hself, hback,
    List.length_append, List.length_singleton, List.length_take, Nat.min_eq_left hi.le]

variable (noval) in
/-- The row with `i` rows in front of it has the position `i + 1`, if that can be selected. -/
theorem selectPos_at (S : Counted K tr b T₀) (hmake : ∀ k e, K.bkey k = some e → K.key e = k)
    {i : Nat} {e : α} (he : T₀.keys[i]? = some e) :
    selectPos K noval b e = if selectable K noval e then some ((i : Int) + 1) else none := by
  rw [selectPos, selectable]
  cases hval : noval e with
  | true => rfl
  | false =>
      cases hk : K.bkey (K.key e) with
      | none => rfl
      | some k =>
          have C : CleanAt K.key tr b T₀ := S.clean
          obtain ⟨dwm, -, hrun⟩ := findnodekeyPos_run (k := k) (K.num (K.key e)) C S.strict
          rw [if_neg Bool.false_ne_true, Option.bind_eq_bind, Option.bind_some, hrun,
            position_at (K := K) S.strict he (hmake _ k hk)]
          rfl

/-- A row has the position `n` if `n - 1` rows are in front of it and it can be selected. -/
theorem selectPos_iff (S : Counted K tr b T₀) (hmake : ∀ k e, K.bkey k = some e → K.key e = k)
    {e : α} (he : e ∈ T₀.keys) (n : Int) : selectPos K noval b e = some n ↔
      selectable K noval e = true ∧ ∃ i : Nat, T₀.keys[i]? = some e ∧ n = (i : Int) + 1 := by
  obtain ⟨i, hi⟩ := List.mem_iff_getElem?.mp he
  rw [selectPos_at noval S hmake hi]
  have hnodup : T₀.keys.Nodup := S.strict.imp fun h hxy => absurd (hxy ▸ h) (lt_irrefl _)
  split
  · rename_i hs
    rw [Option.some_inj]
    constructor
    · rintro rfl
      exact ⟨hs, i, hi, rfl⟩
    · rintro ⟨-, j, hj, rfl⟩
      obtain ⟨hi', rfl⟩ := List.getElem?_eq_some_iff.mp hi
      rw [(List.getElem?_inj hi' hnodup).mp (hi.trans hj.symm)]
  · rename_i hs
    exact iff_of_false (by simp) fun h => hs h.1

omit [RowStream α] in
theorem limited_eq_some {lim : Nat} {l rows : List α} : limited noval lim l = some rows ↔
    (∀ e ∈ l.take (lim + 1), noval e = false) ∧ rows = l.take lim := by
  rw [limited]
  split
  · rename_i h
    rw [List.all_eq_true] at h
    rw [Option.some_inj]
    exact ⟨fun hr => ⟨fun e he => by simpa using h e he, hr.symm⟩, fun hr => hr.2.symm⟩
  · rename_i h
    refine iff_of_false (by simp) fun hr => h ?_
    rw [List.all_eq_true]
    intro e he
    rw [hr.1 e he]
    rfl

/-- Only where both find no row a query by one position gives what has it. -/
theorem key_iff (S : Counted K tr b T₀) (hmake : ∀ k e, K.bkey k = some e → K.key e = k)
    (hnull : ∀ e ∈ T₀.keys, K.null e = true → ∀ x ∈ T₀.keys, K.key e ≤ K.key x)
    (hdirty : b.dirty = false) (p : Nat) :
    (∃ rows, posQuery K noval b (.key p) = some (some rows) ∧
      ∀ e, e ∈ rows ↔ e ∈ T₀.keys ∧ selectPos K noval b e = some (p : Int)) ↔
      NoRow K noval T₀.keys p ∧ seen K T₀.keys p = [] := by
  rw [posQuery_run noval S hnull hdirty (.key p) p 1 rfl]
  simp only [Option.some_inj, limited_eq_some]
  constructor
  · rintro ⟨rows, ⟨-, rfl⟩, hrows⟩
    have hseen : seen K T₀.keys p = [] := by
      cases hs : seen K T₀.keys p with
      | nil => rfl
      | cons x l =>
          obtain ⟨r, hr⟩ := seen_front (K := K) T₀.keys p
          have hx : T₀.keys[p]? = some x := by
            rw [← Nat.add_zero p, ← List.getElem?_drop, ← hr, hs]
            rfl
          rw [hs] at hrows
          obtain ⟨-, hpos⟩ := (hrows x).mp List.mem_cons_self
          rw [selectPos_at noval S hmake hx] at hpos
          split at hpos
          · rw [Option.some_inj] at hpos
            omega
          · cases hpos
    rw [hseen] at hrows
    refine ⟨or_iff_not_imp_left.mpr fun h0 e he => ?_, hseen⟩
    by_contra hs
    rw [Bool.not_eq_false] at hs
    have hpos := selectPos_at noval S hmake he
    rw [if_pos hs, show ((p - 1 : Nat) : Int) + 1 = p by omega] at hpos
    exact absurd ((hrows e).mpr ⟨List.mem_of_getElem? he, hpos⟩) List.not_mem_nil
  · rintro ⟨hno, hseen⟩
    rw [hseen]
    refine ⟨[], ⟨fun e he => absurd he List.not_mem_nil, rfl⟩, fun e =>
      iff_of_false List.not_mem_nil ?_⟩
    rintro ⟨he, hpos⟩
    obtain ⟨hs, i, hi, hp⟩ := (selectPos_iff S hmake he _).mp hpos
    obtain rfl : p = i + 1 := by omega
    rcases hno with h0 | hno
    · omega
    · exact Bool.false_ne_true ((hno e hi).symm.trans hs)

omit [RowStream α] [DecidableEq κ] [LinearOrder κ] in
/-- The first rows behind the first `a` are those in the places from `a` on. -/
theorem mem_window {keys : List α} {a c : Nat} {e : α} :
    e ∈ (keys.drop a).take (c - a) ↔ ∃ i, a ≤ i ∧ i < c ∧ keys[i]? = some e := by
  rw [List.mem_iff_getElem?]
  constructor
  · rintro ⟨j, hj⟩
    rw [List.getElem?_take] at hj
    split at hj
    · rw [List.getElem?_drop] at hj
      exact ⟨a + j, by omega, by omega, hj⟩
    · cases hj
  · rintro ⟨i, hai, hic, hi⟩
    refine ⟨i - a, ?_⟩
    rw [List.getElem?_take, if_pos (by omega), List.getElem?_drop, Nat.add_sub_cancel' hai, hi]

/-- A query by a range of positions gives what has them if no row has the first one, if it sees of the
others those that can be selected, and if it finds a value for all it looks at. -/
theorem range_iff (S : Counted K tr b T₀) (hmake : ∀ k e, K.bkey k = some e → K.key e = k)
    (hnull : ∀ e ∈ T₀.keys, K.null e = true → ∀ x ∈ T₀.keys, K.key e ≤ K.key x)
    (hdirty : b.dirty = false) {a c : Nat} (hac : a ≤ c) :
    (∃ rows, posQuery K noval b (.range a c) = some (some rows) ∧
      ∀ e, e ∈ rows ↔ e ∈ T₀.keys ∧
        ∃ n : Int, selectPos K noval b e = some n ∧ (a : Int) ≤ n ∧ n ≤ c) ↔
      NoRow K noval T₀.keys a ∧
        (∀ e ∈ (seen K T₀.keys a).take (c - a + 1), noval e = false) ∧
        ∀ e ∈ (T₀.keys.drop a).take (c - a),
          e ∈ (seen K T₀.keys a).take (c - a) ↔ selectable K noval e = true := by
  have hsub : ∀ e ∈ (seen K T₀.keys a).take (c - a), e ∈ (T₀.keys.drop a).take (c - a) := by
    intro e he
    exact ((seen_front T₀.keys a).take (c - a)).subset he
  rw [posQuery_run noval S hnull hdirty (.range a c) a (c - a) rfl]
  simp only [Option.some_inj, limited_eq_some]
  constructor
  · rintro ⟨rows, ⟨hval, rfl⟩, hrows⟩
    refine ⟨or_iff_not_imp_left.mpr fun h0 e he => ?_, hval, fun e he => ?_⟩
    · by_contra hs
      rw [Bool.not_eq_false] at hs
      have hpos := selectPos_at noval S hmake he
      rw [if_pos hs] at hpos
      have hin := (hrows e).mpr ⟨List.mem_of_getElem? he, _, hpos, by omega, by omega⟩
      obtain ⟨i, hai, -, hi⟩ := mem_window.mp (hsub e hin)
      have hsame := selectPos_at noval S hmake hi
      rw [if_pos hs, hpos, Option.some_inj] at hsame
      omega
    · obtain ⟨i, hai, hic, hi⟩ := mem_window.mp he
      rw [hrows]
      constructor
      · rintro ⟨hmem, n, hpos, -, -⟩
        exact ((selectPos_iff S hmake hmem n).mp hpos).1
      · intro hs
        have hpos := selectPos_at noval S hmake hi
        rw [if_pos hs] at hpos
        exact ⟨List.mem_of_getElem? hi, _, hpos, by omega, by omega⟩
  · rintro ⟨hno, hval, hsel⟩
    refine ⟨_, ⟨hval, rfl⟩, fun e => ⟨fun he => ?_, ?_⟩⟩
    · obtain ⟨i, hai, hic, hi⟩ := mem_window.mp (hsub e he)
      have hpos := selectPos_at noval S hmake hi
      rw [if_pos ((hsel e (hsub e he)).mp he)] at hpos
      exact ⟨List.mem_of_getElem? hi, _, hpos, by omega, by omega⟩
    · rintro ⟨he, n, hpos, han, hnc⟩
      obtain ⟨hs, i, hi, rfl⟩ := (selectPos_iff S hmake he _).mp hpos
      refine (hsel e (mem_window.mpr ⟨i, ?_, by omega, hi⟩)).mpr hs
      by_contra hlt
      obtain rfl : a = i + 1 := by omega
      rcases hno with h0 | hno
      · omega
      · exact Bool.false_ne_true ((hno e hi).symm.trans hs)

end Searched

/-! ## The trees that are reached -/

section Reached

variable [LinearOrder κ] [Inhabited α]

end Reached

/-! ## Rows -/

/-- A UNIQUE index on the numbers from 1 to 3, in rows with the same primary keys. -/
theorem three_reached : ∃ b, Reached Cell.num
      (btCreate Cell.cmp .one ⟨.int, .simpUniq, 8, btflagUintUint⟩ false) b ∧
    b.numkeys = 3 ∧ b.dirty = false ∧
    b.inorder = some [(row 1, 0), (row 2, 0), (row 3, 0)] := by
  obtain ⟨hsane, hloose⟩ := createUIBT_firm (k := .int) (p := .int) rfl
  have hplay : (play ([row 1, row 2, row 3].map .insert)
      (btCreate Cell.cmp .one ⟨.int, .simpUniq, 8, btflagUintUint⟩ false)).map
        (fun b => (b.numkeys, b.dirty, b.inorder)) =
      some (3, false, some [(row 1, 0), (row 2, 0), (row 3, 0)]) := by decide
  obtain ⟨b, hp, hb⟩ := Option.map_eq_some_iff.mp hplay
  refine ⟨b, ?_, congrArg (·.1) hb, congrArg (·.2.1) hb, congrArg (·.2.2) hb⟩
  refine Reached.inserts Cell.cmpOk hsane hloose .start (fun cells hcells c hc => ?_) (by decide) hp
  rw [(btCreate_whole Cell.cmp .one _ false).inorder, Option.some_inj] at hcells
  subst hcells
  exact absurd hc List.not_mem_nil

theorem three_seen (ofst : Nat) :
    seen cellKeys [row 1, row 2, row 3] ofst = [row 1, row 2, row 3].drop ofst := by
  have hall := taken_all cellKeys_number (h := 3)
    (l := ([row 1, row 2, row 3].drop ofst).map (·, 0)) (fun c hc => ?_) ?_ fun c hc => ?_
  · rw [List.map_map, List.map_id''] at hall
    · exact hall
    · exact fun x => rfl
  · obtain ⟨e, -, rfl⟩ := List.mem_map.mp hc
    rfl
  · rw [List.pairwise_map]
    exact List.Pairwise.sublist (List.drop_sublist _ _) (by decide)
  · obtain ⟨e, he, rfl⟩ := List.mem_map.mp hc
    have hle : ∀ e ∈ [row 1, row 2, row 3], e.num ≤ 3 := by decide
    exact hle e (List.mem_of_mem_drop he)

end AlchemyDB.Query.ByPosition
