/-
# `AlchemyDB.BTree.Offset` — a range with an OFFSET, and the range

`btGetXthIter` puts the iterator where `btGetRangeIter` would be after as many steps as the
OFFSET says.  It does not see the keys on the way, so that a key that ends the range, and
lies in front of others that do not, ends only the one of the two.  Numbers end a range at
the bound and beyond it, where all do.
-/
import AlchemyDB.BTree.BackJump
import AlchemyDB.BTree.TextRange

namespace AlchemyDB

open Store Weave

variable {α κ : Type} {K : RangeKeys α κ} {asc : Bool} {far : κ}

/-! ## Dropping entries before a scan, and after it -/

/-- The entry ends a scan: as one beyond the bound, or as the last one. -/
def EndsScan (K : RangeKeys α κ) (asc : Bool) (far : κ) (c : α × Nat) : Prop :=
  K.isOver asc (K.key c.1) c.2 far = true ∨ K.exact (K.key c.1) far = true

/-- Nothing ends the scan among the first entries, or the next one is beyond the bound. -/
def Uncut (K : RangeKeys α κ) (asc : Bool) (far : κ) (l : List (α × Nat)) (n : Nat) : Prop :=
  (∀ c ∈ l.take n, ¬ EndsScan K asc far c) ∨
    ∀ c, (l.drop n).head? = some c → K.isOver asc (K.key c.1) c.2 far = true

theorem takes_eq_nil {l : List (α × Nat)} : takes K asc far l = [] ↔
    ∀ c, l.head? = some c → K.isOver asc (K.key c.1) c.2 far = true := by
  cases l with
  | nil => simp [takes]
  | cons c l =>
      rw [takes]
      split
      · next h => simpa using h
      · next h => simpa using h

theorem takes_drop_iff : ∀ {l : List (α × Nat)} {n : Nat},
    (takes K asc far l).drop n = takes K asc far (l.drop n) ↔ Uncut K asc far l n
  | l, 0 => iff_of_true rfl (.inl fun c hc => by simp at hc)
  | [], n + 1 => iff_of_true (by simp [takes]) (.inl fun c hc => by simp at hc)
  | c :: l, n + 1 => by
      rw [List.drop_succ_cons, Uncut, List.take_succ_cons, List.drop_succ_cons, List.forall_mem_cons, takes]
      by_cases hover : K.isOver asc (K.key c.1) c.2 far = true
      · rw [if_pos hover, List.drop_nil, eq_comm, takes_eq_nil]
        exact ⟨.inr, fun h => h.resolve_left fun h => h.1 (.inl hover)⟩
      rw [if_neg hover, List.drop_succ_cons]
      by_cases hex : K.exact (K.key c.1) far = true
      · rw [if_pos hex, List.drop_nil, eq_comm, takes_eq_nil]
        exact ⟨.inr, fun h => h.resolve_left fun h => h.1 (.inr hex)⟩
      · have hc : ¬ EndsScan K asc far c := fun h => h.elim hover hex
        rw [if_neg hex, takes_drop_iff, Uncut]
        simp only [hc, not_false_eq_true, true_and]

/-! ## The two scans -/

variable [LinearOrder κ] [RowStream α] {D : Nat} {tr : Trans} {b : Bt α} {T₀ : Sub α (D + 1)}
  {low high : κ}

/-- What a scan reads from a key on, out of the entries of the tree in their order. -/
def scanList (K : RangeKeys α κ) (b : Bt α) (asc : Bool) (start : κ) (l : List (α × Nat)) :
    List (α × Nat) :=
  match K.bkey start with
  | none => []
  | some k =>
      if asc then onwards K start l else backFrom K (endsInFront b k b.next b.root) start l

omit [RowStream α] in
theorem mem_backFrom {front : Bool} {l : List (α × Nat)} {c : α × Nat}
    (h : c ∈ backFrom K front high l) : c ∈ l := by
  have hbelow : ∀ x ∈ below K high l, x ∈ l := fun x hx =>
    (List.takeWhile_sublist _).subset (List.mem_reverse.1 hx)
  rw [backFrom] at h
  split at h
  · exact absurd h List.not_mem_nil
  · next c' A hA =>
      split at h
      · rcases List.mem_cons.1 h with rfl | h
        · exact (List.dropWhile_sublist _).subset (hA ▸ List.mem_cons_self : c ∈ onwards K high l)
        · exact hbelow c h
      · exact hbelow c (List.mem_of_mem_tail h)

omit [RowStream α] in
theorem mem_scanList {start : κ} {l : List (α × Nat)} {c : α × Nat}
    (h : c ∈ scanList K b asc start l) : c ∈ l := by
  rw [scanList] at h
  cases hb : K.bkey start with
  | none =>
      rw [hb] at h
      exact absurd h List.not_mem_nil
  | some k =>
      simp only [hb] at h
      cases asc with
      | true => exact (List.dropWhile_sublist _).subset (by simpa using h : c ∈ onwards K start l)
      | false => exact mem_backFrom (by simpa using h)

section Offset

variable [DecidableEq κ]

/-- What a range gives, and what it gives with an OFFSET. -/
theorem Searched.offset (S : Searched K tr b T₀) (hdirty : b.dirty = false)
    (hmake : ∀ k e, K.bkey k = some e → K.key e = k) (ofst : Nat) (asc : Bool) :
    let far := if asc then high else low
    let L := scanList K b asc (if asc then low else high) (T₀.flat (tr.view α))
    Scans K b asc (btGetRangeIter K b low high asc) (takes K asc far L) ∧
      Scans K b asc (btGetXthIter K b low high ofst asc) (takes K asc far (L.drop ofst)) := by
  cases asc with
  | true =>
      simp only [if_true]
      cases hb : K.bkey low with
      | none =>
          simp only [scanList, hb, List.drop_nil]
          exact ⟨range_null hb, xth_null hb ofst⟩
      | some k =>
          simp only [scanList, hb, if_true, takes_true]
          exact ⟨S.range hb (hmake _ _ hb), S.xth hdirty hb (hmake _ _ hb) ofst⟩
  | false =>
      simp only [Bool.false_eq_true, if_false]
      cases hb : K.bkey high with
      | none =>
          simp only [scanList, hb, List.drop_nil]
          exact null_back hb ofst
      | some k =>
          simp only [scanList, hb, Bool.false_eq_true, if_false]
          exact ⟨S.rangeBack hb (hmake _ _ hb), S.xthBack hdirty hb (hmake _ _ hb) ofst⟩

/-- Whether the range with an OFFSET is the range without its first entries. -/
theorem Searched.offset_iff (S : Searched K tr b T₀) (hdirty : b.dirty = false)
    (hmake : ∀ k e, K.bkey k = some e → K.key e = k) (low high : κ) (ofst : Nat) (asc : Bool) :
    (∃ l, Scans K b asc (btGetRangeIter K b low high asc) l ∧
      Scans K b asc (btGetXthIter K b low high ofst asc) (l.drop ofst)) ↔
    Uncut K asc (if asc then high else low)
      (scanList K b asc (if asc then low else high) T₀.cells) ofst := by
  obtain ⟨hrange, hxth⟩ := S.offset hdirty hmake ofst asc
  rw [flat_clean] at hrange hxth
  rw [← takes_drop_iff]
  constructor
  · rintro ⟨l, hl, hl'⟩
    rw [hrange.unique hl]
    exact hl'.unique hxth
  · intro he
    exact ⟨_, hrange, he ▸ hxth⟩

end Offset

/-! ## Numbers -/

/-- The keys are compared as numbers with the bound. -/
structure NumberKeys (K : RangeKeys α κ) : Prop where
  up : ∀ k h, K.isOver true k 0 h = true ↔ h < k
  down : ∀ k h, K.isOver false k 0 h = true ↔ k < h
  exact : ∀ k h, K.exact k h = true ↔ k = h

omit [RowStream α] in
/-- What a scan reads goes up or down. -/
theorem scanList_pairwise {start : κ} {l : List (α × Nat)}
    (hl : l.Pairwise fun x y => K.key x.1 < K.key y.1) :
    (scanList K b asc start l).Pairwise fun x y =>
      if asc then K.key x.1 < K.key y.1 else K.key y.1 < K.key x.1 := by
  have hcut : l.takeWhile (fun c => decide (K.key c.1 < start)) ++ onwards K start l = l :=
    List.takeWhile_append_dropWhile
  have hbelow : (below K start l).Pairwise fun x y => K.key y.1 < K.key x.1 := by
    rw [below, List.pairwise_reverse]
    exact hl.sublist (List.takeWhile_sublist _)
  rw [scanList]
  cases K.bkey start with
  | none => exact List.Pairwise.nil
  | some k =>
      cases asc with
      | true => simpa [onwards] using hl.sublist (List.dropWhile_sublist _)
      | false =>
          simp only [Bool.false_eq_true, if_false, backFrom]
          cases hon : onwards K start l with
          | nil => exact List.Pairwise.nil
          | cons c A =>
              simp only
              split
              · refine List.pairwise_cons.2 ⟨fun x hx => ?_, hbelow⟩
                rw [hon] at hcut
                rw [← hcut] at hl
                exact (List.pairwise_append.1 hl).2.2 x (List.mem_reverse.1 hx) c List.mem_cons_self
              · exact hbelow.tail

omit [RowStream α] in
/-- Numbers end a range where all the following ones do. -/
theorem NumberKeys.uncut (N : NumberKeys K) {l : List (α × Nat)} (h0 : ∀ c ∈ l, c.2 = 0)
    (hl : l.Pairwise fun x y =>
      if asc then K.key x.1 < K.key y.1 else K.key y.1 < K.key x.1) (n : Nat) :
    Uncut K asc far l n := by
  by_cases hend : ∀ c ∈ l.take n, ¬ EndsScan K asc far c
  · exact .inl hend
  · obtain ⟨c, hc, hends⟩ : ∃ c ∈ l.take n, EndsScan K asc far c := by simpa using hend
    refine .inr fun c' hc' => ?_
    have hmem : c' ∈ l.drop n := List.mem_of_mem_head? hc'
    have hlt : if asc then K.key c.1 < K.key c'.1 else K.key c'.1 < K.key c.1 := by
      rw [← List.take_append_drop n l] at hl
      exact (List.pairwise_append.1 hl).2.2 c hc c' hmem
    rw [EndsScan, h0 c (List.mem_of_mem_take hc), N.exact] at hends
    rw [h0 c' (List.mem_of_mem_drop hmem)]
    cases asc with
    | true =>
        rw [N.up] at hends ⊢
        rcases hends with h | rfl
        · exact h.trans hlt
        · exact hlt
    | false =>
        rw [N.down] at hends ⊢
        rcases hends with h | rfl
        · exact lt_trans hlt h
        · exact hlt

/-! ## Runs -/

section Runs

variable [DecidableEq κ] [Inhabited α] {cmp : α → α → Int} {sp : Bts} {dirty : Bool} {m : κ → Option α}

/-- Over numbers that is always so. -/
theorem NumberKeys.xth_drops (N : NumberKeys K) (hc : CmpOk cmp K.key)
    (hmake : ∀ k e, K.bkey k = some e → K.key e = k)
    (h : RunsTo K.key sp (btCreate cmp tr sp dirty) b m) (hs : ∀ k e, m k = some e → Sound K e)
    (h32 : b.numkeys < 4294967296) (hclean : b.dirty = false) (low high : κ) (ofst : Nat)
    (asc : Bool) :
    ∃ l, Scans K b asc (btGetRangeIter K b low high asc) l ∧
      Scans K b asc (btGetXthIter K b low high ofst asc) (l.drop ofst) := by
  obtain ⟨D, T, S, -⟩ := h.searched hc hs h32
  refine (S.offset_iff hclean hmake low high ofst asc).2 (N.uncut (fun c hc => ?_) ?_ ofst)
  · rw [← flat_clean tr.two_le] at hc
    exact (S.entry (mem_scanList hc)).1
  · rw [← flat_clean tr.two_le]
    exact scanList_pairwise S.scanned.order

end Runs

/-! ## Rows -/

/-- The keys of a table with an INT primary key. -/
def cellKeys : RangeKeys Cell Nat where
  bkey n := some (row n)
  num := id
  null _ := false
  key := Cell.num
  exact k h := decide (k = h)
  isOver asc k dr h := if asc then decide (h < k) else decide (k + dr < h)

theorem cellKeys_number : NumberKeys cellKeys where
  up k h := by simp [cellKeys]
  down k h := by simp [cellKeys]
  exact k h := by simp [cellKeys]

/-- A tree of rows that insertions make. -/
theorem runsTo_rows {l : List Nat} (hd : l.Nodup) {n : Int}
    (hn : (play ((l.map row).map .insert) (btCreate Cell.cmp .one tableBts false)).map Bt.numkeys =
      some n) :
    ∃ b, play ((l.map row).map .insert) (btCreate Cell.cmp .one tableBts false) = some b ∧
      RunsTo Cell.num tableBts (btCreate Cell.cmp .one tableBts false) b
        (held Cell.num ((l.map row).map .insert)) ∧ b.numkeys = n ∧
      ∀ k e, held Cell.num ((l.map row).map .insert) k = some e → Sound cellKeys e := by
  have hkeys : (l.map row).map Cell.num = l := by
    rw [List.map_map]
    exact List.map_id'' (fun _ => rfl) l
  have hd' := hkeys.symm ▸ hd
  obtain ⟨b, hp, h, hb⟩ := runsTo_inserts rfl rfl hd' hn
  refine ⟨b, hp, h, hb, fun k e he => ?_⟩
  obtain ⟨x, -, rfl⟩ := List.mem_map.1 ((held_inserts hd' k e).1 he).1
  exact ⟨rfl, rfl, row x, rfl, rfl⟩

end AlchemyDB
