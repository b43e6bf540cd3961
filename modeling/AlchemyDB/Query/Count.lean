/-
# `SELECT COUNT(*)` against `SELECT *`

Both queries meet the same, so what has to be compared is what is added for one of the things met.
`COUNT(*)` adds no less: it counts a primary key that is not there, the entries of a UNIQUE index before
the filters, and the keys of a node tree instead of those that a scan reads.
-/
import AlchemyDB.Lib.Total
import AlchemyDB.Index.Undo
import AlchemyDB.Query.Met

namespace AlchemyDB.Query.Select

open Assoc Index Table Total

/-! ## What is counted -/

section Counted

variable {L : Type} (t : Tab) (tmatch : Nat) (given : Row → Flist.Given L)
  (flist : Option (List (Flist.Filter L))) (cstar : Bool)

/-- What `select_op` adds for a row. -/
def addsRow (row : Option Row) : Option Nat :=
  match passes tmatch given flist row with
  | none => none
  | some false => some 0
  | some true => if cstar then some 1 else row.map fun _ => 1

/-- What is added to `card` for what is met. -/
def adds : Meet → Option Nat
  | .row r => addsRow tmatch given flist cstar (some r)
  | .node l =>
      if cstar ∧ flist.isNone then some l.ents.length
      else ((leafRange l).mapM fun e => addsRow tmatch given flist cstar (rrow t (nodePk l e))).map
        List.sum
  | .uniq uv => if cstar then some 1 else addsRow tmatch given flist cstar (rrow t uv)

variable {t tmatch given flist cstar}

/-- A loop adds what its rounds add. -/
theorem card_foldlM {ε : Type} {f : Sel → ε → Option Sel} {g : ε → Option Nat}
    (h : ∀ s e, (f s e).map Sel.card = (g e).map (s.card + ·)) : ∀ (l : List ε) (s : Sel),
    (l.foldlM f s).map Sel.card = (l.mapM g).map fun ns => s.card + ns.sum
  | [], s => rfl
  | e :: l, s => by
      have hone := h s e
      rw [List.foldlM_cons, List.mapM_cons]
      cases hf : f s e with
      | none =>
          rw [hf] at hone
          have hg : g e = none := Option.map_eq_none_iff.mp hone.symm
          rw [hg]
          rfl
      | some s₁ =>
          rw [hf] at hone
          obtain ⟨n, hg, hn⟩ := Option.map_eq_some_iff.mp hone.symm
          have hrest := card_foldlM h l s₁
          rw [hg]
          show (l.foldlM f s₁).map Sel.card = _
          rw [hrest, ← hn]
          show _ = ((l.mapM g).bind fun ns => some (n :: ns)).map fun ns => s.card + ns.sum
          cases l.mapM g with
          | none => rfl
          | some ns =>
              show some (s.card + n + ns.sum) = some (s.card + (n :: ns).sum)
              rw [List.sum_cons, Nat.add_assoc]

theorem card_selectOp (s : Sel) (row : Option Row) :
    (selectOp tmatch given flist cstar row s).map Sel.card =
      (addsRow tmatch given flist cstar row).map (s.card + ·) := by
  unfold selectOp addsRow
  cases passes tmatch given flist row with
  | none => rfl
  | some ret =>
      cases ret with
      | false => rfl
      | true =>
          cases cstar with
          | true => rfl
          | false => cases row <;> rfl

theorem card_callback (s : Sel) (m : Meet) :
    (callback t tmatch given flist cstar m s).map Sel.card =
      (adds t tmatch given flist cstar m).map (s.card + ·) := by
  cases m with
  | row r => exact card_selectOp s (some r)
  | node l =>
      simp only [callback, nBTOp, adds]
      split
      · rfl
      · have hone : ∀ s (e : Aobj × Aobj),
            (selectOp tmatch given flist cstar (rrow t (nodePk l e)) s).map Sel.card =
              (addsRow tmatch given flist cstar (rrow t (nodePk l e))).map (s.card + ·) :=
          fun s e => card_selectOp s _
        rw [card_foldlM hone, Option.map_map]
        rfl
  | uniq uv =>
      simp only [callback, uBTOp, adds]
      split
      · rfl
      · exact card_selectOp s (rrow t uv)

/-- The rows of `SELECT *` are as many as `card` says. -/
theorem rows_foldlM {ε : Type} {f : Sel → ε → Option Sel}
    (h : ∀ s e s', f s e = some s' → s.rows.length = s.card → s'.rows.length = s'.card) :
    ∀ (l : List ε) (s s' : Sel), l.foldlM f s = some s' → s.rows.length = s.card →
      s'.rows.length = s'.card
  | [], s, s', hr, hs => by
      cases hr
      exact hs
  | e :: l, s, s', hr, hs => by
      rw [List.foldlM_cons] at hr
      obtain ⟨s₁, h₁, hr⟩ := Option.bind_eq_some_iff.mp hr
      exact rows_foldlM h l s₁ s' hr (h s e s₁ h₁ hs)

theorem rows_selectOp {row : Option Row} {s s' : Sel}
    (h : selectOp tmatch given flist false row s = some s') (hs : s.rows.length = s.card) :
    s'.rows.length = s'.card := by
  unfold selectOp at h
  split at h
  · cases h
  · cases h
    exact hs
  · obtain ⟨r, -, rfl⟩ := Option.map_eq_some_iff.mp h
    simp [hs]

theorem rows_callback {m : Meet} {s s' : Sel} (h : callback t tmatch given flist false m s = some s')
    (hs : s.rows.length = s.card) : s'.rows.length = s'.card := by
  cases m with
  | row r => exact rows_selectOp h hs
  | node l => exact rows_foldlM (fun _ _ _ h hs => rows_selectOp h hs) _ s s' h hs
  | uniq uv => exact rows_selectOp h hs

end Counted

/-! ## When the counts are the same -/

section Right

variable {ν : Type} {high : Aobj}

/-- The full scan of a node tree starts at its least key, and no other key than the greatest ends it:
none of them is over it, and no text is the beginning of it. -/
def Whole (l : Leaf) : Prop :=
  ∀ aL aH, l.ents.head? = some aL → l.ents.getLast? = some aH →
    (∃ k, createBTKey l.kind (some aL.1) = some k ∧ ¬ aL.1 < k) ∧
      ∀ e ∈ l.ents.dropLast, ¬ aH.1 < e.1 ∧ exactMatch e.1 aH.1 = false

theorem scan_begins (high : Aobj) : ∀ l : List (Aobj × ν), scan high l <+: l
  | [] => List.prefix_rfl
  | e :: l => by
      rw [scan]
      split
      · exact List.nil_prefix
      · split
        · exact List.cons_prefix_cons.mpr ⟨rfl, List.nil_prefix⟩
        · exact List.cons_prefix_cons.mpr ⟨rfl, scan_begins high l⟩

theorem leafRange_sublist (l : Leaf) : (leafRange l).Sublist l.ents := by
  unfold leafRange btFullRange btRange
  split
  · split
    · exact List.nil_sublist _
    · exact (scan_begins _ _).sublist.trans (List.dropWhile_sublist _)
  · exact List.nil_sublist _

/-- A scan reads the whole list if nothing but the last entry ends it. -/
theorem scan_eq_self_iff : ∀ {l : List (Aobj × ν)}, (∀ e, l.getLast? = some e → ¬ high < e.1) →
    (scan high l = l ↔ ∀ e ∈ l.dropLast, ¬ high < e.1 ∧ exactMatch e.1 high = false)
  | [], _ => by simp [scan]
  | [e], h => by
      rw [scan, if_neg (h e rfl)]
      simp [scan]
  | e :: e' :: l, h => by
      have hlast : ∀ x, (e' :: l).getLast? = some x → ¬ high < x.1 := by
        intro x hx
        refine h x ?_
        rw [List.getLast?_cons_cons]
        exact hx
      rw [List.dropLast_cons_cons, List.forall_mem_cons, ← scan_eq_self_iff hlast, scan]
      by_cases hover : high < e.1
      · simp [hover]
      · cases hex : exactMatch e.1 high with
        | true => simp [hover]
        | false => simp [hover]

/-- A range is the whole list if it starts at the first entry and nothing but the last one ends it. -/
theorem btRange_eq_self_iff {bkey : Option Aobj} {aL : Aobj × ν} {l : List (Aobj × ν)}
    (h : ∀ e, (aL :: l).getLast? = some e → ¬ high < e.1) :
    btRange bkey high (aL :: l) = aL :: l ↔ (∃ k, bkey = some k ∧ ¬ aL.1 < k) ∧
      ∀ e ∈ (aL :: l).dropLast, ¬ high < e.1 ∧ exactMatch e.1 high = false := by
  cases bkey with
  | none =>
      refine iff_of_false (fun h => nomatch h) ?_
      rintro ⟨⟨k, hk, -⟩, -⟩
      cases hk
  | some k =>
      show scan high ((aL :: l).dropWhile fun e => decide (e.1 < k)) = aL :: l ↔ _
      by_cases hlt : aL.1 < k
      · refine iff_of_false (fun he => ?_) ?_
        · have hlen := congrArg List.length he
          rw [List.dropWhile_cons_of_pos (p := fun e : Aobj × ν => decide (e.1 < k))
            (decide_eq_true hlt), List.length_cons] at hlen
          have hscan := (scan_begins high (l.dropWhile fun e => decide (e.1 < k))).length_le
          have hdrop := (List.dropWhile_sublist (l := l) fun e => decide (e.1 < k)).length_le
          omega
        · rintro ⟨⟨k', hk, hno⟩, -⟩
          cases hk
          exact hno hlt
      · rw [List.dropWhile_cons_of_neg (by rw [decide_eq_true_eq]; exact hlt), scan_eq_self_iff h]
        exact ⟨fun hl => ⟨⟨k, rfl, hlt⟩, hl⟩, fun hl => hl.2⟩

theorem leafRange_eq_iff (l : Leaf) : leafRange l = l.ents ↔ Whole l := by
  unfold leafRange btFullRange Whole
  cases he : l.ents with
  | nil => simp
  | cons aL rest =>
      obtain ⟨aH, hlast⟩ : ∃ aH, (aL :: rest).getLast? = some aH :=
        ⟨_, List.getLast?_eq_some_getLast (List.cons_ne_nil aL rest)⟩
      have hend : ∀ e, (aL :: rest).getLast? = some e → ¬ aH.1 < e.1 := by
        intro e h
        rw [hlast] at h
        cases h
        exact Aobj.lt_irrefl aH.1
      rw [List.head?_cons, hlast]
      refine (btRange_eq_self_iff hend).trans ⟨fun h aL' aH' hL hH => ?_, fun h => h aL aH rfl rfl⟩
      cases hL
      cases hH
      exact h

/-- On numbers that are in order a full scan reads the whole node. -/
theorem whole_numbers {l : Leaf} (hkey : ∀ e ∈ l.ents, createBTKey l.kind (some e.1) = some e.1)
    (hnum : ∀ e ∈ l.ents, e.1.ktype ≠ .text) (hs : l.ents.Pairwise fun a b => a.1 < b.1) : Whole l := by
  intro aL aH hL hH
  refine ⟨⟨aL.1, hkey aL (List.mem_of_mem_head? hL), Aobj.lt_irrefl aL.1⟩, fun e he => ?_⟩
  have hlt : e.1 < aH.1 := by
    have hsplit := List.dropLast_append_getLast? aH hH
    rw [← hsplit] at hs
    exact (List.pairwise_append.mp hs).2.2 e he aH (List.mem_singleton_self aH)
  refine ⟨fun h => Aobj.lt_irrefl _ (Aobj.lt_trans _ _ _ hlt h), ?_⟩
  have hne : e.1 ≠ aH.1 := fun h => Aobj.lt_irrefl _ (h ▸ hlt)
  have htext := hnum e (List.dropLast_subset _ he)
  unfold exactMatch
  split
  · rename_i k high hk _
    exact absurd (congrArg Aobj.ktype hk) htext
  · exact decide_eq_false hne

end Right

section Select

variable {L : Type} (t : Tab) (tmatch : Nat) (given : Row → Flist.Given L)
  (flist : Option (List (Flist.Filter L)))

/-- A short cut counts what is output: without filters a node is scanned as a whole, and its rows are
there, and the row of an entry of a UNIQUE index is there and passes the filters. -/
def Right : Meet → Prop
  | .row _ => True
  | .node l => flist = none → Whole l ∧ ∀ e ∈ l.ents, ∃ r, rrow t (nodePk l e) = some r
  | .uniq uv => ∃ r, rrow t uv = some r ∧ passes tmatch given flist (some r) = some true

variable {t tmatch given flist}

theorem addsRow_filtered {row : Option Row} (h : flist ≠ none) :
    addsRow tmatch given flist true row = addsRow tmatch given flist false row := by
  cases row with
  | some r => rfl
  | none =>
      cases flist with
      | none => exact absurd rfl h
      | some fs => rfl

theorem addsRow_one {row : Option Row} {a : Nat} (h : addsRow tmatch given flist false row = some a) :
    a ≤ 1 := by
  unfold addsRow at h
  split at h
  · cases h
  · cases h
    exact Nat.zero_le 1
  · obtain ⟨r, -, rfl⟩ := Option.map_eq_some_iff.mp h
    exact Nat.le_refl 1

theorem addsRow_eq_one {row : Option Row} : addsRow tmatch given flist false row = some 1 ↔
    ∃ r, row = some r ∧ passes tmatch given flist (some r) = some true := by
  cases row with
  | none =>
      unfold addsRow
      cases passes tmatch given flist none with
      | none => simp
      | some ret => cases ret <;> simp
  | some r =>
      unfold addsRow
      cases hp : passes tmatch given flist (some r) with
      | none => simp [hp]
      | some ret => cases ret <;> simp [hp]

theorem adds_filtered {m : Meet} (h : flist ≠ none) (hm : m.isUniq = false) :
    adds t tmatch given flist true m = adds t tmatch given flist false m := by
  cases m with
  | row r => rfl
  | uniq uv => cases hm
  | node l =>
      have hnone : ¬ flist.isNone = true := fun hn => h (Option.isNone_iff_eq_none.mp hn)
      simp only [adds, hnone]
      exact total_congr fun e _ => addsRow_filtered h

/-- Without filters a node counts as many as it has keys, and as many as there are rows of the keys
that are read. -/
theorem adds_node (l : Leaf) : adds t tmatch given none true (.node l) = some l.ents.length ∧
    adds t tmatch given none false (.node l) =
      total (fun e => (rrow t (nodePk l e)).map fun _ => 1) (leafRange l) :=
  ⟨rfl, rfl⟩

theorem one_le {row : Option Row} {a : Nat} (h : row.map (fun _ => 1) = some a) : a ≤ 1 := by
  obtain ⟨r, -, rfl⟩ := Option.map_eq_some_iff.mp h
  exact Nat.le_refl 1

/-- `COUNT(*)` adds no less than `SELECT *`. -/
theorem adds_le (m : Meet) {a : Nat} (h : adds t tmatch given flist false m = some a) :
    ∃ b, adds t tmatch given flist true m = some b ∧ a ≤ b := by
  cases m with
  | row r => exact ⟨a, h, Nat.le_refl a⟩
  | uniq uv => exact ⟨1, rfl, addsRow_one h⟩
  | node l =>
      cases flist with
      | some fs =>
          refine ⟨a, ?_, Nat.le_refl a⟩
          rw [adds_filtered (Option.some_ne_none fs) rfl]
          exact h
      | none =>
          rw [(adds_node l).2] at h
          refine ⟨l.ents.length, rfl, ?_⟩
          exact (total_le_length (fun _ _ => one_le) h).trans (leafRange_sublist l).length_le

theorem adds_node_iff (l : Leaf) :
    some l.ents.length = total (fun e => (rrow t (nodePk l e)).map fun _ => 1) (leafRange l) ↔
      Whole l ∧ ∀ e ∈ l.ents, ∃ r, rrow t (nodePk l e) = some r := by
  have hones : ∀ e : Aobj × Aobj, some 1 = (rrow t (nodePk l e)).map (fun _ => 1) ↔
      ∃ r, rrow t (nodePk l e) = some r := by
    intro e
    cases rrow t (nodePk l e) <;> simp
  have hentry : ∀ (e : Aobj × Aobj) a, (rrow t (nodePk l e)).map (fun _ => 1) = some a →
      ∃ b, some 1 = some b ∧ a ≤ b := fun e a he => ⟨1, rfl, one_le he⟩
  have hsum := total_eq_iff (c := fun _ => some 1) hentry (l := l.ents) (by simp)
  rw [total_ones] at hsum
  simp only [hones] at hsum
  rw [← leafRange_eq_iff]
  constructor
  · intro h
    have hle := total_le_length (fun _ _ => one_le) h.symm
    have hread := (leafRange_sublist l).eq_of_length_le hle
    rw [hread] at h
    exact ⟨hread, hsum.mp h⟩
  · rintro ⟨hread, hrows⟩
    rw [hread]
    exact hsum.mpr hrows

theorem adds_eq_iff (m : Meet) : adds t tmatch given flist true m = adds t tmatch given flist false m ↔
    Right t tmatch given flist m := by
  cases m with
  | row r => exact iff_of_true rfl trivial
  | uniq uv => exact eq_comm.trans addsRow_eq_one
  | node l =>
      cases flist with
      | some fs =>
          exact iff_of_true (adds_filtered (Option.some_ne_none fs) rfl) fun h => nomatch h
      | none =>
          rw [(adds_node l).1, (adds_node l).2, adds_node_iff]
          exact ⟨fun h _ => h, fun h => h rfl⟩

theorem adds_some {m : Meet} (h : flist = none ∨ m.isUniq = true) :
    adds t tmatch given flist true m ≠ none := by
  cases m with
  | uniq uv => exact Option.some_ne_none 1
  | row r =>
      obtain rfl := h.resolve_right Bool.false_ne_true
      exact Option.some_ne_none 1
  | node l =>
      obtain rfl := h.resolve_right Bool.false_ne_true
      exact Option.some_ne_none _

/-- Over what a lookup meets the sums are the same just if every short cut is right. -/
theorem sums_eq_iff {l : List Meet} {b : Bool} (hl : ∀ m ∈ l, m.isUniq = b) :
    total (adds t tmatch given flist true) l = total (adds t tmatch given flist false) l ↔
      ∀ m ∈ l, Right t tmatch given flist m := by
  simp only [← adds_eq_iff]
  by_cases h : flist = none ∨ b = true
  · refine total_eq_iff (fun m _ => adds_le m) fun m hm => adds_some (h.imp_right fun hb => ?_)
    rw [hl m hm, hb]
  · rw [not_or, Bool.not_eq_true] at h
    have hall : ∀ m ∈ l, adds t tmatch given flist true m = adds t tmatch given flist false m :=
      fun m hm => adds_filtered h.1 ((hl m hm).trans h.2)
    exact iff_of_true (total_congr hall) hall

end Select

/-! ## The two queries -/

section Queries

variable {L : Type} (t : Tab) (tmatch : Nat) (given : Row → Flist.Given L) (uv : Aobj) (w : Cswc L)

/-- The row of the one primary key is there and passes the filters, or every short cut on the way is
right. -/
def CountRight : Prop :=
  match w.wf with
  | .single akey => ∃ cols, t.store.find akey = some cols ∧
      passes tmatch given w.flist (some ⟨akey, cols⟩) = some true
  | _ => ∀ l, met t uv w = some l → ∀ m ∈ l, Right t tmatch given w.flist m

variable {t tmatch given uv w}

/-- Both queries, by the sums over what is met. -/
theorem op_card (cstar : Bool) :
    (op (callback t tmatch given w.flist cstar) t uv w.klist w.wf ⟨0, []⟩).map Sel.card =
      (met t uv w).bind (total (adds t tmatch given w.flist cstar)) := by
  obtain ⟨-, -, h⟩ := op_met t uv w
  rw [h]
  cases met t uv w with
  | none => rfl
  | some l =>
      refine (card_foldlM (fun s m => card_callback s m) l ⟨0, []⟩).trans ?_
      show _ = total (adds t tmatch given w.flist cstar) l
      unfold total
      exact congrArg (Option.map · _) (funext fun ns => Nat.zero_add _)

theorem op_rows {s : Sel}
    (h : op (callback t tmatch given w.flist false) t uv w.klist w.wf ⟨0, []⟩ = some s) :
    s.rows.length = s.card := by
  obtain ⟨-, -, hop⟩ := op_met t uv w
  rw [hop] at h
  obtain ⟨l, -, h⟩ := Option.bind_eq_some_iff.mp h
  exact rows_foldlM (fun _ _ _ h hs => rows_callback h hs) l _ s h rfl

/-- For a lookup that is no single primary key. -/
theorem op_counts_iff :
    (op (callback t tmatch given w.flist true) t uv w.klist w.wf ⟨0, []⟩).map Sel.card =
      (op (callback t tmatch given w.flist false) t uv w.klist w.wf ⟨0, []⟩).map
        (fun s => s.rows.length) ↔
      ∀ l, met t uv w = some l → ∀ m ∈ l, Right t tmatch given w.flist m := by
  have hrows : (op (callback t tmatch given w.flist false) t uv w.klist w.wf ⟨0, []⟩).map
      (fun s => s.rows.length) =
      (op (callback t tmatch given w.flist false) t uv w.klist w.wf ⟨0, []⟩).map Sel.card := by
    cases hs : op (callback t tmatch given w.flist false) t uv w.klist w.wf ⟨0, []⟩ with
    | none => rfl
    | some s => exact congrArg some (op_rows hs)
  rw [hrows, op_card, op_card]
  obtain ⟨b, hb, -⟩ := op_met t uv w
  cases hm : met t uv w with
  | none => simp
  | some l =>
      simp only [Option.bind_some, Option.some_inj, forall_eq']
      exact sums_eq_iff (hb l hm)

/-- One primary key is counted as one row. -/
theorem single_counts_iff {akey : Aobj} (flist : Option (List (Flist.Filter L))) :
    some 1 = ((match t.store.find akey with
      | none => some (Sel.mk 0 [])
      | some cols => selectOp tmatch given flist false (some ⟨akey, cols⟩) ⟨0, []⟩).map
        fun s : Sel => s.rows.length) ↔
      ∃ cols, t.store.find akey = some cols ∧ passes tmatch given flist (some ⟨akey, cols⟩) = some true := by
  cases t.store.find akey with
  | none => simp
  | some cols =>
      simp only [Option.some_inj, exists_eq_left']
      unfold selectOp
      cases hp : passes tmatch given flist (some ⟨akey, cols⟩) with
      | none => simp
      | some ret => cases ret <;> simp

/-- `COUNT(*)` is the number of rows that `SELECT *` returns exactly if its short cuts are right for
all that is met. -/
theorem countsRows_iff (t : Tab) (tmatch : Nat) (given : Row → Flist.Given L) (uv : Aobj) (w : Cswc L) :
    CountsRows t tmatch given uv w ↔ CountRight t tmatch given uv w := by
  obtain ⟨wf, klist, flist⟩ := w
  unfold CountsRows selectCount selectRows
  rw [Option.map_map]
  cases wf with
  | single akey => exact single_counts_iff flist
  | pkRange low high => exact op_counts_iff (w := ⟨.pkRange low high, klist, flist⟩)
  | pkIn inl => exact op_counts_iff (w := ⟨.pkIn inl, klist, flist⟩)
  | fk imatch akey => exact op_counts_iff (w := ⟨.fk imatch akey, klist, flist⟩)
  | fkRange imatch low high => exact op_counts_iff (w := ⟨.fkRange imatch low high, klist, flist⟩)
  | fkIn imatch inl => exact op_counts_iff (w := ⟨.fkIn imatch inl, klist, flist⟩)

end Queries

/-- The columns of a row with numbers. -/
def ofInts (r : Row) : Flist.Given Nat where
  getCol := fun ic t =>
    match t, getCol r ic with
    | .int, some (.int i) => ⟨some (UInt32.ofNat i), fun _ => 0⟩
    | _, _ => ⟨none, fun _ => 0⟩
  runLuaFilter := fun _ => (false, false)

/-- Two rows with a UNIQUE column. -/
def uniqTab : Tab where
  ty := fun _ => .int
  ncols := 2
  store := ⟨.norm, [(.int 1, [some (.int 5), some (.int 7)]), (.int 2, [some (.int 6), some (.int 7)])]⟩
  inds := [⟨.uniq 1 .int, .leaf ⟨.uu, [(.int 5, .int 1), (.int 6, .int 2)]⟩⟩]

/-- Two rows with texts as primary keys, one of them the beginning of the other. -/
def textTab : Tab where
  ty := fun j => if j = 0 then .text else .int
  ncols := 1
  store := ⟨.norm, [(.text ['a'], [some (.int 7)]), (.text ['a', 'b'], [some (.int 7)])]⟩
  inds := [⟨.single 1 none, .tree [(.int 7, .leaf ⟨.inode .text,
    [(.text ['a'], .text ['a']), (.text ['a', 'b'], .text ['a', 'b'])]⟩)]⟩]

/-- A primary key that is not there is counted; so are both entries of a UNIQUE index where a filter
lets one row pass; and with the primary keys 'a' and 'ab' the scan of a node ends at the first. -/
theorem count_wrong :
    ¬ CountsRows uniqTab 0 ofInts (.int 0) ⟨.single (.int 3), [], none⟩ ∧
    ¬ CountsRows uniqTab 0 ofInts (.int 0)
      ⟨.fkRange 0 (.int 5) (.int 6), [], some [⟨0, 0, .col .int (.cmp .eq (2 : UInt32))⟩]⟩ ∧
    ¬ CountsRows textTab 0 ofInts (.int 0) ⟨.fk 0 (.int 7), [], none⟩ := by
  refine ⟨?_, ?_, ?_⟩ <;> decide

end AlchemyDB.Query.Select
