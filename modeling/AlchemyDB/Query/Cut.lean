/-
# What a LIMIT cuts out

It is entries that the OFFSET of an unsorted query counts, and not rows.  With filters, a range on the
primary key steps over none, one on an index over whole nodes only, and one on a UNIQUE index over all of
them, whether they pass or not.  Without filters, LIMIT and OFFSET cut out what is asked for.
-/
import AlchemyDB.Query.Limit

namespace AlchemyDB.Query.Slice

open Assoc Index Table Select

/-! ## The scan -/

section Scan

variable {L : Type} {t : Tab} {tmatch : Nat} {given : Row → Flist.Given L} {q : Qr} {w : Wob}
  {uv : Aobj} {cs : Cswc L} {ms : List Meet} {n : Nat}

/-- The trees that a jump starts in are numbers in order. -/
structure Clean (t : Tab) : Prop where
  plain : t.store.kind ≠ .uu
  num : ∀ e ∈ t.store.ents, e.1.ktype ≠ .text
  sorted : t.store.ents.Pairwise fun a b => a.1 < b.1
  bottom : ∀ x ∈ t.inds, ∀ l, x.tree = .leaf l → Numbers l

/-- A range, or one key of an index. -/
def Ranged : Lookup → Bool
  | .pkRange _ _ => true
  | .fk _ _ => true
  | .fkRange _ _ _ => true
  | _ => false

theorem ranged_not_single {wf : Lookup} (h : Ranged wf = true) : ∀ akey, wf ≠ .single akey := by
  rintro akey rfl
  cases h

/-- The entries that the OFFSET steps over. -/
def stepped (q : Qr) (w : Wob) (wf : Lookup) (ms : List Meet) : Nat :=
  if onPk wf then if q.xth then w.ofst.toNat else 0
  else if ms.all Meet.isUniq then w.ofst.toNat
  else inNodes (q.fkLo && fkRq wf) q.xth w.ofst ms

theorem stepped_le {wf : Lookup} : stepped q w wf ms ≤ w.ofst.toNat := by
  unfold stepped
  split
  · split
    · exact le_refl _
    · exact Nat.zero_le _
  · split
    · exact le_refl _
    · exact inNodes_le _ _ ms w.ofst

/-- The plan of a query on the primary key that is not sorted. -/
theorem pkQueued_lim {fl : Bool} (hqed : (pkQueued w fl).qed = false) (hlim : 1 ≤ w.lim) :
    (pkQueued w fl).pkLim = true ∧ (pkQueued w fl).pkLo = decide (w.ofst ≠ -1) := by
  have hpk : (pkQueued w fl).pk = false := hqed
  have h : (pkQueued w fl).pkLim = (!(pkQueued w fl).pk && decide (w.lim ≠ -1)) := rfl
  have h' : (pkQueued w fl).pkLo = ((pkQueued w fl).pkLim && decide (w.ofst ≠ -1)) := rfl
  rw [hpk, decide_eq_true (by omega)] at h
  rw [h] at h'
  exact ⟨h, h'⟩

theorem fkQueued_lim {k : Kind} {single fl : Bool} (hqed : (fkQueued k single w fl).qed = false)
    (hlim : 1 ≤ w.lim) : (fkQueued k single w fl).fkLim = true ∧
      (fkQueued k single w fl).fkLo = decide (w.ofst ≠ -1) := by
  have hfk : (fkQueued k single w fl).fk = false := hqed
  have h : (fkQueued k single w fl).fkLim =
      (!(fkQueued k single w fl).fk && decide (w.lim ≠ -1)) := rfl
  have h' : (fkQueued k single w fl).fkLo =
      ((fkQueued k single w fl).fkLim && decide (w.ofst ≠ -1)) := rfl
  rw [hfk, decide_eq_true (by omega)] at h
  rw [h] at h'
  exact ⟨h, h'⟩

/-- The plan of a range or of one key of an index. -/
theorem setQueued_ranged {wf : Lookup} {fl : Bool} {P : Qr → Prop} (hwf : Ranged wf = true)
    (h : setQueued t wf w fl = some q) (hpk : onPk wf = true → P (pkQueued w fl))
    (hfk : onPk wf = false → ∀ k single, P (fkQueued k single w fl)) : P q := by
  cases wf with
  | single akey => cases hwf
  | pkIn inl => cases hwf
  | fkIn imatch inl => cases hwf
  | pkRange low high =>
      obtain rfl := Option.some.inj h
      exact hpk rfl
  | fk imatch akey =>
      obtain ⟨x, -, rfl⟩ := Option.map_eq_some_iff.mp h
      exact hfk rfl _ _
  | fkRange imatch low high =>
      obtain ⟨x, -, rfl⟩ := Option.map_eq_some_iff.mp h
      exact hfk rfl _ _

theorem setQueued_lim {fl : Bool} (hwf : Ranged cs.wf = true) (h : setQueued t cs.wf w fl = some q)
    (hqed : q.qed = false) (hlim : 1 ≤ w.lim) :
    if onPk cs.wf then q.pkLim = true ∧ q.pkLo = decide (w.ofst ≠ -1)
    else q.fkLim = true ∧ q.fkLo = decide (w.ofst ≠ -1) := by
  revert hqed
  refine setQueued_ranged (P := fun q => q.qed = false →
    if onPk cs.wf then q.pkLim = true ∧ q.pkLo = decide (w.ofst ≠ -1)
    else q.fkLim = true ∧ q.fkLo = decide (w.ofst ≠ -1)) hwf h
    (fun hpk hqed => ?_) fun hpk k single hqed => ?_
  · rw [if_pos hpk]
    exact pkQueued_lim hqed hlim
  · rw [if_neg (by rw [hpk]; simp)]
    exact fkQueued_lim hqed hlim

theorem foldlM_mapM {ε : Type} {f : List Meet → ε → Option (List Meet)} {u : ε → Option Meet}
    (h : ∀ s e, f s e = (u e).map fun m => s ++ [m]) : ∀ {l : List ε} {s : List Meet},
    l.foldlM f s = (l.mapM u).map (s ++ ·)
  | [], s => by simp
  | e :: l, s => by
      rw [List.foldlM_cons, List.mapM_cons, h]
      cases hu : u e with
      | none => rfl
      | some m =>
          show l.foldlM f (s ++ [m]) = _
          rw [foldlM_mapM h]
          cases l.mapM u with
          | none => rfl
          | some ms => simp

theorem mapM_rows {ε : Type} {f : ε → Meet} : ∀ {l : List ε},
    l.mapM (fun e => some (f e)) = some (l.map f)
  | [] => rfl
  | e :: l => by
      rw [List.mapM_cons, mapM_rows]
      rfl

theorem mapM_drop {α β : Type} {u : α → Option β} : ∀ {l : List α} {bs : List β} (j : Nat),
    l.mapM u = some bs → (l.drop j).mapM u = some (bs.drop j)
  | l, bs, 0, h => h
  | [], bs, j + 1, h => by
      cases h
      rfl
  | a :: l, bs, j + 1, h => by
      rw [List.mapM_cons] at h
      obtain ⟨b, -, h⟩ := Option.bind_eq_some_iff.mp h
      obtain ⟨bs', hbs, h⟩ := Option.bind_eq_some_iff.mp h
      cases h
      exact mapM_drop j hbs

/-- On the primary key the rows of a range are met. -/
theorem met_pkRange {low high : Aobj} (hw : cs.wf = .pkRange low high) : met t uv cs =
    some ((btRange (Store.key t.store.kind low) high t.store.ents).map fun e => .row ⟨e.1, e.2⟩) := by
  unfold met
  rw [hw]
  show (btRange _ high t.store.ents).foldlM (fun s e => some (s ++ [Meet.row ⟨e.1, e.2⟩])) [] = _
  refine (foldlM_mapM (u := fun e : Aobj × Cols => some (Meet.row ⟨e.1, e.2⟩)) fun _ _ => rfl).trans ?_
  rw [mapM_rows]
  rfl

theorem pkRange_of (hwf : Ranged cs.wf = true) (hpk : onPk cs.wf = true) :
    ∃ low high, cs.wf = .pkRange low high := by
  cases hw : cs.wf with
  | single akey => rw [hw] at hpk; cases hpk
  | fk imatch akey => rw [hw] at hpk; cases hpk
  | fkRange imatch low high => rw [hw] at hpk; cases hpk
  | fkIn imatch inl => rw [hw] at hpk; cases hpk
  | pkIn inl => rw [hw] at hwf; cases hwf
  | pkRange low high => exact ⟨low, high, rfl⟩

/-- On the primary key rows are met, and the jump goes over them. -/
theorem meets_pk (ht : Clean t) (hwf : Ranged cs.wf = true) (hpk : onPk cs.wf = true)
    (hm : met t uv cs = some ms) : (∀ m ∈ ms, ∃ r, m = .row r) ∧
      meets t q w uv cs = some (ms.drop (if q.xth then w.ofst.toNat else 0), w.ofst) := by
  obtain ⟨low, high, hw⟩ := pkRange_of hwf hpk
  have heq := Option.some.inj (hm.symm.trans (met_pkRange hw))
  refine ⟨fun m hmem => ?_, ?_⟩
  · rw [heq] at hmem
    obtain ⟨e, -, rfl⟩ := List.mem_map.mp hmem
    exact ⟨_, rfl⟩
  · unfold meets
    simp only [hw]
    cases q.xth with
    | false =>
        rw [hm]
        rfl
    | true => rw [if_pos rfl, if_pos rfl, btXthRange_eq ht.sorted ht.num, heq, List.map_drop]

/-- In an index only the jump in a UNIQUE one on one column goes before the scan. -/
theorem meets_index (ht : Clean t) (hpk : onPk cs.wf = false) (hm : met t uv cs = some ms) :
    meets t q w uv cs = some (ms, w.ofst) ∨
      ms.all Meet.isUniq = true ∧ meets t q w uv cs = some (ms.drop w.ofst.toNat, -1) := by
  have hplain : (met t uv cs).map (·, w.ofst) = some (ms, w.ofst) := by
    rw [hm]
    rfl
  cases hwf : cs.wf with
  | pkRange low high => rw [hwf] at hpk; cases hpk
  | single akey => exact .inl (by unfold meets; rw [hwf]; exact hplain)
  | pkIn inl => exact .inl (by unfold meets; rw [hwf]; exact hplain)
  | fk imatch akey => exact .inl (by unfold meets; rw [hwf]; exact hplain)
  | fkIn imatch inl => exact .inl (by unfold meets; rw [hwf]; exact hplain)
  | fkRange imatch low high =>
      unfold meets
      simp only [hwf]
      cases hx : t.inds[imatch]? with
      | none => exact .inl hplain
      | some x =>
          obtain ⟨k, tree⟩ := x
          cases k with
          | uniq col ktype =>
              cases htree : tree with
              | tree s => exact .inl hplain
              | leaf l =>
                  subst htree
                  simp only
                  cases q.xth with
                  | false => exact .inl hplain
                  | true =>
                      right
                      have hl := ht.bottom _ (List.mem_of_getElem? hx) l rfl
                      have h : met t uv cs =
                          (btRange (createBTKey l.kind (some low)) high l.ents).mapM (uniqMeet l) := by
                        unfold met
                        rw [hwf]
                        simp only [op, hx, rangeOpFK]
                        refine (foldlM_mapM (u := uniqMeet l) fun s e => ?_).trans (by simp)
                        unfold uniqMeet
                        split
                        · rfl
                        · cases uniqFind l e.1 <;> rfl
                      rw [hm] at h
                      refine ⟨?_, ?_⟩
                      · exact List.all_eq_true.mpr (mapM_uniqMeet h.symm)
                      · rw [if_pos rfl, btXthRange_eq hl.sorted hl.num, mapM_drop _ h.symm]
                        rfl
          | silent => exact .inl hplain
          | single col obc => exact .inl hplain
          | mci cols obc => exact .inl hplain
          | umci cols last ktype => exact .inl hplain

end Scan

/-! ## The rows of the scan -/

section Taking

variable {L : Type} {t : Tab} {tmatch : Nat} {given : Row → Flist.Given L} {q : Qr} {w : Wob}
  {uv : Aobj} {cs : Cswc L} {ms : List Meet} {n : Nat}

/-- The one row that is read. -/
def headRow (t : Tab) : Meet → Row
  | .row r => r
  | .node _ => ⟨.int 0, []⟩
  | .uniq v => rowAt t v

theorem reads_headRow (h : ∀ m ∈ ms, reads t m = [headRow t m]) :
    ms.flatMap (reads t) = ms.map (headRow t) := by
  rw [List.map_eq_flatMap, List.flatMap_def, List.flatMap_def, List.map_congr_left h]

theorem taken_drop {p : Row → Bool} {i j : Nat} {rows : List Row} :
    taken p n i (rows.drop j) = taken p n (j + i) rows := by
  unfold taken
  rw [List.drop_drop]

/-- On the primary key. -/
theorem loop_pk {i : Nat} (hlim : q.pkLim = true) (hlo : q.pkLo = decide (w.ofst ≠ -1))
    (hw : w.lim = n) (hn : 0 < n) (hrows : ∀ m ∈ ms, ∃ r, m = .row r)
    (hp : ∀ r ∈ ms.flatMap (reads t), (passes tmatch given cs.flist (some r)).isSome = true) :
    ∃ s', loop (callback t tmatch given cs.flist q w (fkRq cs.wf)) (ms.drop i)
        ⟨0, -1, w.ofst, false, []⟩ = some s' ∧
      s'.rows = taken (admits tmatch given cs.flist) n i (ms.flatMap (reads t)) := by
  have hoff : (if q.pkLo then -1 else w.ofst) = -1 := by
    rw [hlo]
    by_cases h : w.ofst = -1 <;> simp [h]
  obtain ⟨s', hs', -, h⟩ := loop_counts (n := n) (o := -1) (a := w.ofst)
    (p := admits tmatch given cs.flist) (g := headRow t)
    (f := callback t tmatch given cs.flist q w (fkRq cs.wf)) (l := ms.drop i)
    (s := ⟨0, -1, w.ofst, false, []⟩)
    (fun m hm s hc hb hs _ => by
      have hm := List.mem_of_mem_drop hm
      obtain ⟨r, rfl⟩ := hrows m hm
      have hr := hp r (List.mem_flatMap.mpr ⟨_, hm, List.mem_singleton_self r⟩)
      have h := pkOpL_counted (q := q) hlim hw (passes_admits hr) hc hb hs
      rw [hoff] at h
      exact h) hn rfl (le_refl _) rfl
  refine ⟨s', hs', ?_⟩
  have hheads : ∀ m ∈ ms, reads t m = [headRow t m] := by
    intro m hm
    obtain ⟨r, rfl⟩ := hrows m hm
    rfl
  rw [h.rows, reads_headRow hheads, List.map_drop, taken_drop]
  rfl

/-- In a UNIQUE index. -/
theorem loop_uniq {o : Int} {i : Nat} (hlim : q.fkLim = true) (hw : w.lim = n)
    (huniq : ∀ m ∈ ms, m.isUniq = true) (hl : ∀ m ∈ ms, Leads t m)
    (hp : ∀ r ∈ ms.flatMap (reads t), (passes tmatch given cs.flist (some r)).isSome = true) :
    ∃ s', loop (callback t tmatch given cs.flist q w (fkRq cs.wf)) (ms.drop i)
        ⟨0, -1, o, false, []⟩ = some s' ∧
      s'.rows = taken (admits tmatch given cs.flist) n
        (i + ((if q.fkLo then o else -1) + 1 - 1).toNat) (ms.flatMap (reads t)) := by
  have hform : ∀ m ∈ ms, ∃ v, m = .uniq v := by
    intro m hm
    have h := huniq m hm
    cases m with
    | row r => cases h
    | node l => cases h
    | uniq v => exact ⟨v, rfl⟩
  obtain ⟨s', hs', h⟩ := loop_countsEarly (n := n) (o := if q.fkLo then o else -1) (a := o)
    (p := admits tmatch given cs.flist) (g := headRow t)
    (f := callback t tmatch given cs.flist q w (fkRq cs.wf)) (l := ms.drop i)
    (s := ⟨0, -1, o, false, []⟩)
    (fun m hm s hb hs ha => by
      have hm := List.mem_of_mem_drop hm
      obtain ⟨v, rfl⟩ := hform m hm
      have hr := hp (rowAt t v) (List.mem_flatMap.mpr ⟨_, hm, List.mem_singleton_self _⟩)
      have h := uBTOp_counted (t := t) (q := q) hlim hw (rrow_rowAt (hl _ hm)) (passes_admits hr) hb hs
      rw [ha] at h
      exact h) (Nat.zero_le n) rfl (le_refl _) rfl
  refine ⟨s', hs', ?_⟩
  have hheads : ∀ m ∈ ms, reads t m = [headRow t m] := by
    intro m hm
    obtain ⟨v, rfl⟩ := hform m hm
    rfl
  rw [h, reads_headRow hheads, List.map_drop, taken_drop]
  congr 2

/-- In an index that is not UNIQUE node trees are met. -/
theorem met_nodes (hpk : onPk cs.wf = false) (hm : met t uv cs = some ms)
    (hall : ¬ ms.all Meet.isUniq = true) : ∀ m ∈ ms, ∃ l, m = .node l := by
  obtain ⟨b, hb, -⟩ := op_met t uv cs
  have hb := hb ms hm
  intro m hmem
  cases m with
  | node l => exact ⟨l, rfl⟩
  | row r => exact absurd hmem (met_rowless hpk hm)
  | uniq v =>
      refine absurd (List.all_eq_true.mpr fun m' hm' => ?_) hall
      rw [hb m' hm', ← hb _ hmem]
      rfl

/-- The rows that an unsorted query takes: as many as the LIMIT says of those that pass, behind the
entries that the OFFSET steps over. -/
theorem scanRows_taken (ht : Clean t) (hwf : Ranged cs.wf = true)
    (hset : setQueued t cs.wf w cs.flist.isSome = some q) (hqed : q.qed = false) (ha : q.asc = true)
    (hlim : 1 ≤ w.lim) (hm : met t uv cs = some ms)
    (hl : ∀ m ∈ ms, Leads t m)
    (hp : ∀ r ∈ ms.flatMap (reads t), (passes tmatch given cs.flist (some r)).isSome = true) :
    scanRows t tmatch given q w uv cs = some (taken (admits tmatch given cs.flist) w.lim.toNat
      (stepped q w cs.wf ms) (ms.flatMap (reads t))) := by
  have hw : w.lim = (w.lim.toNat : Int) := by omega
  have hq := setQueued_lim hwf hset hqed hlim
  unfold scanRows
  rw [if_pos ha]
  cases hpk : onPk cs.wf with
  | true =>
      rw [hpk, if_pos rfl] at hq
      obtain ⟨hrows, hmeets⟩ := meets_pk (q := q) (w := w) ht hwf hpk hm
      obtain ⟨s', hs', h⟩ := loop_pk (i := if q.xth then w.ofst.toNat else 0) hq.1 hq.2 hw (by omega)
        hrows hp
      rw [hmeets, Option.bind_some, hs', Option.map_some, h, stepped, if_pos hpk]
  | false =>
      rw [hpk, if_neg (by simp)] at hq
      unfold stepped
      rw [hpk, if_neg (by simp)]
      by_cases hall : ms.all Meet.isUniq = true
      · rw [if_pos hall]
        have huniq := List.all_eq_true.mp hall
        rcases meets_index (q := q) (w := w) ht hpk hm with h | ⟨-, h⟩
        · obtain ⟨s', hs', h'⟩ := loop_uniq (o := w.ofst) (i := 0) hq.1 hw huniq hl hp
          rw [h, Option.bind_some, ← List.drop_zero (l := ms), hs', Option.map_some, h', List.drop_zero,
            hq.2]
          congr 2
          by_cases ho : w.ofst = -1 <;> simp [ho]
        · obtain ⟨s', hs', h'⟩ := loop_uniq (o := -1) (i := w.ofst.toNat) hq.1 hw huniq hl hp
          rw [h, Option.bind_some, hs', Option.map_some, h']
          congr 2
          simp
      · rw [if_neg hall]
        have hnodes := met_nodes hpk hm hall
        rcases meets_index (q := q) (w := w) ht hpk hm with h | ⟨hall', -⟩
        · obtain ⟨s', hs', h'⟩ := loop_nodes (fkRq cs.wf) hq.1 hw
            (s := ⟨0, -1, w.ofst, false, []⟩) hnodes hl hp (by simp; omega) rfl (le_refl _)
            (fun hlo => by simpa [hlo] using hq.2)
          rw [h, Option.bind_some, hs', Option.map_some, h', List.nil_append]
          rfl
        · exact absurd hall' hall

end Taking

/-! ## SELECT -/

section Limit

variable {L : Type} {t : Tab} {tmatch : Nat} {given : Row → Flist.Given L} {q : Qr} {w : Wob}
  {uv : Aobj} {cs : Cswc L} {ms : List Meet}

/-- A slice that begins too early is the one that is asked for only if nothing is left to take. -/
theorem take_drop_iff {F : List Row} {n s m : Nat} (hnd : F.Nodup) (hn : 0 < n) (hs : s ≤ m) :
    (F.drop s).take n = (F.drop m).take n ↔ s = m ∨ F.length ≤ s := by
  constructor
  · intro h
    by_contra hne
    rw [not_or, not_le] at hne
    have h0 := congrArg (fun l => l[0]?) h
    simp only [List.getElem?_take_of_lt hn, List.getElem?_drop, Nat.add_zero] at h0
    exact hne.1 ((List.getElem?_inj hne.2 hnd).mp h0)
  · rintro (rfl | h)
    · rfl
    · rw [List.drop_eq_nil_of_le h, List.drop_eq_nil_of_le (h.trans hs)]

/-- What passes behind `j` entries. -/
theorem taken_eq {p : Row → Bool} {n j : Nat} {rows : List Row} :
    taken p n j rows = ((rows.filter p).drop ((rows.take j).countP p)).take n := by
  have h : rows.filter p = (rows.take j).filter p ++ (rows.drop j).filter p := by
    rw [← List.filter_append, List.take_append_drop]
  rw [taken, h, List.countP_eq_length_filter, List.drop_append_length]

end Limit

section Cuts

variable {L : Type} (qsort : (Sorting.Obsl → Sorting.Obsl → Int) → List Sorting.Obsl → List Sorting.Obsl)
  (malloc : Nat → Nat → Nat) (t : Tab) (tmatch : Nat) (given : Row → Flist.Given L) (uv : Aobj)
  (cs : Cswc L) (w : Wob)

/-- SELECT with LIMIT and OFFSET outputs the slice of what it outputs without them. -/
def Cuts : Prop :=
  select qsort malloc t tmatch given uv cs w =
    (Select.selectRows t tmatch given uv cs).map (slice w.lim w.ofst)

/-- A query that goes by the order of the scan: a range or one key of an index, in ascending direction,
with a LIMIT; the filters do not fail on what is read. -/
structure Unsorted (q : Qr) (ms : List Meet) : Prop where
  ranged : Ranged cs.wf = true
  plan : setQueued t cs.wf w cs.flist.isSome = some q
  qed : q.qed = false
  asc : q.asc = true
  lim : 1 ≤ w.lim
  ofst : -1 ≤ w.ofst
  met : met t uv cs = some ms
  leads : ∀ m ∈ ms, Leads t m
  filters : ∀ r ∈ ms.flatMap (reads t), (passes tmatch given cs.flist (some r)).isSome = true

variable {t tmatch given uv cs w} {q : Qr} {ms : List Meet}

/-- What SELECT outputs, and what it would output without LIMIT and OFFSET. -/
theorem Unsorted.select (h : Unsorted t tmatch given uv cs w q ms) (ht : Clean t) :
    Slice.select qsort malloc t tmatch given uv cs w =
        some ((((ms.flatMap (reads t)).filter (admits tmatch given cs.flist)).drop
          (((ms.flatMap (reads t)).take (stepped q w cs.wf ms)).countP
            (admits tmatch given cs.flist))).take w.lim.toNat) ∧
      Select.selectRows t tmatch given uv cs =
        some ((ms.flatMap (reads t)).filter (admits tmatch given cs.flist)) := by
  have hscan := scanRows_taken ht h.ranged h.plan h.qed h.asc h.lim h.met h.leads h.filters
  have hp : planned t tmatch given uv cs w = some (q, taken (admits tmatch given cs.flist) w.lim.toNat
      (stepped q w cs.wf ms) (ms.flatMap (reads t))) := by
    unfold planned
    rw [h.plan, Option.bind_some, hscan]
    rfl
  refine ⟨?_, selectRows_reads (ranged_not_single h.ranged) h.met h.leads h.filters⟩
  rw [(commands_planned qsort malloc (ranged_not_single h.ranged) hp).1, h.qed, ← taken_eq]
  rfl

theorem slice_limited {ε : Type} (h : 1 ≤ w.lim) (v : List ε) :
    slice w.lim w.ofst v = (v.drop w.ofst.toNat).take w.lim.toNat := by
  unfold slice
  rw [if_neg (by omega)]

theorem unfiltered (r : Row) : admits tmatch given (none : Option (List (Flist.Filter L))) r = true := by
  unfold admits passes
  rfl

/-- Through node trees without a filter, the OFFSET is all used up, or all entries are. -/
theorem inNodes_all : ∀ {ms : List Meet} (o : Int), (∀ m ∈ ms, ∃ l, m = .node l) →
    inNodes true true o ms = min o.toNat (ms.flatMap (reads t)).length
  | [], o, _ => by simp [inNodes]
  | m :: ms, o, h => by
      obtain ⟨l, rfl⟩ := h m List.mem_cons_self
      have ih := inNodes_all (o - l.ents.length) fun m hm => h m (List.mem_cons_of_mem _ hm)
      have hlen : (reads t (.node l)).length = l.ents.length := List.length_map _
      rw [inNodes, List.flatMap_cons, List.length_append, hlen]
      simp only [true_and, if_true]
      split
      · rw [ih]
        omega
      · omega

/-- Without filters the jump is taken wherever there is an OFFSET. -/
theorem setQueued_xth (hwf : Ranged cs.wf = true) (h : setQueued t cs.wf w false = some q) :
    q.xth = if onPk cs.wf then q.pkLo else q.fkLo := by
  refine setQueued_ranged (P := fun q => q.xth = if onPk cs.wf then q.pkLo else q.fkLo) hwf h
    (fun hpk => ?_) fun hpk k single => ?_
  · rw [if_pos hpk]
    exact Bool.and_true _
  · rw [if_neg (by rw [hpk]; simp)]
    exact Bool.and_true _

/-- The entries stepped over without a filter. -/
theorem Unsorted.stepped_all (h : Unsorted t tmatch given uv cs w q ms) (hf : cs.flist = none)
    (hone : fkRq cs.wf = false → ms.length ≤ 1) :
    min (stepped q w cs.wf ms) (ms.flatMap (reads t)).length =
      min w.ofst.toNat (ms.flatMap (reads t)).length := by
  have hplan := h.plan
  rw [hf] at hplan
  have hlim := setQueued_lim h.ranged hplan h.qed h.lim
  have hxth := setQueued_xth h.ranged hplan
  unfold stepped
  cases hpk : onPk cs.wf with
  | true =>
      rw [hpk, if_pos rfl] at hlim hxth
      rw [if_pos rfl, hxth, hlim.2]
      by_cases ho : w.ofst = -1
      · simp [ho]
      · simp [ho]
  | false =>
      rw [hpk, if_neg (by simp)] at hlim hxth
      rw [if_neg (by simp)]
      by_cases hall : ms.all Meet.isUniq = true
      · rw [if_pos hall]
      · rw [if_neg hall]
        have hnodes := met_nodes hpk h.met hall
        by_cases ho : w.ofst = -1
        · rw [inNodes_none (by omega), ho]
          rfl
        · rw [hxth, hlim.2, decide_eq_true ho]
          cases hrq : fkRq cs.wf with
          | true =>
              rw [Bool.and_true, inNodes_all _ hnodes, Nat.min_assoc, Nat.min_self]
          | false =>
              have hlen := hone hrq
              cases ms with
              | nil => exact absurd rfl hall
              | cons m ms =>
                  obtain rfl : ms = [] := List.eq_nil_of_length_eq_zero (by simpa using hlen)
                  obtain ⟨l, rfl⟩ := hnodes m List.mem_cons_self
                  simp [inNodes, reads]

/-- Without a filter all rows pass that are stepped over. -/
theorem Unsorted.passed_all (h : Unsorted t tmatch given uv cs w q ms) (hf : cs.flist = none)
    (hone : fkRq cs.wf = false → ms.length ≤ 1) :
    ((ms.flatMap (reads t)).take (stepped q w cs.wf ms)).countP (admits tmatch given cs.flist) =
      min w.ofst.toNat (ms.flatMap (reads t)).length := by
  rw [← h.stepped_all hf hone, hf, ← List.length_take]
  exact List.countP_eq_length.mpr fun r _ => unfiltered r

theorem filter_unfiltered (hf : cs.flist = none) (rows : List Row) :
    rows.filter (admits tmatch given cs.flist) = rows := by
  rw [hf]
  exact List.filter_eq_self.mpr fun r _ => unfiltered r

end Cuts

/-- The first row behind the first, where the last column is 7 or whatever it is. -/
def second (flist : Option (List (Flist.Filter Nat))) : Cswc Nat := ⟨.pkRange (.int 1) (.int 2), [], flist⟩

def sevens : Option (List (Flist.Filter Nat)) := some [⟨0, 2, .col .int (.cmp .eq (7 : UInt32))⟩]

theorem uniqTab_clean : Clean uniqTab := by
  refine ⟨by decide, by decide, by decide, fun x hx l hl => ?_⟩
  obtain rfl := List.mem_singleton.mp hx
  obtain rfl := Nest.leaf.inj hl
  exact ⟨by decide, by decide, by decide⟩

theorem uniqTab_unsorted (flist : Option (List (Flist.Filter Nat)))
    (h : ∀ r ∈ uniqTab.live, (passes 0 ofInts flist (some r)).isSome = true) :
    Unsorted uniqTab 0 ofInts (.int 0) (second flist) ⟨[], 1, 1⟩ (pkQueued ⟨[], 1, 1⟩ flist.isSome)
      (uniqTab.live.map .row) where
  ranged := rfl
  plan := rfl
  qed := rfl
  asc := rfl
  lim := by decide
  ofst := by decide
  met := rfl
  leads := by
    intro m hm
    obtain ⟨r, -, rfl⟩ := List.mem_map.mp hm
    trivial
  filters := h

end AlchemyDB.Query.Slice
