/-
# Catalog consistency — what the index numbers denote

Index numbers are held in six places.  They denote live indexes as long as no
index is removed on its own: `emptyIndex` takes the number off the table's list
only when the index has a column, never off the list of the column and never out
of `fdict`, so every dropped index and every creation that fails late leaves a
number behind.  A dropped table takes its lists with it, but leaves the indexes
that a cursor has not finished.
-/
import AlchemyDB.Catalog.Slots

namespace AlchemyDB.Catalog

open Store Slots

/-! ## Dictionaries -/

section Dictionary

variable {A : Type} {d d' : Dict A} {n : Sds} {v : A}

theorem dictFetchValue_mem (h : dictFetchValue d n = some v) : ∃ m, (m, v) ∈ d ∧ fold m = fold n := by
  unfold dictFetchValue at h
  obtain ⟨⟨m, w⟩, hf, rfl⟩ := Option.map_eq_some_iff.1 h
  exact ⟨m, List.mem_of_find?_eq_some hf, by simpa using List.find?_some hf⟩

theorem mem_dictDelete {e : Sds × A} : e ∈ dictDelete d n ↔ e ∈ d ∧ fold e.1 ≠ fold n := by
  simp [dictDelete]

theorem dictAdd_free (h : dictFetchValue d n = none) : dictAdd d n v = .ok (d ++ [(n, v)]) := by
  simp [dictAdd, h]

theorem dictAdd_ok (h : dictAdd d n v = .ok d') : d' = d ++ [(n, v)] := by
  unfold dictAdd at h
  split at h
  · cases h
  · exact (Except.ok.inj h).symm

end Dictionary

namespace Cat

variable {c c' : Cat} {i t : Nat}

/-! ## The invariant -/

/-- Number `i` denotes a live index of table `t`. -/
def Of (c : Cat) (i t : Nat) : Prop := c.LiveIndex i ∧ (c.index i).tmatch = some t

/-- The numbers a table holds denote live indexes of that table, and those a column holds live
indexes of that column. -/
structure ListsOk (c : Cat) (t : Nat) : Prop where
  ilist : ∀ i ∈ (c.tbl t).ilist, c.Of i t
  column : ∀ j k, (c.tbl t).col[j]? = some k → ∀ i, k.imatch = some i ∨ i ∈ k.ilist →
    c.Of i t ∧ ((c.index i).icol.map (·.cmatch)) = some j
  fdict : ∀ f i, (f, i) ∈ (c.tbl t).fdict → c.Of i t

/-- Every number held anywhere denotes a live index of the right table and column, and every live
index is on the list of its table. -/
structure Consistent (c : Cat) : Prop where
  lists : ∀ t, c.ListsOk t
  indD : ∀ n i, (n, i) ∈ c.indD → (c.index i).name = some n
  reach : ∀ i, c.LiveIndex i → ∃ t, c.LiveTable t ∧ (c.index i).tmatch = some t ∧
    i ∈ (c.tbl t).ilist

/-- What is kept along a run: besides consistency, that slots are kept and that `TblD` leads to live
tables. -/
structure Sound (c : Cat) : Prop where
  slots : c.SlotsKept
  cons : c.Consistent
  tblD : ∀ n t, (n, t) ∈ c.tblD → (c.tbl t).name = some n

theorem Sound.live_table (S : c.Sound) {tname : Sds} (h : c.findTable tname = some t) :
    c.LiveTable t := by
  obtain ⟨m, hm, _⟩ := dictFetchValue_mem h
  unfold LiveTable
  rw [S.tblD m t hm]
  rfl

theorem init_sound (ntbl nindx : Nat) : (init ntbl nindx).Sound := by
  refine ⟨init_slotsKept ntbl nindx, ⟨fun t => ⟨?_, ?_, ?_⟩, ?_, ?_⟩, ?_⟩
  · intro i hi
    cases hi
  · intro j k hk
    simp [init, initTable] at hk
  · intro f i hi
    cases hi
  · intro n i hi
    cases hi
  · intro i hi
    cases hi
  · intro n t ht
    cases ht

/-! ## Changes that keep what is held -/

/-- Slot `i` is rewritten without a change to what it denotes. -/
theorem Sound.setIndex (S : c.Sound) {ri : Ind} (hn : ri.name = (c.index i).name)
    (ht : ri.tmatch = (c.index i).tmatch) (hc : ri.icol = (c.index i).icol) :
    (c.setIndex i ri).Sound := by
  have hname : ∀ j, ((c.setIndex i ri).index j).name = (c.index j).name := by
    intro j
    unfold Cat.setIndex
    by_cases e : j = i
    · subst e
      simp [hn]
    · simp [e]
  have htm : ∀ j, ((c.setIndex i ri).index j).tmatch = (c.index j).tmatch := by
    intro j
    unfold Cat.setIndex
    by_cases e : j = i
    · subst e
      simp [ht]
    · simp [e]
  have hic : ∀ j, ((c.setIndex i ri).index j).icol = (c.index j).icol := by
    intro j
    unfold Cat.setIndex
    by_cases e : j = i
    · subst e
      simp [hc]
    · simp [e]
  have hof : ∀ j u, c.Of j u → (c.setIndex i ri).Of j u := by
    rintro j u ⟨h1, h2⟩
    refine ⟨?_, (htm j).trans h2⟩
    unfold LiveIndex at h1 ⊢
    rwa [hname]
  refine ⟨⟨S.slots.index.congr (fun j => ?_), S.slots.table⟩, ⟨fun u => ⟨?_, ?_, ?_⟩, ?_, ?_⟩, S.tblD⟩
  · unfold LiveIndex
    rw [hname]
  · intro j hj
    exact hof j u ((S.cons.lists u).ilist j hj)
  · intro j k hk m hm
    obtain ⟨h1, h2⟩ := (S.cons.lists u).column j k hk m hm
    exact ⟨hof m u h1, by rw [hic, h2]⟩
  · intro f j hj
    exact hof j u ((S.cons.lists u).fdict f j hj)
  · intro n j hj
    exact (hname j).trans (S.cons.indD n j hj)
  · intro j hj
    unfold LiveIndex at hj
    rw [hname] at hj
    obtain ⟨u, h1, h2, h3⟩ := S.cons.reach j hj
    exact ⟨u, h1, (htm j).trans h2, h3⟩

/-- A table is rewritten; what it then holds is all right, and nothing on its list is lost. -/
theorem Sound.setTbl (S : c.Sound) {rt : Tbl} (hn : rt.name = (c.tbl t).name)
    (hl : ∀ i ∈ (c.tbl t).ilist, i ∈ rt.ilist) (h : (c.setTbl t rt).ListsOk t) :
    (c.setTbl t rt).Sound := by
  have hname : ∀ u, ((c.setTbl t rt).tbl u).name = (c.tbl u).name := upd_name hn
  have hne : ∀ u, u ≠ t → (c.setTbl t rt).tbl u = c.tbl u := fun u hu => upd_ne _ _ hu
  refine ⟨⟨S.slots.index, S.slots.table.congr (fun u => ?_)⟩, ⟨fun u => ?_, S.cons.indD, ?_⟩, ?_⟩
  · unfold LiveTable
    rw [hname]
  · by_cases hu : u = t
    · exact hu ▸ h
    · refine ⟨?_, ?_, ?_⟩
      · rw [hne u hu]
        exact (S.cons.lists u).ilist
      · rw [hne u hu]
        exact (S.cons.lists u).column
      · rw [hne u hu]
        exact (S.cons.lists u).fdict
  · intro i hi
    obtain ⟨u, h1, h2, h3⟩ := S.cons.reach i hi
    refine ⟨u, ?_, h2, ?_⟩
    · unfold LiveTable at h1 ⊢
      rwa [hname]
    · by_cases hu : u = t
      · subst hu
        have : (c.setTbl u rt).tbl u = rt := upd_same _ _ _
        rw [this]
        exact hl i h3
      · rw [hne u hu]
        exact h3
  · intro n u hu
    exact (hname u).trans (S.tblD n u hu)

/-! ## A new index that succeeds -/

/-- The conditions under which `newIndex` does not run into its error exit nor into the assertion on
`IndD`. -/
structure Takes (c : Cat) (a : NewIndex) (o : Answers) : Prop where
  name : c.matchPartialIndexName a.iname = none
  fname : ∀ f, a.fname = some f → dictFetchValue (c.tbl a.tmatch).fdict f = none
  lua : a.luaFails o = false
  build : a.builds = true → o.build = true

theorem col_set_at {l : List Col} {j m : Nat} {k k' k₀ : Col} (h₀ : l[m]? = some k₀)
    (h : (l.set m k')[j]? = some k) : (j = m ∧ k = k') ∨ (j ≠ m ∧ l[j]? = some k) := by
  have hm : m < l.length := (List.getElem?_eq_some_iff.1 h₀).1
  by_cases e : j = m
  · subst e
    rw [List.getElem?_set_self hm] at h
    exact .inl ⟨rfl, (Option.some.inj h).symm⟩
  · rw [List.getElem?_set_ne (Ne.symm e)] at h
    exact .inr ⟨e, h⟩

/-- The number is in the slot and in the lists. -/
theorem Sound.placed (S : c.Sound) {a : NewIndex} {rt : Tbl} (ht : c.LiveTable a.tmatch)
    (h : listed (c.tbl a.tmatch) a.ic c.ipool.next = .ok rt) : (c.placed a rt).Sound := by
  have hfree : ¬ c.LiveIndex c.ipool.next := S.slots.index.next_free
  have hself : (c.placed a rt).index c.ipool.next = a.slot := upd_same _ _ _
  have hold : ∀ j, c.LiveIndex j → (c.placed a rt).index j = c.index j := by
    intro j hj
    refine upd_ne _ _ ?_
    rintro rfl
    exact hfree hj
  have hof : ∀ j u, c.Of j u → (c.placed a rt).Of j u := by
    rintro j u ⟨h1, h2⟩
    unfold Of LiveIndex
    rw [hold j h1]
    exact ⟨h1, h2⟩
  have hnew : (c.placed a rt).Of c.ipool.next a.tmatch := by
    unfold Of LiveIndex
    rw [hself]
    exact ⟨rfl, rfl⟩
  have hF : Filled c (c.placed a rt) a := ⟨rfl, rfl, rfl, upd_name (listed_name h)⟩
  have htab : ∀ u, u ≠ a.tmatch → (c.placed a rt).tbl u = c.tbl u := fun u hu => upd_ne _ _ hu
  have hat : (c.placed a rt).tbl a.tmatch = rt := upd_same _ _ _
  -- what the lists of the table have become
  have hil : rt.ilist = (c.tbl a.tmatch).ilist ++ [c.ipool.next] ∧
      rt.fdict = (c.tbl a.tmatch).fdict ∧ ∀ j k, rt.col[j]? = some k →
        (c.tbl a.tmatch).col[j]? = some k ∨ ∃ ic k₀, a.ic = some ic ∧ ic.cmatch = j ∧
          (c.tbl a.tmatch).col[j]? = some k₀ ∧ k = k₀.taking c.ipool.next := by
    unfold listed at h
    split at h
    · cases h
      exact ⟨rfl, rfl, fun j k hk => .inl hk⟩
    · rename_i ic hic
      split at h
      · cases h
      · rename_i k₀ hk₀
        cases h
        refine ⟨rfl, rfl, fun j k hk => ?_⟩
        rcases col_set_at hk₀ hk with ⟨rfl, rfl⟩ | ⟨_, hk⟩
        · exact .inr ⟨ic, k₀, hic, rfl, hk₀, rfl⟩
        · exact .inl hk
  refine ⟨S.slots.filled hF, ⟨fun u => ?_, ?_, ?_⟩, ?_⟩
  · by_cases hu : u = a.tmatch
    · subst hu
      refine ⟨?_, ?_, ?_⟩
      · rw [hat, hil.1]
        intro j hj
        rcases List.mem_append.1 hj with hj | hj
        · exact hof j _ ((S.cons.lists _).ilist j hj)
        · rw [List.mem_singleton.1 hj]
          exact hnew
      · rw [hat]
        intro j k hk m hm
        have hprev : ∀ k₀ : Col, (c.tbl a.tmatch).col[j]? = some k₀ →
            k₀.imatch = some m ∨ m ∈ k₀.ilist → (c.placed a rt).Of m a.tmatch ∧
              ((c.placed a rt).index m).icol.map (·.cmatch) = some j := by
          intro k₀ hk₀ hm₀
          obtain ⟨h1, h2⟩ := (S.cons.lists _).column j k₀ hk₀ m hm₀
          exact ⟨hof m _ h1, by rw [hold m h1.1, h2]⟩
        rcases hil.2.2 j k hk with hk | ⟨ic, k₀, hic, rfl, hk₀, rfl⟩
        · exact hprev k hk hm
        · have hself' : ((c.placed a rt).index c.ipool.next).icol.map (·.cmatch) = some ic.cmatch := by
            rw [hself]
            simp [NewIndex.slot, hic]
          rcases hm with hm | hm
          · cases Option.some.inj hm
            exact ⟨hnew, hself'⟩
          · rcases List.mem_append.1 hm with hm | hm
            · exact hprev k₀ hk₀ (.inr hm)
            · rw [List.mem_singleton.1 hm]
              exact ⟨hnew, hself'⟩
      · rw [hat, hil.2.1]
        intro f j hj
        exact hof j _ ((S.cons.lists _).fdict f j hj)
    · refine ⟨?_, ?_, ?_⟩
      · rw [htab u hu]
        exact fun j hj => hof j u ((S.cons.lists u).ilist j hj)
      · rw [htab u hu]
        intro j k hk m hm
        obtain ⟨h1, h2⟩ := (S.cons.lists u).column j k hk m hm
        exact ⟨hof m u h1, by rw [hold m h1.1, h2]⟩
      · rw [htab u hu]
        exact fun f j hj => hof j u ((S.cons.lists u).fdict f j hj)
  · intro n j hj
    have hlive : c.LiveIndex j := by
      unfold LiveIndex
      rw [S.cons.indD n j hj]
      rfl
    rw [hold j hlive]
    exact S.cons.indD n j hj
  · intro j hj
    have hlt : ∀ u, c.LiveTable u → (c.placed a rt).LiveTable u := by
      intro u hu
      unfold LiveTable at hu ⊢
      rwa [hF.name]
    by_cases e : j = c.ipool.next
    · subst e
      refine ⟨a.tmatch, hlt _ ht, hnew.2, ?_⟩
      rw [hat, hil.1]
      simp
    · have hj' : c.LiveIndex j := by
        unfold LiveIndex at hj ⊢
        rwa [show (c.placed a rt).index j = c.index j from upd_ne _ _ e] at hj
      obtain ⟨u, h1, h2, h3⟩ := S.cons.reach j hj'
      refine ⟨u, hlt u h1, by rw [hold j hj', h2], ?_⟩
      by_cases hu : u = a.tmatch
      · subst hu
        rw [hat, hil.1]
        exact List.mem_append_left _ h3
      · rw [htab u hu]
        exact h3
  · intro n u hu
    rw [hF.name]
    exact S.tblD n u hu

/-- The marks on the columns leave the numbers there as they are. -/
theorem markIndxd_col {l : List Col} {ic : Icol} {j : Nat} {k : Col}
    (h : (markIndxd l ic)[j]? = some k) :
    ∃ k₀, l[j]? = some k₀ ∧ k₀.imatch = k.imatch ∧ k₀.ilist = k.ilist := by
  unfold markIndxd at h
  split at h
  · rename_i k₂ hk₂
    rcases col_set_at hk₂ h with ⟨rfl, rfl⟩ | ⟨_, h⟩
    · exact ⟨k₂, hk₂, rfl, rfl⟩
    · exact ⟨k, h, rfl, rfl⟩
  · exact ⟨k, h, rfl, rfl⟩

theorem foldl_markIndxd_col : ∀ {ics : List Icol} {l : List Col} {j : Nat} {k : Col},
    (ics.foldl markIndxd l)[j]? = some k →
      ∃ k₀, l[j]? = some k₀ ∧ k₀.imatch = k.imatch ∧ k₀.ilist = k.ilist
  | [], _, _, k, h => ⟨k, h, rfl, rfl⟩
  | ic :: ics, l, j, k, h => by
      obtain ⟨k₁, h₁, e₁, e₂⟩ := @foldl_markIndxd_col ics _ _ _ h
      obtain ⟨k₀, h₀, e₃, e₄⟩ := markIndxd_col h₁
      exact ⟨k₀, h₀, e₃.trans e₁, e₄.trans e₂⟩

theorem Sound.counted (S : c.Sound) (a : NewIndex) (i : Nat) :
    (c.setTbl a.tmatch (counted (c.tbl a.tmatch) a i)).Sound := by
  refine S.setTbl rfl (fun i hi => hi) ⟨?_, ?_, ?_⟩
  all_goals rw [show (c.setTbl a.tmatch _).tbl a.tmatch = _ from upd_same _ _ _]
  · exact (S.cons.lists _).ilist
  · intro j k hk m hm
    obtain ⟨k₀, h₀, e₁, e₂⟩ := foldl_markIndxd_col hk
    exact (S.cons.lists _).column j k₀ h₀ m (by rwa [e₁, e₂])
  · exact (S.cons.lists _).fdict

theorem Sound.addFname (S : c.Sound) (f : Sds) (h : c.Of i t) : (c.addFname t f i).Sound := by
  refine S.setTbl rfl (fun i hi => hi) ⟨?_, ?_, ?_⟩
  all_goals rw [show (c.setTbl t _).tbl t = _ from upd_same _ _ _]
  · exact (S.cons.lists _).ilist
  · exact (S.cons.lists _).column
  · intro g j hj
    rcases List.mem_append.1 hj with hj | hj
    · exact (S.cons.lists _).fdict g j hj
    · cases List.mem_singleton.1 hj
      exact h

theorem Sound.addName (S : c.Sound) {n : Sds} (h : (c.index i).name = some n) :
    { c with indD := c.indD ++ [(n, i)] }.Sound := by
  refine ⟨⟨S.slots.index, S.slots.table⟩, ⟨fun t => ?_, ?_, S.cons.reach⟩, S.tblD⟩
  · exact ⟨(S.cons.lists t).ilist, (S.cons.lists t).column, (S.cons.lists t).fdict⟩
  · intro m j hj
    rcases List.mem_append.1 hj with hj | hj
    · exact S.cons.indD m j hj
    · cases List.mem_singleton.1 hj
      exact h

theorem Sound.enterIndex (S : c.Sound) {a : NewIndex} {o : Answers}
    (hn : (c.index i).name = some a.iname) (hfree : dictFetchValue c.indD a.iname = none)
    (hb : a.builds = true → o.build = true) :
    ∃ c₁, c.enterIndex a o i = .ok (c₁, some i) ∧ c₁.Sound := by
  have hok : (a.builds && !o.build) = false := by
    cases h : a.builds with
    | false => rfl
    | true => simp [hb h]
  refine ⟨_, ?_, S.addName hn⟩
  unfold Cat.enterIndex
  rw [dictAdd_free hfree]
  show (if (a.builds && !o.build) = true then _ else _) = _
  rw [hok]
  rfl

theorem Sound.finishIndex (S : c.Sound) {a : NewIndex} {o : Answers}
    (hn : (c.index i).name = some a.iname) (hfree : dictFetchValue c.indD a.iname = none)
    (hl : a.luaFails o = false) (hb : a.builds = true → o.build = true) :
    ∃ c₁, c.finishIndex a o i = .ok (c₁, some i) ∧ c₁.Sound := by
  unfold Cat.finishIndex
  rw [hl]
  exact (S.counted a i).enterIndex hn hfree hb

/-- A new index whose conditions are met: the catalog stays sound, and the only fault there can be
is a column that is not there. -/
theorem Sound.newIndex (S : c.Sound) {a : NewIndex} {o : Answers} (ht : c.LiveTable a.tmatch)
    (T : a.deep = false → c.Takes a o) :
    c.newIndex a o ≠ .error .assertOk ∧ ∀ c' r, c.newIndex a o = .ok (c', r) → c'.Sound := by
  unfold Cat.newIndex
  cases hd : a.deep with
  | true =>
      refine ⟨by simp, fun c' r h => ?_⟩
      cases h
      exact S
  | false =>
      have T := T hd
      cases hl : listed (c.tbl a.tmatch) a.ic c.ipool.next with
      | error e =>
          refine ⟨?_, fun c' r h => by simp [bind, Except.bind] at h⟩
          have he : e = .segv := by
            unfold listed at hl
            split at hl
            · cases hl
            · split at hl
              · exact (Except.error.inj hl).symm
              · cases hl
          subst he
          simp [bind, Except.bind]
      | ok rt =>
          have S₁ := S.placed ht hl
          have hslot : (c.placed a rt).index c.ipool.next = a.slot := upd_same _ _ _
          have hname : ((c.placed a rt).index c.ipool.next).name = some a.iname := by
            rw [hslot]
            rfl
          have hof : (c.placed a rt).Of c.ipool.next a.tmatch := by
            unfold Of LiveIndex
            rw [hslot]
            exact ⟨rfl, rfl⟩
          have hfd : ((c.placed a rt).tbl a.tmatch).fdict = (c.tbl a.tmatch).fdict := by
            rw [show (c.placed a rt).tbl a.tmatch = rt from upd_same _ _ _]
            unfold listed at hl
            split at hl
            · exact (Except.ok.inj hl) ▸ rfl
            · split at hl
              · cases hl
              · exact (Except.ok.inj hl) ▸ rfl
          have hrun : ∃ c₁, (c.placed a rt).nameFunction a o c.ipool.next = .ok (c₁, some c.ipool.next) ∧
              c₁.Sound := by
            unfold nameFunction
            cases hf : a.fname with
            | none => exact S₁.finishIndex hname T.name T.lua T.build
            | some f =>
                have hno : (dictFetchValue ((c.placed a rt).tbl a.tmatch).fdict f).isSome ≠ true := by
                  rw [hfd, T.fname f hf]
                  simp
                simp only [hno]
                exact (S₁.addFname f hof).finishIndex hname T.name T.lua T.build
          obtain ⟨c₁, h₁, hS⟩ := hrun
          show (c.placed a rt).nameFunction a o c.ipool.next ≠ _ ∧ ∀ c' r, 
            (c.placed a rt).nameFunction a o c.ipool.next = _ → _
          rw [h₁]
          refine ⟨by simp, fun c' r h => ?_⟩
          cases h
          exact hS

/-! ## Tables -/

theorem freshTable_col {tname : Sds} {cols : List (Sds × CType)} {j : Nat} {k : Col}
    (h : (freshTable tname cols).col[j]? = some k) : k.imatch = none ∧ k.ilist = [] := by
  simp only [freshTable, List.getElem?_map, Option.map_eq_some_iff] at h
  obtain ⟨e, _, rfl⟩ := h
  exact ⟨rfl, rfl⟩

/-- No index of a sound catalog is on a table that is not there. -/
theorem Sound.not_of (S : c.Sound) (ht : ¬ c.LiveTable t) (i : Nat) : ¬ c.Of i t := by
  rintro ⟨h1, h2⟩
  obtain ⟨u, h3, h4, _⟩ := S.cons.reach i h1
  rw [h2] at h4
  cases h4
  exact ht h3

theorem Sound.withTable (S : c.Sound) (tname : Sds) (cols : List (Sds × CType)) :
    (c.withTable (c.tblD ++ [(tname, c.tpool.next)]) (freshTable tname cols)).Sound := by
  have hfree : ¬ c.LiveTable c.tpool.next := S.slots.table.next_free
  have hat : (c.withTable (c.tblD ++ [(tname, c.tpool.next)]) (freshTable tname cols)).tbl
      c.tpool.next = freshTable tname cols := upd_same _ _ _
  have hne : ∀ u, u ≠ c.tpool.next → (c.withTable (c.tblD ++ [(tname, c.tpool.next)])
      (freshTable tname cols)).tbl u = c.tbl u := fun u hu => upd_ne _ _ hu
  have hlive : ∀ u, c.LiveTable u → u ≠ c.tpool.next := by
    rintro u hu rfl
    exact hfree hu
  refine ⟨⟨S.slots.index, S.slots.table.take.congr (fun u => ?_)⟩, ⟨fun u => ?_, S.cons.indD, ?_⟩, ?_⟩
  · unfold LiveTable
    by_cases hu : u = c.tpool.next
    · subst hu
      rw [hat]
      simp [freshTable]
    · rw [hne u hu]
      simp [hu]
  · by_cases hu : u = c.tpool.next
    · subst hu
      refine ⟨?_, ?_, ?_⟩
      · rw [hat]
        intro j hj
        cases hj
      · rw [hat]
        intro j k hk m hm
        obtain ⟨h1, h2⟩ := freshTable_col hk
        rw [h1, h2] at hm
        simp at hm
      · rw [hat]
        intro f j hj
        cases hj
    · refine ⟨?_, ?_, ?_⟩
      · rw [hne u hu]
        exact (S.cons.lists u).ilist
      · rw [hne u hu]
        exact (S.cons.lists u).column
      · rw [hne u hu]
        exact (S.cons.lists u).fdict
  · intro j hj
    obtain ⟨u, h1, h2, h3⟩ := S.cons.reach j hj
    refine ⟨u, ?_, h2, ?_⟩
    · unfold LiveTable
      rw [hne u (hlive u h1)]
      exact h1
    · rw [hne u (hlive u h1)]
      exact h3
  · intro n u hu
    rcases List.mem_append.1 hu with hu | hu
    · have hn := S.tblD n u hu
      have hl : c.LiveTable u := by
        unfold LiveTable
        rw [hn]
        rfl
      rw [hne u (hlive u hl)]
      exact hn
    · cases List.mem_singleton.1 hu
      rw [hat]
      rfl

/-- The table `t` is being dropped: its lists no longer matter, and the indexes on it that are
still there are those in `rest`. -/
structure Dropping (c : Cat) (t : Nat) (rest : List Nat) : Prop where
  slots : c.SlotsKept
  lists : ∀ u, u ≠ t → c.ListsOk u
  indD : ∀ n i, (n, i) ∈ c.indD → (c.index i).name = some n
  reach : ∀ i, c.LiveIndex i → ∃ u, c.LiveTable u ∧ (c.index i).tmatch = some u ∧
    (u ≠ t → i ∈ (c.tbl u).ilist) ∧ (u = t → i ∈ rest)
  live : c.LiveTable t
  tblD : ∀ n u, (n, u) ∈ c.tblD → u ≠ t ∧ (c.tbl u).name = some n

theorem unlisted_error {rt : Tbl} {ic : Option Icol} {e : Fault} (h : unlisted rt ic i = .error e) :
    e = .segv := by
  unfold unlisted at h
  split at h
  · cases h
  · split at h
    · exact (Except.error.inj h).symm
    · split at h
      · cases h
      · exact (Except.error.inj h).symm

theorem emptyIndex_error {e : Fault} (h : c.emptyIndex i = .error e) : e = .segv := by
  unfold emptyIndex at h
  split at h
  · rename_i n t hn ht
    cases hu : unlisted (c.tbl t) (c.index i).icol i with
    | error e' =>
        rw [hu] at h
        cases h
        exact unlisted_error hu
    | ok rt =>
        rw [hu] at h
        cases h
  · exact (Except.error.inj h).symm
  · cases h

/-- One index of the dropped table goes. -/
theorem Dropping.emptyIndex {rest : List Nat} (D : c.Dropping t (i :: rest))
    (hi : c.LiveIndex i → (c.index i).tmatch = some t) (h : c.emptyIndex i = .ok c') :
    c'.Dropping t rest := by
  have k' := D.slots.emptyIndex h
  by_cases hlive : c.LiveIndex i
  swap
  · rcases emptyIndex_cases h with ⟨_, rfl⟩ | ⟨hl, _⟩
    · refine ⟨D.slots, D.lists, D.indD, ?_, D.live, D.tblD⟩
      intro j hj
      obtain ⟨u, h1, h2, h3, h4⟩ := D.reach j hj
      refine ⟨u, h1, h2, h3, fun hu => ?_⟩
      rcases List.mem_cons.1 (h4 hu) with rfl | hr
      · exact absurd hj hlive
      · exact hr
    · exact absurd hl hlive
  unfold Cat.emptyIndex at h
  have ht := hi hlive
  obtain ⟨n, hn⟩ := Option.isSome_iff_exists.1 hlive
  rw [hn, ht] at h
  obtain ⟨rt, hrt, h⟩ := bind_ok h
  cases h
  have hname : (uncounted rt (c.index i)).name = (c.tbl t).name :=
    (unlisted_name hrt : rt.name = _)
  have hidx : ∀ j, j ≠ i → (c.freed i n t (uncounted rt (c.index i))).index j = c.index j :=
    fun j hj => upd_ne _ _ hj
  have htbl : ∀ u, u ≠ t → (c.freed i n t (uncounted rt (c.index i))).tbl u = c.tbl u :=
    fun u hu => upd_ne _ _ hu
  have hnames : ∀ u, ((c.freed i n t (uncounted rt (c.index i))).tbl u).name = (c.tbl u).name :=
    upd_name hname
  have hof : ∀ j u, u ≠ t → c.Of j u → j ≠ i ∧ (c.freed i n t (uncounted rt (c.index i))).Of j u := by
    rintro j u hu ⟨h1, h2⟩
    have hj : j ≠ i := by
      rintro rfl
      rw [ht] at h2
      exact hu (Option.some.inj h2).symm
    refine ⟨hj, ?_⟩
    unfold Of LiveIndex
    rw [hidx j hj]
    exact ⟨h1, h2⟩
  refine ⟨k', fun u hu => ⟨?_, ?_, ?_⟩, ?_, ?_, ?_, ?_⟩
  · rw [htbl u hu]
    exact fun j hj => (hof j u hu ((D.lists u hu).ilist j hj)).2
  · rw [htbl u hu]
    intro j k hk m hm
    obtain ⟨h1, h2⟩ := (D.lists u hu).column j k hk m hm
    obtain ⟨h3, h4⟩ := hof m u hu h1
    exact ⟨h4, by rw [hidx m h3, h2]⟩
  · rw [htbl u hu]
    exact fun f j hj => (hof j u hu ((D.lists u hu).fdict f j hj)).2
  · intro m j hj
    obtain ⟨h1, h2⟩ := mem_dictDelete.1 hj
    have h3 := D.indD m j h1
    have hji : j ≠ i := by
      rintro rfl
      rw [hn] at h3
      cases h3
      exact h2 rfl
    rw [hidx j hji]
    exact h3
  · intro j hj
    have hji : j ≠ i := by
      rintro rfl
      unfold LiveIndex at hj
      rw [show (c.freed j n t _).index j = Ind.none from upd_same _ _ _] at hj
      cases hj
    unfold LiveIndex at hj
    rw [hidx j hji] at hj
    obtain ⟨u, h1, h2, h3, h4⟩ := D.reach j hj
    refine ⟨u, ?_, by rw [hidx j hji, h2], ?_, ?_⟩
    · unfold LiveTable at h1 ⊢
      rwa [hnames]
    · intro hu
      rw [htbl u hu]
      exact h3 hu
    · intro hu
      exact (List.mem_cons.1 (h4 hu)).resolve_left hji
  · unfold LiveTable
    rw [hnames]
    exact D.live
  · intro m u hu
    obtain ⟨h1, h2⟩ := D.tblD m u hu
    exact ⟨h1, (hnames u).trans h2⟩

theorem emptyIndex_tmatch (h : c.emptyIndex i = .ok c') {j : Nat} (hj : c'.LiveIndex j) :
    (c'.index j).tmatch = (c.index j).tmatch := by
  rcases emptyIndex_cases h with ⟨_, rfl⟩ | ⟨_, e⟩
  · rfl
  · have hji : j ≠ i := by
      rintro rfl
      unfold LiveIndex at hj
      rw [e.index] at hj
      simp [Ind.none] at hj
    rw [e.index, upd_ne _ _ hji]

theorem emptyIndex_live (h : c.emptyIndex i = .ok c') {j : Nat} (hj : c'.LiveIndex j) :
    c.LiveIndex j := by
  rcases emptyIndex_cases h with ⟨_, rfl⟩ | ⟨_, e⟩
  · exact hj
  · unfold LiveIndex at hj ⊢
    by_cases hji : j = i
    · subst hji
      rw [e.index] at hj
      simp [Ind.none] at hj
    · rwa [e.index, upd_ne _ _ hji] at hj

/-- All indexes of the dropped table go. -/
theorem Dropping.emptyIndexes : ∀ {rest : List Nat} {c : Cat}, c.Dropping t rest →
    (∀ i ∈ rest, c.LiveIndex i → (c.index i).tmatch = some t) →
    c.emptyIndexes rest ≠ .error .assertOk ∧
      ∀ c', c.emptyIndexes rest = .ok c' → c'.Dropping t []
  | [], c, D, _ => ⟨by simp [Cat.emptyIndexes], fun c' h => by cases h; exact D⟩
  | i :: rest, c, D, hi => by
      unfold Cat.emptyIndexes
      cases he : c.emptyIndex i with
      | error e =>
          cases emptyIndex_error he
          exact ⟨by simp [bind, Except.bind], fun c' h => by simp [bind, Except.bind] at h⟩
      | ok c₁ =>
          have D₁ := D.emptyIndex (hi i (by simp)) he
          refine D₁.emptyIndexes (fun j hj hl => ?_)
          rw [emptyIndex_tmatch he hl]
          exact hi j (by simp [hj]) (emptyIndex_live he hl)

theorem mem_matchIndex : i ∈ c.matchIndex t ↔ i ∈ (c.tbl t).ilist ∧ (c.index i).done = true := by
  have h : ∀ (l acc : List Nat), i ∈ l.foldl (fun indl j =>
      if (c.index j).done then (if (c.index j).uniq then j :: indl else indl ++ [j]) else indl) acc ↔
        i ∈ acc ∨ (i ∈ l ∧ (c.index i).done = true) := by
    intro l
    induction l with
    | nil => simp
    | cons j l ih =>
        intro acc
        rw [List.foldl_cons, ih]
        by_cases hd : (c.index j).done
        · by_cases hu : (c.index j).uniq
          · simp only [hd, hu, if_true, List.mem_cons]
            constructor
            · rintro ((rfl | h) | ⟨h1, h2⟩)
              · exact .inr ⟨.inl rfl, hd⟩
              · exact .inl h
              · exact .inr ⟨.inr h1, h2⟩
            · rintro (h | ⟨rfl | h1, h2⟩)
              · exact .inl (.inr h)
              · exact .inl (.inl rfl)
              · exact .inr ⟨h1, h2⟩
          · simp only [hd, hu, if_true, List.mem_append, List.mem_cons, List.not_mem_nil, or_false,
              Bool.false_eq_true, if_false]
            constructor
            · rintro ((h | rfl) | ⟨h1, h2⟩)
              · exact .inl h
              · exact .inr ⟨.inl rfl, hd⟩
              · exact .inr ⟨.inr h1, h2⟩
            · rintro (h | ⟨rfl | h1, h2⟩)
              · exact .inl (.inl h)
              · exact .inl (.inr rfl)
              · exact .inr ⟨h1, h2⟩
        · simp only [hd, Bool.false_eq_true, if_false, List.mem_cons]
          constructor
          · rintro (h | ⟨h1, h2⟩)
            · exact .inl h
            · exact .inr ⟨.inr h1, h2⟩
          · rintro (h | ⟨rfl | h1, h2⟩)
            · exact .inl h
            · exact absurd h2 hd
            · exact .inr ⟨h1, h2⟩
  unfold matchIndex
  rw [h]
  simp

/-- A table all of whose indexes are complete is dropped. -/
theorem Sound.emptyTable (S : c.Sound) (hdone : ∀ i ∈ (c.tbl t).ilist, (c.index i).done = true) :
    c.emptyTable t ≠ .error .assertOk ∧ ∀ c', c.emptyTable t = .ok c' → c'.Sound := by
  unfold Cat.emptyTable
  cases hn : (c.tbl t).name with
  | none =>
      refine ⟨by simp, fun c' h => ?_⟩
      cases h
      exact S
  | some n =>
      have D : { c with tblD := dictDelete c.tblD n }.Dropping t (c.matchIndex t) := by
        refine ⟨⟨S.slots.index, S.slots.table⟩, fun u _ => ?_, S.cons.indD, ?_, ?_, ?_⟩
        · exact ⟨(S.cons.lists u).ilist, (S.cons.lists u).column, (S.cons.lists u).fdict⟩
        · intro i hi
          obtain ⟨u, h1, h2, h3⟩ := S.cons.reach i hi
          refine ⟨u, h1, h2, fun _ => h3, ?_⟩
          rintro rfl
          exact mem_matchIndex.2 ⟨h3, hdone i h3⟩
        · show (c.tbl t).name.isSome = true
          rw [hn]
          rfl
        · intro m u hu
          obtain ⟨h1, h2⟩ := mem_dictDelete.1 hu
          have h3 := S.tblD m u h1
          refine ⟨?_, h3⟩
          rintro rfl
          rw [hn] at h3
          cases h3
          exact h2 rfl
      obtain ⟨hno, hyes⟩ := D.emptyIndexes (fun i hi _ =>
        ((S.cons.lists t).ilist i (mem_matchIndex.1 hi).1).2)
      cases he : { c with tblD := dictDelete c.tblD n }.emptyIndexes (c.matchIndex t) with
      | error e =>
          refine ⟨?_, fun c' h => by simp [he, bind, Except.bind] at h⟩
          rw [he] at hno
          simpa [he, bind, Except.bind] using hno
      | ok c₁ =>
          have D₁ := hyes c₁ he
          refine ⟨by simp [he, bind, Except.bind], fun c' h => ?_⟩
          simp only [he, bind, Except.bind] at h
          cases h
          have hat : upd c₁.tbl t initTable t = initTable := upd_same _ _ _
          have hne : ∀ u, u ≠ t → upd c₁.tbl t initTable u = c₁.tbl u := fun u hu => upd_ne _ _ hu
          refine ⟨⟨D₁.slots.index, (D₁.slots.table.give D₁.live).congr (fun u => ?_)⟩,
            ⟨fun u => ?_, D₁.indD, ?_⟩, ?_⟩
          · unfold LiveTable
            by_cases hu : u = t
            · subst hu
              simp [initTable]
            · simp [hu]
          · by_cases hu : u = t
            · subst hu
              refine ⟨?_, ?_, ?_⟩ <;> simp [initTable]
            · have L := D₁.lists u hu
              refine ⟨?_, ?_, ?_⟩
              · simp only [hne u hu]
                exact L.ilist
              · simp only [hne u hu]
                exact L.column
              · simp only [hne u hu]
                exact L.fdict
          · intro i hi
            obtain ⟨u, h1, h2, h3, h4⟩ := D₁.reach i hi
            have hu : u ≠ t := fun e => absurd (h4 e) (by simp)
            refine ⟨u, ?_, h2, ?_⟩
            · unfold LiveTable
              simp only [hne u hu]
              exact h1
            · simp only [hne u hu]
              exact h3 hu
          · intro m u hu
            obtain ⟨h1, h2⟩ := D₁.tblD m u hu
            simp only [hne u h1]
            exact h2

/-! ## Commands -/

/-- The outcome of a command: not the failed assertion, and a sound catalog if there is one. -/
def Safe (x : Except Fault Cat) : Prop := x ≠ .error .assertOk ∧ ∀ c', x = .ok c' → c'.Sound

theorem safe_ok (S : c.Sound) : Safe (.ok c) :=
  ⟨by simp, fun c' h => by cases h; exact S⟩

theorem safe_bind {A : Type} {x : Except Fault A} {f : A → Except Fault Cat}
    (hx : x ≠ .error .assertOk) (hf : ∀ a, x = .ok a → Safe (f a)) : Safe (x >>= f) := by
  cases x with
  | error e => exact ⟨fun h => hx (by cases h; rfl), fun c' h => by cases h⟩
  | ok a => exact hf a rfl

/-- A new index, and what is done with the catalog afterwards. -/
theorem Sound.newIndex_then (S : c.Sound) {a : NewIndex} {o : Answers} (ht : c.LiveTable a.tmatch)
    (T : a.deep = false → c.Takes a o) {f : Cat × Option Nat → Except Fault Cat}
    (hf : ∀ r : Cat × Option Nat, r.1.Sound → Safe (f r)) : Safe (c.newIndex a o >>= f) := by
  obtain ⟨hno, hyes⟩ := S.newIndex ht T
  exact safe_bind hno (fun r hr => hf r (hyes r.1 r.2 hr))

theorem Sound.createTable (S : c.Sound) {tname : Sds} {cols : List (Sds × CType)} {o : Answers}
    (hfree : ∀ pk ty rest, cols = (pk, ty) :: rest → c.findTable tname = none →
      c.matchPartialIndexName (pkIndexName tname pk) = none) : Safe (c.createTable tname cols o) := by
  unfold Cat.createTable
  cases hf : c.findTable tname with
  | some t => exact safe_ok S
  | none =>
      show Safe (c.newTable tname cols o)
      unfold newTable
      split
      · rename_i pk ty k₂ rest
        split
        · rw [dictAdd_free hf]
          have hname := hfree pk ty _ rfl hf
          refine (S.withTable tname ((pk, ty) :: k₂ :: rest)).newIndex_then ?_ (fun _ => ?_)
            (fun r hr => safe_ok hr)
          · show (upd c.tbl c.tpool.next _ c.tpool.next).name.isSome = true
            rw [upd_same]
            rfl
          · refine ⟨hname, ?_, rfl, ?_⟩
            · intro f h
              cases h
            · intro h
              cases h
        · exact safe_ok S
      · exact safe_ok S

theorem Sound.cursorStep (S : c.Sound) (t : Nat) (ic : Option Icol) (k : Cursor) :
    (c.cursorStep t ic k).Sound := by
  unfold Cat.cursorStep
  split
  · exact S
  · split
    · exact S.setIndex rfl rfl rfl
    · exact S

theorem plan_table {a : CreateIndex} {t : Nat} {ic : Option Icol} {n : NewIndex}
    (h : c.plan a = some ⟨t, ic, some n⟩) : c.findTable a.tname = some n.tmatch := by
  unfold plan at h
  split at h
  · cases h
  · rename_i u hu
    split at h
    · cases h
    · split at h
      · cases h
      · rename_i jc clist new hon
        obtain ⟨obc, _, hp⟩ := Option.map_eq_some_iff.1 h
        split at hp
        · cases hp
          exact hu
        · cases hp

theorem Sound.iCommit (S : c.Sound) {a : CreateIndex} {o : Answers} {k : Cursor}
    (T : ∀ t ic n, c.plan a = some ⟨t, ic, some n⟩ → n.deep = false → c.Takes n o) :
    Safe (c.iCommit a o k) := by
  unfold Cat.iCommit
  split
  · exact safe_ok S
  · split
    · exact safe_ok (S.cursorStep _ _ _)
    · exact safe_ok S
  · rename_i t ic n hp
    refine S.newIndex_then (S.live_table (plan_table hp)) (T t ic n hp) (fun r hr => ?_)
    split
    · exact safe_ok (hr.cursorStep _ _ _)
    · exact safe_ok hr

theorem Sound.createIndex (S : c.Sound) {a : CreateIndex} {o : Answers} {k : Cursor}
    (T : ∀ t ic n, c.plan a = some ⟨t, ic, some n⟩ → n.deep = false → c.Takes n o) :
    Safe (c.createIndex a o k) := by
  unfold Cat.createIndex
  split
  · exact safe_ok S
  · split
    · split
      · exact safe_ok S
      · exact S.iCommit T
    · exact S.iCommit T

theorem Sound.createLuaTrigger (S : c.Sound) {trname tname : Sds} {typ : Option Trig} {parsed : Bool}
    {o : Answers} (hfree : c.matchIndexName trname = none → c.matchPartialIndexName trname = none) :
    Safe (c.createLuaTrigger trname tname typ parsed o) := by
  unfold Cat.createLuaTrigger
  split
  · exact safe_ok S
  · rename_i t ht
    split
    · exact safe_ok S
    · rename_i ty hm
      split
      · refine S.newIndex_then (S.live_table ht) (fun _ => ⟨hfree hm, ?_, rfl, ?_⟩)
          (fun r hr => safe_ok hr)
        · intro f h
          cases h
        · intro h
          cases h
      · exact safe_ok S
    · split
      · exact ⟨by simp, fun c' h => by cases h⟩
      · exact safe_ok S
      · split
        · exact safe_ok S
        · split
          · exact safe_ok S
          · exact safe_ok (S.setIndex rfl rfl rfl)

/-! ## Runs -/

/-- The conditions on a new index, as a test. -/
def takes (c : Cat) (a : NewIndex) (o : Answers) : Bool :=
  (c.matchPartialIndexName a.iname).isNone &&
    (match a.fname with
      | some f => (dictFetchValue (c.tbl a.tmatch).fdict f).isNone
      | none => true) &&
    !a.luaFails o && (!a.builds || o.build)

/-- When a command leaves the catalog consistent: an index that is made has a name that no index
has, finished or not, and is made to the end; no index is removed on its own; and a table is
dropped only when the cursors on it have finished. -/
def fits (c : Cat) : Cmd → Bool
  | .createTable _ [] _ => true
  | .createTable tname (k :: _) _ =>
      (c.findTable tname).isSome || (c.matchPartialIndexName (pkIndexName tname k.1)).isNone
  | .createIndex a o _ =>
      match c.plan a with
      | some ⟨_, _, some n⟩ => n.deep || c.takes n o
      | _ => true
  | .createLuaTrigger trname _ _ _ _ =>
      (c.matchIndexName trname).isSome || (c.matchPartialIndexName trname).isNone
  | .dropIndex iname =>
      match c.matchPartialIndexName iname with
      | some i => c.protectedIndex i
      | none => true
  | .dropLuaTrigger iname =>
      match c.matchIndexName iname with
      | some i => (c.index i).luat.isNone
      | none => true
  | .dropTable tname =>
      match c.findTable tname with
      | some t => (c.tbl t).ilist.all (fun i => (c.index i).done)
      | none => true

/-- All commands of a run fit the states they meet. -/
def allFit (c : Cat) : List Cmd → Bool
  | [] => true
  | cmd :: cmds => c.fits cmd &&
      match c.step cmd with
      | .ok c' => c'.allFit cmds
      | .error _ => true

theorem takes_spec {a : NewIndex} {o : Answers} (h : c.takes a o = true) : c.Takes a o := by
  simp only [takes, Bool.and_eq_true, Option.isNone_iff_eq_none, Bool.not_eq_true',
    Bool.or_eq_true] at h
  obtain ⟨⟨⟨h1, h2⟩, h3⟩, h4⟩ := h
  refine ⟨h1, fun f hf => ?_, h3, fun hb => ?_⟩
  · rw [hf] at h2
    simpa using h2
  · exact h4.resolve_left (by simp [hb])

theorem Sound.step (S : c.Sound) {cmd : Cmd} (h : c.fits cmd = true) : Safe (c.step cmd) := by
  cases cmd with
  | createTable tname cols o =>
      refine S.createTable (fun pk ty rest hc hf => ?_)
      subst hc
      simpa [fits, hf] using h
  | createIndex a o k =>
      refine S.createIndex (fun t ic n hp hd => ?_)
      simp only [fits, hp, hd, Bool.false_or] at h
      exact takes_spec h
  | createLuaTrigger trname tname typ parsed o =>
      refine S.createLuaTrigger (fun hm => ?_)
      simpa [fits, hm] using h
  | dropIndex iname =>
      show Safe (c.dropIndex iname)
      unfold Cat.dropIndex
      split
      · exact safe_ok S
      · rename_i i hi
        simp only [fits, hi] at h
        rw [if_pos h]
        exact safe_ok S
  | dropLuaTrigger iname =>
      show Safe (c.dropLuaTrigger iname)
      unfold Cat.dropLuaTrigger
      split
      · exact safe_ok S
      · rename_i i hi
        simp only [fits, hi] at h
        rw [if_pos h]
        exact safe_ok S
  | dropTable tname =>
      show Safe (c.dropTable tname)
      unfold Cat.dropTable
      split
      · exact safe_ok S
      · rename_i t ht
        simp only [fits, ht, List.all_eq_true] at h
        exact S.emptyTable h

theorem allFit_cons {cmd : Cmd} {cmds : List Cmd} (h : c.allFit (cmd :: cmds) = true) :
    c.fits cmd = true ∧ ∀ c', c.step cmd = .ok c' → c'.allFit cmds = true := by
  simp only [allFit, Bool.and_eq_true] at h
  refine ⟨h.1, fun c' hc => ?_⟩
  have h2 := h.2
  rwa [hc] at h2

theorem Sound.run : ∀ {cmds : List Cmd} {c : Cat}, c.Sound → c.allFit cmds = true → Safe (c.run cmds)
  | [], _, S, _ => safe_ok S
  | _ :: _, _, S, h => by
      obtain ⟨h1, h2⟩ := allFit_cons h
      exact safe_bind (S.step h1).1 (fun c₁ hc => ((S.step h1).2 c₁ hc).run (h2 c₁ hc))

/-- In every run of commands that fit, the assertion on `IndD` does not fire, and every state
reached is consistent. -/
theorem catalog_run (ntbl nindx : Nat) (cmds : List Cmd)
    (h : (init ntbl nindx).allFit cmds = true) :
    (init ntbl nindx).run cmds ≠ .error .assertOk ∧
      ∀ c, (init ntbl nindx).run cmds = .ok c → c.Consistent := by
  obtain ⟨hno, hyes⟩ := (init_sound ntbl nindx).run h
  exact ⟨hno, fun c hc => (hyes c hc).cons⟩

/-- A table with a plain index, an index on two columns, a cursor that finishes, a function index
and a trigger; another table takes the slots after the first is dropped. -/
def catalogSample : List Cmd :=
  let all : Answers := ⟨true, true, true⟩
  let t : Sds := ['t']
  let on (n : Char) (g : Target) (prtl : Bool) : CreateIndex := ⟨[n], t, false, g, none, prtl⟩
  [.createTable t [(['i'], .int), (['a'], .int), (['b'], .text)] all,
    .createIndex (on 'x' (.col (['a'], []) false) false) all .more,
    .createIndex (on 'y' (.cols (['b'], []) (['a'], []) []) true) all .finished,
    .createIndex (on 'f' (.func ['g'] ['h']) false) all .more,
    .createLuaTrigger ['l'] t (some .insert) true all,
    .dropIndex ['n'], .dropTable t,
    .createTable ['u'] [(['k'], .long), (['v'], .long)] all]

theorem catalog_run_sample : ∃ c, (init 1 1).run catalogSample = .ok c ∧ c.ipool.num = 4 ∧
    c.Consistent :=
  ⟨_, rfl, by decide, (catalog_run 1 1 catalogSample (by decide)).2 _ rfl⟩

/-- A dropped index stays on the list of its column, where it denotes a free slot; and two tables
whose names run together with those of their keys make the assertion on `IndD` fire. -/
theorem catalog_stale :
    (∃ c, (init 1 1).run
        [.createTable ['t'] [(['i'], .int), (['a'], .int)] ⟨true, true, true⟩,
          .createIndex ⟨['x'], ['t'], false, .col (['a'], []) false, none, false⟩
            ⟨true, true, true⟩ .more,
          .dropIndex ['x']] = .ok c ∧ ¬ c.Consistent) ∧
      (init 1 1).run
        [.createTable ['a', '_', 'b'] [(['c'], .int), (['d'], .int)] ⟨true, true, true⟩,
          .createTable ['a'] [(['b', '_', 'c'], .int), (['d'], .int)] ⟨true, true, true⟩] =
        .error .assertOk := by
  refine ⟨⟨_, rfl, fun h => ?_⟩, rfl⟩
  have hc := ((h.lists 0).column 1 _ rfl 1 (.inr (by decide))).1.1
  exact absurd hc (by decide)

end Cat

end AlchemyDB.Catalog
