/-
# One index in step with the rows — through every command

What a command asks of the index at one place of the list, so that the index is
in step with the rows afterwards.  The other indexes of the table matter only in
whether they accept the row.
-/
import AlchemyDB.Table.Rows
import AlchemyDB.Table.Track

namespace AlchemyDB.Table

open Assoc Index

/-! ## What the commands ask for -/

section Conditions

variable (t : Tab) (u : Sets) (i : Nat) (x : Ind)

/-- A row that some index rejects leaves no trace in this one. -/
def Restored (r : Row) : Prop :=
  (∀ y ∈ t.inds.take i, accepts r y = true) → if accepts r x then x.Undone r else x.Spared r

/-- The index may stay as it is when the new row is written over the old one. -/
def Same (old new : Row) : Prop :=
  x.kind.image new = x.kind.image old ∧ ¬ x.kind.Hidden t.ty new

/-- The index takes the new row, and then gives back the old one. -/
def Swaps (old new : Row) : Prop :=
  Takes t.ty t.live x new ∧ Gives t.ty (new :: t.live) x.kind old

def InsertSafe (new : Row) : Prop :=
  if t.inds.all (accepts new) then Keeps t.store.kind new ∧ Takes t.ty t.live x new
  else Restored t i x new

def ReplaceSafe (old new : Row) : Prop :=
  if t.inds.all (accepts new) then Keeps t.store.kind new ∧ Swaps t x old new
  else Restored t i x new

/-- An UPDATE of the primary key goes on when an index rejects the new row. -/
def MoveSafe (old new : Row) : Prop :=
  if t.inds.all (accepts new) then Swaps t x old new
  else x.kind.image new = none ∧ ¬ x.kind.Hidden t.ty new ∧ Restored t i x new ∧
    Gives t.ty t.live x.kind old

/-- The index is redone where one of its columns is hit.  When an index rejects the new row, the row
is written all the same. -/
def RedoSafe (old new : Row) : Prop :=
  if effected u x.kind = false then Same t x old new
  else if t.inds.all (fun y => !effected u y.kind || accepts new y) then Swaps t x old new
  else if (t.inds.take i).all (fun y => !effected u y.kind || accepts new y) = false then
    Same t x old new
  else if accepts new x = false then Same t x old new ∧ x.Spared new
  else x.kind.image new = none ∧ Swaps t x old new ∧
    Gives t.ty (new :: t.live.erase old) x.kind new

/-- A row that is updated on its own. -/
def UpdateRowSafe (old : Row) : Prop :=
  match planRow t u old with
  | .failed => True
  | .overwrite c => Same t x old ⟨old.pk, c⟩
  | .newRow new =>
      Keeps t.store.kind new ∧
        if u.pk.isSome then (t.store.find new.pk = none ∨ new.pk = old.pk) ∧ MoveSafe t i x old new
        else RedoSafe t u i x old new
  | .misread => True

/-- The command names the row by the key it is stored under. -/
def Names (pk : Aobj) : Prop := Store.key t.store.kind pk = some pk

def UpdateSafe (pk : Aobj) : Prop :=
  u.pk.any (fun e => (t.store.find e.checked).isSome) = true ∨
    ∀ cols, t.store.find pk = some cols → Names t pk ∧ UpdateRowSafe t u i x ⟨pk, cols⟩

def DeleteSafe (pk : Aobj) : Prop :=
  ∀ cols, t.store.find pk = some cols → Names t pk ∧ Gives t.ty t.live x.kind ⟨pk, cols⟩

def InsertCommitSafe (mode : Mode) (r : Row) : Prop :=
  match mode, t.store.find r.pk with
  | .insert, some _ => True
  | .upd u, some _ => UpdateSafe t u i x r.pk
  | .repl, some cols => ReplaceSafe t i x ⟨r.pk, cols⟩ (t.asRow r)
  | .repl, none => t.inds.all (accepts (t.asRow r)) = false ∧ Restored t i x (t.asRow r)
  | .insert, none | .upd _, none => InsertSafe t i x (t.asRow r)

end Conditions

/-- The table holds proper rows, and the index `i`, of kind `k`, is in step with them. -/
structure Steady (t : Tab) (i : Nat) (k : Kind) : Prop where
  rowed : Rowed t
  shown : ∀ r ∈ t.live, ¬ k.Hidden t.ty r
  index : ∃ x, t.inds[i]? = some x ∧ x.kind = k ∧ Synced t.ty t.live x

variable {t t' : Tab} {u : Sets} {i : Nat} {k : Kind} {x y : Ind} {r old new : Row} {b : Bool}
  {pk : Aobj} {cols : Cols} {L rest : List Row}

/-! ## Rows -/

theorem RowOk.congr (hty : t'.ty = t.ty) (hn : t'.ncols = t.ncols)
    (hk : t'.store.kind = t.store.kind) (h : RowOk t r) : RowOk t' r := by
  refine ⟨⟨by rw [hty]; exact h.typed, by rw [hn]; exact h.full⟩, ?_, by rw [hk]; exact h.keeps⟩
  have : t'.asRow r = t.asRow r := by simp only [Tab.asRow, Tab.asStored, hty, hk]
  rw [this, h.written]

/-- A table with other rows. -/
theorem Steady.next (hr : Rowed t) (hty : t'.ty = t.ty) (hn : t'.ncols = t.ncols)
    (hk : t'.store.kind = t.store.kind) (hp : t'.live.Perm L) (hrow : ∀ r ∈ L, RowOk t r)
    (hnd : (L.map Row.pk).Nodup) (hkey : ∀ r ∈ L, ¬ k.Hidden t.ty r) (hi : t'.inds[i]? = some y)
    (hkind : y.kind = k) (hs : Synced t.ty L y) : Steady t' i k := by
  refine ⟨⟨?_, ?_, ?_⟩, fun r hr' => by rw [hty]; exact hkey r (hp.subset hr'), y, hi, hkind, ?_⟩
  · rw [hk, hn]
    exact hr.packed
  · exact fun r hr' => (hrow r (hp.subset hr')).congr hty hn hk
  · exact ((hp.map Row.pk).nodup_iff).2 hnd
  · rw [hty]
    exact hs.perm hp.symm

/-- A new row under a primary key that is not there. -/
theorem Rowed.cons (hr : Rowed t) (hnew : RowOk t new) (hf : t.store.find new.pk = none) :
    (∀ r ∈ new :: t.live, RowOk t r) ∧ ((new :: t.live).map Row.pk).Nodup := by
  refine ⟨?_, ?_⟩
  · intro r hr'
    rcases List.mem_cons.1 hr' with rfl | hr'
    · exact hnew
    · exact hr.row r hr'
  · rw [List.map_cons, List.nodup_cons]
    refine ⟨?_, hr.nodup⟩
    intro hmem
    obtain ⟨p, hp, hpk⟩ := List.mem_map.1 hmem
    have hkeep := (hr.row p hp).keeps
    obtain ⟨e, he, rfl⟩ := List.mem_map.1 hp
    -- the row is stored, and nothing hides it
    have hget : ∃ c, get? t.store.ents new.pk = some c := by
      cases hg : get? t.store.ents new.pk with
      | none => exact absurd hpk (get?_eq_none.1 hg e he)
      | some c => exact ⟨c, rfl⟩
    obtain ⟨c, hc⟩ := hget
    have hkc := (hr.row ⟨new.pk, c⟩ (List.mem_map.2 ⟨_, mem_of_get? hc, rfl⟩)).keeps
    unfold Store.find at hf
    rw [hnew.keeps.1] at hf
    simp only [hc, Option.filter_some] at hf
    have hnot : decide (¬ (t.store.kind = .uu ∧ c = [some (.int 0)])) = true :=
      decide_eq_true hkc.2.2
    rw [hnot] at hf
    cases hf

/-- An old row that is exchanged for a new one. -/
theorem Rowed.swap (hr : Rowed t) (hnew : RowOk t new) (hp : t.live.Perm (old :: rest))
    (hf : t.store.find new.pk = none ∨ new.pk = old.pk) :
    (∀ r ∈ new :: rest, RowOk t r) ∧ ((new :: rest).map Row.pk).Nodup := by
  have hrest : ∀ r ∈ rest, r ∈ t.live := fun r hr' => hp.symm.subset (List.mem_cons_of_mem _ hr')
  have hnd := ((hp.map Row.pk).nodup_iff).1 hr.nodup
  rw [List.map_cons, List.nodup_cons] at hnd
  refine ⟨?_, ?_⟩
  · intro r hr'
    rcases List.mem_cons.1 hr' with rfl | hr'
    · exact hnew
    · exact hr.row r (hrest r hr')
  · rw [List.map_cons, List.nodup_cons]
    refine ⟨?_, hnd.2⟩
    rcases hf with hf | hf
    · intro hmem
      obtain ⟨p, hpm, hpk⟩ := List.mem_map.1 hmem
      have := (hr.cons hnew hf).2
      rw [List.map_cons, List.nodup_cons] at this
      exact this.1 (List.mem_map.2 ⟨p, hrest p hpm, hpk⟩)
    · rw [hf]
      exact hnd.1

theorem Steady.shown_cons (h : Steady t i k) (hsub : ∀ r ∈ rest, r ∈ t.live)
    (hnew : ¬ k.Hidden t.ty new) : ∀ r ∈ new :: rest, ¬ k.Hidden t.ty r := by
  intro r hr
  rcases List.mem_cons.1 hr with rfl | hr
  · exact hnew
  · exact h.shown r (hsub r hr)

/-! ## The index -/

theorem synced_restored (hs : Synced t.ty L x) (h : Restored t i x r)
    (hi : Inserted r (t.inds.take i) x false y) : y = x := by
  cases hi with
  | before h => rfl
  | rejected hp hrej =>
      have := h hp
      rw [if_neg (by simp [hrej])] at this
      exact (Ind.spared_iff hrej).2 this
  | undone hp hacc hd =>
      have := h hp
      rw [if_pos hacc, ← Ind.undone_iff hs.shaped hacc, hd] at this
      exact Option.some.inj this

/-- The new row is taken and the old one given back. -/
theorem synced_swap (hs : Synced t.ty t.live x) (hnew : new.Of t.ty) (h : Swaps t x old new)
    (hp : t.live.Perm (old :: rest)) (hacc : accepts new x = true)
    (hd : (x.addToIndex new).2.delFromIndex old = some y) :
    y.kind = x.kind ∧ Synced t.ty (new :: rest) y := by
  have h1 := hs.takes hnew h.1 hacc
  have hperm : (new :: t.live).Perm (old :: new :: rest) :=
    (hp.cons new).trans (List.Perm.swap old new rest)
  obtain ⟨z, hz, hzk, h2⟩ := h1.gives hperm h.2
  obtain rfl := Option.some.inj (hd.symm.trans hz)
  exact ⟨hzk, h2⟩

/-! ## INSERT and REPLACE -/

/-- A null row is not inserted. -/
theorem insertNew_cases {repl : Bool} (h : insertNew t repl r = some (b, t')) :
    t' = t ∨ insertRow t repl r = some (b, t') := by
  unfold insertNew at h
  split at h
  · cases h
    exact .inl rfl
  · exact .inr h

/-- A row that some index rejects. -/
theorem insertRow_rejected_steady (h : Steady t i k) (hx : t.inds[i]? = some x) {repl : Bool}
    (hall : t.inds.all (accepts r) = false) (hsafe : Restored t i x r)
    (hrun : insertRow t repl r = some (b, t')) : Steady t' i k := by
  obtain ⟨x', hx', hxk, hs⟩ := h.index
  obtain rfl := Option.some.inj (hx.symm.trans hx')
  unfold insertRow at hrun
  obtain ⟨⟨ok, inds⟩, h1, hrun⟩ := Option.bind_eq_some_iff.1 hrun
  obtain ⟨y, hy, hin⟩ := runInsertIndexes_at_place h1 hx
  obtain rfl : ok = false := (runInsertIndexes_fst h1).trans hall
  simp only [Bool.false_eq_true, if_false, Option.some.injEq, Prod.mk.injEq] at hrun
  obtain ⟨_, rfl⟩ := hrun
  obtain rfl := synced_restored hs hsafe hin
  exact Steady.next h.rowed rfl rfl rfl (.refl _) h.rowed.row h.rowed.nodup h.shown hy hxk hs

theorem insertRow_steady (h : Steady t i k) (hx : t.inds[i]? = some x) (hfit : Fit t r)
    (hw : t.asRow r = r) (hf : t.store.find r.pk = none) (hsafe : InsertSafe t i x r)
    (hrun : insertRow t false r = some (b, t')) : Steady t' i k := by
  unfold InsertSafe at hsafe
  cases hall : t.inds.all (accepts r) with
  | false =>
      rw [if_neg (by rw [hall]; simp)] at hsafe
      exact insertRow_rejected_steady h hx hall hsafe hrun
  | true =>
      rw [if_pos hall] at hsafe
      obtain ⟨x', hx', hxk, hs⟩ := h.index
      obtain rfl := Option.some.inj (hx.symm.trans hx')
      unfold insertRow at hrun
      obtain ⟨⟨ok, inds⟩, h1, hrun⟩ := Option.bind_eq_some_iff.1 hrun
      obtain ⟨y, hy, hin⟩ := runInsertIndexes_at_place h1 hx
      obtain rfl : ok = true := (runInsertIndexes_fst h1).trans hall
      simp only [if_true, Bool.false_eq_true, if_false, Option.bind_eq_bind, Option.bind_some,
        Option.some.injEq, Prod.mk.injEq] at hrun
      obtain ⟨_, rfl⟩ := hrun
      have hrow : RowOk t r := ⟨hfit, hw, hsafe.1⟩
      obtain ⟨hk, hp⟩ := add_live hsafe.1
      obtain ⟨h2, h3⟩ := h.rowed.cons hrow hf
      cases hin with
      | taken hacc =>
          exact Steady.next h.rowed rfl rfl hk hp h2 h3
            (h.shown_cons (fun _ hr => hr) (hxk ▸ hsafe.2.shown)) hy hxk
            (hs.takes hfit.typed hsafe.2 hacc)

theorem replaceRow_steady (h : Steady t i k) (hx : t.inds[i]? = some x) (hfit : Fit t r)
    (hw : t.asRow r = r) (hf : t.store.find r.pk = some cols)
    (hsafe : ReplaceSafe t i x ⟨r.pk, cols⟩ r)
    (hrun : insertRow t true r = some (b, t')) : Steady t' i k := by
  unfold ReplaceSafe at hsafe
  cases hall : t.inds.all (accepts r) with
  | false =>
      rw [if_neg (by rw [hall]; simp)] at hsafe
      exact insertRow_rejected_steady h hx hall hsafe hrun
  | true =>
      rw [if_pos hall] at hsafe
      obtain ⟨x', hx', hxk, hs⟩ := h.index
      obtain rfl := Option.some.inj (hx.symm.trans hx')
      unfold insertRow at hrun
      obtain ⟨⟨ok, inds⟩, h1, hrun⟩ := Option.bind_eq_some_iff.1 hrun
      obtain ⟨y, hy, hin⟩ := runInsertIndexes_at_place h1 hx
      obtain rfl : ok = true := (runInsertIndexes_fst h1).trans hall
      simp only [if_true, hf] at hrun
      obtain ⟨inds', h2, hrun⟩ := Option.bind_eq_some_iff.1 hrun
      obtain ⟨s, h3, hrun⟩ := Option.bind_eq_some_iff.1 hrun
      cases hrun
      obtain ⟨z, hz, hdel⟩ := runDeleteIndexes_at_place h2 hy
      obtain ⟨s', hs', hk, rest, hp1, hp2⟩ := replace_live hsafe.1 hf
      obtain rfl := Option.some.inj (h3.symm.trans hs')
      have hrow : RowOk t r := ⟨hfit, hw, hsafe.1⟩
      obtain ⟨h4, h5⟩ := h.rowed.swap hrow hp1 (.inr rfl)
      cases hin with
      | taken hacc =>
          obtain ⟨hzk, h6⟩ := synced_swap hs hfit.typed hsafe.2 hp1 hacc hdel
          exact Steady.next h.rowed rfl rfl hk hp2 h4 h5
            (h.shown_cons (fun _ hr => hp1.symm.subset (List.mem_cons_of_mem _ hr))
              (hxk ▸ hsafe.2.1.shown)) hz (hzk.trans hxk) h6

/-! ## DELETE -/

theorem deleteRow_steady (h : Steady t i k) (hx : t.inds[i]? = some x) (hsafe : DeleteSafe t x pk)
    (hrun : deleteRow t pk = some (b, t')) : Steady t' i k := by
  obtain ⟨x', hx', hxk, hs⟩ := h.index
  obtain rfl := Option.some.inj (hx.symm.trans hx')
  unfold deleteRow at hrun
  cases hf : t.store.find pk with
  | none =>
      simp only [hf, Option.some.injEq, Prod.mk.injEq] at hrun
      obtain ⟨_, rfl⟩ := hrun
      exact h
  | some cols =>
      simp only [hf] at hrun
      obtain ⟨hn, hg⟩ := hsafe cols hf
      obtain ⟨inds', h1, hrun⟩ := Option.bind_eq_some_iff.1 hrun
      obtain ⟨s, h2, hrun⟩ := Option.bind_eq_some_iff.1 hrun
      cases hrun
      obtain ⟨s', hs', hk, hp⟩ := del_live hn hf
      obtain rfl := Option.some.inj (h2.symm.trans hs')
      obtain ⟨z, hz, hdel⟩ := runDeleteIndexes_at_place h1 hx
      obtain ⟨w, hw, hwk, h3⟩ := hs.gives hp hg
      obtain rfl := Option.some.inj (hdel.symm.trans hw)
      have hnd := ((hp.map Row.pk).nodup_iff).1 h.rowed.nodup
      rw [List.map_cons, List.nodup_cons] at hnd
      exact Steady.next h.rowed rfl rfl hk (.refl _)
        (fun r hr => h.rowed.row r (hp.symm.subset (List.mem_cons_of_mem _ hr))) hnd.2
        (fun r hr => h.shown r (hp.symm.subset (List.mem_cons_of_mem _ hr))) hz
        (hwk.trans hxk) h3

/-! ## UPDATE -/

theorem all_true {l : List Ind} :
    l.all (fun y => !effected u y.kind || accepts new y) = true ↔
      ∀ y ∈ l, effected u y.kind = true → accepts new y = true := by
  rw [List.all_eq_true]
  refine forall₂_congr fun y _ => ?_
  cases effected u y.kind <;> simp

theorem all_false {l : List Ind} :
    l.all (fun y => !effected u y.kind || accepts new y) = false ↔
      ∃ y ∈ l, effected u y.kind = true ∧ accepts new y = false := by
  rw [List.all_eq_false]
  refine exists_congr fun y => and_congr_right fun _ => ?_
  cases effected u y.kind <;> simp

/-- A row that is written over an old one, with an index that is in step afterwards. -/
theorem runUpdate_redo (h : Steady t i k) (hx : t.inds[i]? = some x) (hu : u.pk = none)
    (hf : t.store.find old.pk = some old.cols) (hnew : RowOk t new) (hpk : new.pk = old.pk)
    (hsafe : RedoSafe t u i x old new) (hrun : runUpdate t u old new = some t') :
    Steady t' i k := by
  obtain ⟨x', hx', hxk, hs⟩ := h.index
  obtain rfl := Option.some.inj (hx.symm.trans hx')
  unfold runUpdate at hrun
  rw [hu, if_neg (by simp)] at hrun
  obtain ⟨⟨ok, inds⟩, h1, hrun⟩ := Option.bind_eq_some_iff.1 hrun
  obtain ⟨s, h2, hrun⟩ := Option.bind_eq_some_iff.1 hrun
  cases hrun
  rw [← hpk] at hf h2
  obtain ⟨s', hs', hk, rest, hp1, hp2⟩ := replace_live hnew.keeps hf
  obtain rfl := Option.some.inj (h2.symm.trans hs')
  have hold : (⟨new.pk, old.cols⟩ : Row) = old := by rw [hpk]
  rw [hold] at hp1
  obtain ⟨h4, h5⟩ := h.rowed.swap hnew hp1 (.inr hpk)
  obtain ⟨y, hy, hre⟩ := upEffected_at_place h1 hx
  have hall := upEffected_fst h1
  have next : ∀ {L : List Row}, ¬ x.kind.Hidden t.ty new → y.kind = x.kind → L.Perm (new :: rest) →
      Synced t.ty L y → Steady { t with store := s, inds := inds } i k := fun hkey hyk hL hsy =>
    Steady.next h.rowed rfl rfl hk hp2 h4 h5
      (h.shown_cons (fun _ hr => hp1.symm.subset (List.mem_cons_of_mem _ hr)) (hxk ▸ hkey)) hy
      (hyk.trans hxk) (hsy.perm hL)
  -- where the images agree, the index may stay as it is
  have same : x.kind.image new = x.kind.image old → Synced t.ty (new :: rest) x := fun himg =>
    (hs.perm hp1).congr hnew.typed hpk himg
  unfold RedoSafe at hsafe
  cases he : effected u x.kind with
  | false =>
      rw [if_pos he] at hsafe
      cases hre with
      | idle => exact next hsafe.2 rfl (.refl _) (same hsafe.1)
      | before => exact next hsafe.2 rfl (.refl _) (same hsafe.1)
      | moved h' => rw [he] at h'; cases h'
      | rejected _ h' => rw [he] at h'; cases h'
      | undone _ h' => rw [he] at h'; cases h'
  | true =>
      rw [if_neg (by rw [he]; simp)] at hsafe
      cases hre with
      | idle h' => rw [he] at h'; cases h'
      | moved _ hacc hd =>
          rw [if_pos hall.symm] at hsafe
          obtain ⟨hyk, h6⟩ := synced_swap hs hnew.typed hsafe hp1 hacc hd
          exact next hsafe.1.shown hyk (.refl _) h6
      | before hex =>
          rw [if_neg (by rw [← hall]; simp), if_pos (all_false.2 hex)] at hsafe
          exact next hsafe.2 rfl (.refl _) (same hsafe.1)
      | rejected hp _ hrej =>
          rw [if_neg (by rw [← hall]; simp), if_neg (by rw [all_true.2 hp]; simp),
            if_pos hrej] at hsafe
          rw [(Ind.spared_iff hrej).2 hsafe.2] at next
          exact next hsafe.1.2 rfl (.refl _) (same hsafe.1.1)
      | undone hp _ hacc hd hd' =>
          rw [if_neg (by rw [← hall]; simp), if_neg (by rw [all_true.2 hp]; simp),
            if_neg (by rw [hacc]; simp)] at hsafe
          obtain ⟨himg, hsw, hg⟩ := hsafe
          obtain ⟨hyk, h6⟩ := synced_swap hs hnew.typed hsw hp1 hacc hd
          have herase : (t.live.erase old).Perm rest := by
            have := hp1.erase old
            rwa [List.erase_cons_head] at this
          obtain ⟨z, hz, hzk, h7⟩ := (h6.perm (herase.symm.cons new)).gives (.refl _)
            (by rw [hyk]; exact hg)
          obtain rfl := Option.some.inj (hd'.symm.trans hz)
          have hzx := hzk.trans hyk
          exact next hsw.1.shown hzx (herase.cons new) (h7.blank hnew.typed (by rw [hzx]; exact himg))

/-- A row that is written under a new primary key. -/
theorem runUpdate_move (h : Steady t i k) (hx : t.inds[i]? = some x) (hu : u.pk.isSome = true)
    (hf : t.store.find old.pk = some old.cols) (hold : RowOk t old) (hnew : RowOk t new)
    (hpk : t.store.find new.pk = none ∨ new.pk = old.pk) (hsafe : MoveSafe t i x old new)
    (hrun : runUpdate t u old new = some t') : Steady t' i k := by
  obtain ⟨x', hx', hxk, hs⟩ := h.index
  obtain rfl := Option.some.inj (hx.symm.trans hx')
  unfold runUpdate at hrun
  rw [if_pos hu] at hrun
  obtain ⟨⟨ok, inds⟩, h1, hrun⟩ := Option.bind_eq_some_iff.1 hrun
  obtain ⟨inds', h2, hrun⟩ := Option.bind_eq_some_iff.1 hrun
  obtain ⟨s, h3, hrun⟩ := Option.bind_eq_some_iff.1 hrun
  cases hrun
  obtain ⟨s', hs', hk, hp⟩ := del_live hold.keeps.1 hf
  obtain rfl := Option.some.inj (h3.symm.trans hs')
  obtain ⟨hk', hp'⟩ := add_live (s := s) (r := new) (by rw [hk]; exact hnew.keeps)
  obtain ⟨h4, h5⟩ := h.rowed.swap hnew hp hpk
  obtain ⟨y, hy, hin⟩ := runInsertIndexes_at_place h1 hx
  obtain ⟨z, hz, hdel⟩ := runDeleteIndexes_at_place h2 hy
  have hall := runInsertIndexes_fst h1
  have next : ¬ x.kind.Hidden t.ty new → z.kind = x.kind →
      Synced t.ty (new :: s.ents.map asLive) z →
      Steady { t with store := s.add new.pk new.cols, inds := inds' } i k := fun hkey hzk hsz =>
    Steady.next h.rowed rfl rfl (hk'.trans hk) hp' h4 h5
      (h.shown_cons (fun _ hr => hp.symm.subset (List.mem_cons_of_mem _ hr)) (hxk ▸ hkey)) hz
      (hzk.trans hxk) hsz
  unfold MoveSafe at hsafe
  cases ok with
  | true =>
      rw [if_pos hall.symm] at hsafe
      cases hin with
      | taken hacc =>
          obtain ⟨hzk, h6⟩ := synced_swap hs hnew.typed hsafe hp hacc hdel
          exact next hsafe.1.shown hzk h6
  | false =>
      rw [if_neg (by rw [← hall]; simp)] at hsafe
      obtain ⟨himg, hkey, hres, hg⟩ := hsafe
      obtain rfl := synced_restored hs hres hin
      obtain ⟨w, hw, hwk, h6⟩ := hs.gives hp hg
      obtain rfl := Option.some.inj (hdel.symm.trans hw)
      exact next hkey hwk (h6.blank hnew.typed (by rw [hwk]; exact himg))

/-- A row that is overwritten in place. -/
theorem overwrite_steady (h : Steady t i k) (hx : t.inds[i]? = some x) (ho : u.Of t.ty) {c : Cols}
    {s : Store} (hf : t.store.find old.pk = some old.cols) (hold : RowOk t old)
    (hplan : planRow t u old = .overwrite c)
    (himg : Same t x old ⟨old.pk, c⟩)
    (hrun : t.store.replace old.pk c = some s) : Steady { t with store := s } i k := by
  obtain ⟨x', hx', hxk, hs⟩ := h.index
  obtain rfl := Option.some.inj (hx.symm.trans hx')
  have hnorm := planRow_overwrite hplan
  have hnew : RowOk t ⟨old.pk, c⟩ :=
    ⟨overwrite_fit ho hold.toFit hplan, asRow_norm hnorm _, keeps_plain (by rw [hnorm]; simp) _⟩
  obtain ⟨s', hs', hk, rest, hp1, hp2⟩ := replace_live hnew.keeps hf
  obtain rfl := Option.some.inj (hrun.symm.trans hs')
  obtain ⟨h4, h5⟩ := h.rowed.swap hnew hp1 (.inr rfl)
  exact Steady.next h.rowed rfl rfl hk hp2 h4 h5
    (h.shown_cons (fun _ hr => hp1.symm.subset (List.mem_cons_of_mem _ hr)) (hxk ▸ himg.2)) hx hxk
    ((hs.perm hp1).congr hnew.typed rfl himg.1)

theorem Rowed.found (h : Rowed t) (hn : Names t pk) (hf : t.store.find pk = some cols) :
    RowOk t ⟨pk, cols⟩ := h.row _ (find_mem hn hf)

theorem updateSingle_steady (h : Steady t i k) (hx : t.inds[i]? = some x) (ho : u.Of t.ty)
    (hsafe : UpdateSafe t u i x pk) (hrun : updateSingle t u pk = some (b, t')) :
    Steady t' i k := by
  unfold updateSingle at hrun
  by_cases hc : u.pk.any (fun e => (t.store.find e.checked).isSome) = true
  · rw [if_pos hc] at hrun
    cases hrun
    exact h
  · rw [if_neg hc] at hrun
    cases hf : t.store.find pk with
    | none =>
        simp only [hf] at hrun
        cases hrun
        exact h
    | some cols =>
        obtain ⟨hn, hrow⟩ := hsafe.resolve_left hc cols hf
        have hold := h.rowed.found hn hf
        simp only [hf] at hrun
        unfold UpdateRowSafe at hrow
        cases hp : planRow t u ⟨pk, cols⟩ with
        | failed =>
            simp only [hp] at hrun
            cases hrun
            exact h
        | overwrite c =>
            simp only [hp] at hrun hrow
            obtain ⟨s, hs, he⟩ := Option.map_eq_some_iff.1 hrun
            cases he
            exact overwrite_steady h hx ho hf hold hp hrow hs
        | newRow new =>
            simp only [hp] at hrun hrow
            obtain ⟨t₁, hrun, he⟩ := Option.map_eq_some_iff.1 hrun
            cases he
            obtain ⟨hfit, hw⟩ := newRow_fit h.rowed.packed ho hold.toFit hp
            have hnew : RowOk t new := ⟨hfit, hw, hrow.1⟩
            cases hu : u.pk with
            | none =>
                have hsafe := hrow.2
                rw [hu, if_neg (by simp)] at hsafe
                exact runUpdate_redo h hx hu hf hnew (newRow_pk hp hu) hsafe hrun
            | some e =>
                have hsafe := hrow.2
                rw [hu, if_pos (by rfl)] at hsafe
                exact runUpdate_move h hx (by rw [hu]; rfl) hf hold hnew hsafe.1 hsafe.2 hrun
        | misread => simp [hp] at hrun

theorem insertCommit_steady (h : Steady t i k) (hx : t.inds[i]? = some x) {mode : Mode}
    (hfit : Fit t r) (ho : ∀ u, mode = .upd u → u.Of t.ty)
    (hsafe : InsertCommitSafe t i x mode r)
    (hrun : insertCommit t mode r = some (b, t')) : Steady t' i k := by
  obtain ⟨hfit', hw⟩ := hfit.asRow h.rowed.packed
  unfold insertCommit at hrun
  unfold InsertCommitSafe at hsafe
  cases hf : t.store.find r.pk with
  | none =>
      cases mode with
      | insert =>
          simp only [hf] at hrun hsafe
          rcases insertNew_cases hrun with rfl | hrun
          · exact h
          · exact insertRow_steady h hx hfit' hw hf hsafe hrun
      | upd u =>
          simp only [hf] at hrun hsafe
          rcases insertNew_cases hrun with rfl | hrun
          · exact h
          · exact insertRow_steady h hx hfit' hw hf hsafe hrun
      | repl =>
          simp only [hf] at hrun hsafe
          rcases insertNew_cases hrun with rfl | hrun
          · exact h
          · exact insertRow_rejected_steady h hx hsafe.1 hsafe.2 hrun
  | some cols =>
      cases mode with
      | insert =>
          simp only [hf] at hrun
          cases hrun
          exact h
      | upd u =>
          simp only [hf] at hrun hsafe
          exact updateSingle_steady h hx (ho u rfl) hsafe hrun
      | repl =>
          simp only [hf] at hrun hsafe
          rcases insertNew_cases hrun with rfl | hrun
          · exact h
          · exact replaceRow_steady h hx hfit' hw hf hsafe hrun

end AlchemyDB.Table
