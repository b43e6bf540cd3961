/-
# Normal indexes on one column

A table of rows whose indexes are all on one column, without a constraint and
without an ORDER BY column.  Such an index accepts every row, so nothing is ever
undone; what it does not take is a row with the primary key 0, which its node
trees hold as a null pointer.
-/
import AlchemyDB.Index.Multi
import AlchemyDB.Table.OrderBy

namespace AlchemyDB.Table

open Assoc Index

/-! ## The commands -/

/-- INSERT, REPLACE of a row that is there, UPDATE of one row and DELETE. -/
def Plain (t : Tab) : Cmd → Prop
  | .insert .insert _ => True
  | .insert .repl r => t.store.find r.pk ≠ none
  | .update _ _ => True
  | .delete _ => True
  | _ => False

/-- A node tree of U128 keys out of which the row is removed has one node: no more than seven of the
rows have its value. -/
def Few (t : Tab) (rows : List Row) (redone : Nat → Bool) (r : Row) : Prop :=
  t.ty 0 = .u128 → ∀ x ∈ t.inds, ∀ c v, x.kind = .single c none → redone c = true →
    getCol r c = some v → rows.countP (fun p => getCol p c = some v) ≤ 7

/-- No row gets the primary key 0 or, by an UPDATE, one that is there, and node trees of U128 keys
are small. -/
def PlainSafe (t : Tab) : Cmd → Prop
  | .insert .insert r => t.store.find r.pk ≠ none ∨ r.pk.isNull = false
  | .insert .repl r => r.pk.isNull = false ∧
      ∀ cols, t.store.find r.pk = some cols → Few t (r :: t.live) (fun _ => true) ⟨r.pk, cols⟩
  | .update u pk => u.pk.any (fun e => (t.store.find e.checked).isSome) = true ∨
      ∀ cols, t.store.find pk = some cols → ∀ new, planRow t u ⟨pk, cols⟩ = .newRow new →
        new.pk.isNull = false ∧ (t.store.find new.pk = none ∨ new.pk = pk) ∧
        Few t (new :: t.live) (fun c => u.pk.isSome || u.hit c) ⟨pk, cols⟩
  | .delete pk => ∀ cols, t.store.find pk = some cols → Few t t.live (fun _ => true) ⟨pk, cols⟩
  | _ => False

/-- The index holds one pair for every row whose column is not empty and nothing else, and no value
has an empty node tree. -/
def Corresponds (t : Tab) (i c : Nat) : Prop :=
  ∃ x, t.inds[i]? = some x ∧
    ((Nest.rows 1 x.tree).map fun q => (q.1, q.2.2)).Perm
      (t.live.filterMap fun r => (getCol r c).map fun v => ([v], r.pk)) ∧
    Multi.Inhabited 1 x.tree

variable {t t' : Tab} {u : Sets} {i c : Nat} {x : Ind} {r old new : Row} {pk : Aobj}

/-! ## What the indexes do -/

theorem add_ne_viol {new : Leaf} {f : Leaf → Nest.Added × Leaf} (hf : ∀ l, (f l).1 ≠ .viol) :
    ∀ (p : List (Option Aobj)) (s : Nest), (Nest.add new f p s).1 ≠ .viol
  | [], .leaf l => hf l
  | [], .tree _ => by simp [Nest.add]
  | none :: _, _ => by simp [Nest.add]
  | some _ :: _, .leaf _ => by simp [Nest.add]
  | some k :: p, .tree s => by
      show (Nest.add new f p _).1 ≠ .viol
      exact add_ne_viol hf p _

/-- A normal index accepts every row. -/
theorem accepts_normal (hk : x.kind = .single c none) (r : Row) : accepts r x = true := by
  have hv : (x.tried r).1 ≠ .viol := by
    unfold Ind.tried
    refine add_ne_viol (fun l => ?_) _ _
    rw [hk]
    simp [Kind.leafAdd, btIndNodeAdd]
  simp [accepts, Ind.addToIndex, hv]

theorem image_normal (c : Nat) (r : Row) : (Kind.single c none).image r =
    (getCol r c).map fun v => ([v], (r.pk, r.pk)) := by
  cases hc : getCol r c <;> simp [Kind.image, Kind.path, Kind.bkey, whole, hc]

/-- It takes every row with another primary key than 0. -/
theorem takes_normal (hk : x.kind = .single c none) (hr : r.Of t.ty) (hpk : r.pk.isNull = false) :
    Takes t.ty t.live x r := by
  unfold Takes
  rw [hk, image_normal]
  cases hc : getCol r c with
  | none =>
      have hw : whole ((Kind.single c none).path r) = none := by simp [Kind.path, hc, whole]
      simp only [Option.map_none, Kind.Passes, hw]
  | some v =>
      refine ⟨?_, fun h => by cases h⟩
      show Index.Stored (.inode (t.ty 0)) r.pk r.pk
      rw [← hr.pk]
      exact stored_inode hpk

/-- It gives a row back. -/
theorem gives_normal {rows : List Row} {redone : Nat → Bool} (hx : x ∈ t.inds)
    (hk : x.kind = .single c none) (hre : redone c = true) (h : Few t rows redone r) :
    Gives t.ty rows x.kind r := by
  unfold Gives
  rw [hk, image_normal]
  cases hc : getCol r c with
  | none =>
      have hw : whole ((Kind.single c none).path r) = none := by simp [Kind.path, hc, whole]
      simp only [Option.map_none, hw]
  | some v =>
      intro hu
      have hle := h (LKind.inode.inj hu) x hx c v hk hre hc
      rw [List.countP_filterMap]
      refine Nat.le_trans (List.countP_mono_left fun p _ hp => ?_) hle
      rw [image_normal] at hp
      cases hc' : getCol p c with
      | none => simp [hc'] at hp
      | some w =>
          rw [hc'] at hp
          simpa using hp

theorem same_normal (hk : x.kind = .single c none) (hpk : new.pk = old.pk)
    (hc : getCol new c = getCol old c) : Same t x old new := by
  refine ⟨?_, ?_⟩
  · rw [hk]
    refine image_congr hpk fun j hj => ?_
    obtain rfl : j = c := by simpa [readCols] using hj
    exact hc
  · rw [hk]
    exact id

/-- The indexes of the table are normal ones on one column. -/
def Normals (t : Tab) : Prop := ∀ x ∈ t.inds, ∃ c, x.kind = .single c none

theorem Normals.all (h : Normals t) (r : Row) : t.inds.all (accepts r) = true := by
  rw [List.all_eq_true]
  intro x hx
  obtain ⟨c, hk⟩ := h x hx
  exact accepts_normal hk r

theorem Normals.effected (h : Normals t) (u : Sets) (r : Row) :
    t.inds.all (fun y => !effected u y.kind || accepts r y) = true := by
  rw [all_true]
  intro x hx _
  obtain ⟨c, hk⟩ := h x hx
  exact accepts_normal hk r

theorem effected_normal (hk : x.kind = .single c none) : effected u x.kind = u.hit c := by
  rw [hk]
  simp [effected, indexCols]

/-- What is safe for the rows is safe for every index. -/
theorem safe_of_plain {cmd : Cmd} (hall : Normals t) (hnorm : t.store.kind = .norm) (hr : Rowed t)
    (ho : cmd.Of t) (hp : Plain t cmd) (h : PlainSafe t cmd) : Safe i t cmd := by
  intro x hx
  have hmem := List.mem_of_getElem? hx
  obtain ⟨c, hk⟩ := hall x hmem
  have hkeep : ∀ r, Keeps t.store.kind r := keeps_plain (by rw [hnorm]; simp)
  have hname : ∀ pk, Names t pk := fun pk => (hkeep ⟨pk, []⟩).1
  cases cmd with
  | insert mode r =>
      have has := asRow_norm hnorm r
      cases mode with
      | insert =>
          show InsertCommitSafe _ _ _ _ _
          unfold InsertCommitSafe
          cases hf : t.store.find r.pk with
          | some cols => trivial
          | none =>
              have hpk := h.resolve_left fun hne => hne hf
              simp only [has]
              unfold InsertSafe
              rw [if_pos (hall.all r)]
              exact ⟨hkeep r, takes_normal hk ho.1.typed hpk⟩
      | repl =>
          show InsertCommitSafe _ _ _ _ _
          unfold InsertCommitSafe
          cases hf : t.store.find r.pk with
          | none => exact absurd hf hp
          | some cols =>
              simp only [has]
              unfold ReplaceSafe
              rw [if_pos (hall.all r)]
              exact ⟨hkeep r, takes_normal hk ho.1.typed h.1, gives_normal hmem hk rfl (h.2 cols hf)⟩
      | upd u => cases hp
  | update u pk =>
      show UpdateSafe _ _ _ _ _
      refine h.imp_right fun h cols hf => ⟨hname pk, ?_⟩
      have hold := hr.found (hname pk) hf
      unfold UpdateRowSafe
      cases hplan : planRow t u ⟨pk, cols⟩ with
      | failed => trivial
      | overwrite w =>
          have hind : t.indxd c = true := by
            refine List.any_eq_true.2 ⟨x, hmem, ?_⟩
            rw [hk]
            exact decide_eq_true List.mem_cons_self
          exact same_normal hk rfl (overwrite_keep hold.full hplan (.inr hind))
      | newRow new =>
          obtain ⟨h1, h2, h3⟩ := h cols hf new hplan
          have hfit := (newRow_fit hr.packed ho hold.toFit hplan).1
          refine ⟨hkeep new, ?_⟩
          have hswap : (u.pk.isSome || u.hit c) = true → Swaps t x ⟨pk, cols⟩ new := fun hre =>
            ⟨takes_normal hk hfit.typed h1, gives_normal hmem hk hre h3⟩
          cases hu : u.pk with
          | some e =>
              rw [if_pos (by rfl)]
              refine ⟨h2, ?_⟩
              unfold MoveSafe
              rw [if_pos (hall.all new)]
              exact hswap (by rw [hu]; rfl)
          | none =>
              rw [if_neg (by simp)]
              unfold RedoSafe
              rw [effected_normal hk]
              cases hh : u.hit c with
              | false =>
                  rw [if_pos rfl]
                  exact same_normal hk (newRow_pk hplan hu)
                    (newRow_keep hold.toFit hold.written hplan hh)
              | true =>
                  rw [if_neg (by simp), if_pos (hall.effected u new)]
                  exact hswap (by rw [hh, Bool.or_true])
      | misread => trivial
  | range u sc => cases hp
  | delete pk => exact fun cols hf => ⟨hname pk, gives_normal hmem hk rfl (h cols hf)⟩

/-! ## The commands go through -/

theorem runInsertIndexes_all : ∀ {l : List Ind}, l.all (accepts r) = true →
    runInsertIndexes r l = some (true, l.map fun x => (x.addToIndex r).2)
  | [], _ => rfl
  | x :: l, h => by
      rw [List.all_cons, Bool.and_eq_true] at h
      have hx : (x.addToIndex r).1 = true := h.1
      simp only [runInsertIndexes, hx, if_true, runInsertIndexes_all h.2, List.map_cons]

theorem runDeleteIndexes_all : ∀ {l : List Ind}, (∀ x ∈ l, ∃ y, x.delFromIndex r = some y) →
    ∃ l', runDeleteIndexes r l = some l' ∧ l'.length = l.length
  | [], _ => ⟨[], rfl, rfl⟩
  | x :: l, h => by
      obtain ⟨y, hy⟩ := h x List.mem_cons_self
      obtain ⟨l', hl, hlen⟩ := runDeleteIndexes_all fun z hz => h z (List.mem_cons_of_mem _ hz)
      exact ⟨y :: l', by simp only [runDeleteIndexes, hy, hl], by simp [hlen]⟩

theorem upEffected_all : ∀ {l : List Ind}, (∀ x ∈ l, effected u x.kind = true →
      accepts new x = true ∧ ∃ y, (x.addToIndex new).2.delFromIndex old = some y) →
    ∃ l', upEffectedFailableIndexes u old new l = some (true, l') ∧ l'.length = l.length
  | [], _ => ⟨[], rfl, rfl⟩
  | x :: l, h => by
      obtain ⟨l', hl, hlen⟩ := upEffected_all fun z hz => h z (List.mem_cons_of_mem _ hz)
      cases he : effected u x.kind with
      | false =>
          exact ⟨x :: l', by simp [upEffectedFailableIndexes, he, hl], by simp [hlen]⟩
      | true =>
          obtain ⟨hacc, y, hy⟩ := h x List.mem_cons_self he
          have ha : (x.addToIndex new).1 = true := hacc
          exact ⟨y :: l', by simp only [upEffectedFailableIndexes, he, if_true, ha, hy, hl],
            by simp [hlen]⟩

/-- The table has the indexes `kinds`, all of them in step with the rows. -/
structure Kept (t : Tab) (kinds : List Kind) : Prop where
  norm : t.store.kind = .norm
  len : t.inds.length = kinds.length
  rowed : Rowed t
  steady : ∀ i k, kinds[i]? = some k → Steady t i k

variable {kinds : List Kind}

theorem Kept.synced (h : Kept t kinds) (hx : x ∈ t.inds) : x.kind ∈ kinds ∧ Synced t.ty t.live x := by
  obtain ⟨i, hi⟩ := List.getElem?_of_mem hx
  have hlt := (List.getElem?_eq_some_iff.1 hi).1
  rw [h.len] at hlt
  have hk := List.getElem?_eq_getElem hlt
  obtain ⟨y, hy, hyk, hs⟩ := (h.steady i _ hk).index
  obtain rfl := Option.some.inj (hi.symm.trans hy)
  exact ⟨hyk ▸ List.getElem_mem hlt, hs⟩

theorem Kept.normals (h : Kept t kinds) (hn : ∀ k ∈ kinds, ∃ c, k = .single c none) : Normals t :=
  fun _ hx => hn _ (h.synced hx).1

theorem Kept.names (h : Kept t kinds) (pk : Aobj) : Names t pk :=
  (keeps_plain (by rw [h.norm]; simp) ⟨pk, []⟩).1

/-- An index that takes the new row gives back the old one. -/
theorem swap_some {rest : List Row} (hs : Synced t.ty t.live x) (hnew : new.Of t.ty)
    (hp : t.live.Perm (old :: rest)) (hacc : accepts new x = true) (h : Swaps t x old new) :
    ∃ y, (x.addToIndex new).2.delFromIndex old = some y := by
  have hperm : (new :: t.live).Perm (old :: new :: rest) :=
    (hp.cons new).trans (List.Perm.swap old new rest)
  obtain ⟨y, hy, _⟩ := (hs.takes hnew h.1 hacc).gives hperm h.2
  exact ⟨y, hy⟩

/-- The command goes through, and the table keeps its indexes. -/
def Goes (t : Tab) (o : Option (Bool × Tab)) : Prop :=
  ∃ b t', o = some (b, t') ∧ t'.store.kind = t.store.kind ∧ t'.inds.length = t.inds.length

theorem Goes.same (b : Bool) : Goes t (some (b, t)) := ⟨b, t, rfl, rfl, rfl⟩

theorem runUpdate_goes (h : Kept t kinds) (hn : Normals t) {cols : Cols}
    (hf : t.store.find pk = some cols) (hnew : new.Of t.ty) (hpk : u.pk = none → new.pk = pk)
    (hswap : ∀ x ∈ t.inds, redone u x.kind → Swaps t x ⟨pk, cols⟩ new) :
    Goes t ((runUpdate t u ⟨pk, cols⟩ new).map fun t => (true, t)) := by
  have hk : ∀ r, Keeps t.store.kind r := keeps_plain (by rw [h.norm]; simp)
  obtain ⟨s, hs, hsk, hp⟩ := del_live (h.names pk) hf
  have hdel : ∀ x ∈ t.inds, redone u x.kind →
      ∃ y, (x.addToIndex new).2.delFromIndex ⟨pk, cols⟩ = some y := by
    intro x hx hre
    obtain ⟨c, hc⟩ := hn x hx
    exact swap_some (h.synced hx).2 hnew hp (accepts_normal hc new) (hswap x hx hre)
  unfold runUpdate
  cases hu : u.pk with
  | some e =>
      rw [if_pos (by rfl), runInsertIndexes_all (hn.all new)]
      have hre : ∀ y ∈ t.inds.map (fun x => (x.addToIndex new).2),
          ∃ z, y.delFromIndex ⟨pk, cols⟩ = some z := by
        intro y hy
        obtain ⟨x, hx, rfl⟩ := List.mem_map.1 hy
        exact hdel x hx (.inl (by rw [hu]; rfl))
      obtain ⟨l, hl, hlen⟩ := runDeleteIndexes_all hre
      simp only [Option.bind_eq_bind, Option.bind_some, hl, hs, Option.map_some]
      refine ⟨true, _, rfl, ?_, by simpa using hlen⟩
      exact (add_live (s := s) (r := new) (by rw [hsk]; exact hk new)).1.trans hsk
  | none =>
      rw [if_neg (by simp)]
      have hre : ∀ x ∈ t.inds, effected u x.kind = true → accepts new x = true ∧
          ∃ y, (x.addToIndex new).2.delFromIndex ⟨pk, cols⟩ = some y := by
        intro x hx he
        obtain ⟨c, hc⟩ := hn x hx
        exact ⟨accepts_normal hc new, hdel x hx (.inr he)⟩
      obtain ⟨l, hl, hlen⟩ := upEffected_all hre
      rw [← hpk hu] at hf
      obtain ⟨s', hs', hsk', _⟩ := replace_live (hk new) hf
      rw [hpk hu] at hs'
      simp only [Option.bind_eq_bind, hl, Option.bind_some, hs', Option.map_some]
      exact ⟨true, _, rfl, hsk', hlen⟩

theorem insert_goes (h : Kept t kinds) (hn : Normals t) (hf : t.store.find r.pk = none) :
    Goes t (insertCommit t .insert r) := by
  have hk : Keeps t.store.kind r := keeps_plain (by rw [h.norm]; simp) r
  unfold insertCommit
  simp only [hf, asRow_norm h.norm, insertNew_norm h.norm, insertRow,
    runInsertIndexes_all (hn.all r), Option.bind_eq_bind, Option.bind_some, if_true, Bool.false_eq_true, if_false]
  exact ⟨true, _, rfl, (add_live hk).1, by simp⟩

theorem replace_goes (h : Kept t kinds) (hn : Normals t) {cols : Cols} (hr : r.Of t.ty)
    (hf : t.store.find r.pk = some cols)
    (hswap : ∀ x ∈ t.inds, Swaps t x ⟨r.pk, cols⟩ r) : Goes t (insertCommit t .repl r) := by
  have hk : Keeps t.store.kind r := keeps_plain (by rw [h.norm]; simp) r
  obtain ⟨s, hs, hsk, rest, hp, _⟩ := replace_live hk hf
  have hre : ∀ y ∈ t.inds.map (fun x => (x.addToIndex r).2),
      ∃ z, y.delFromIndex ⟨r.pk, cols⟩ = some z := by
    intro y hy
    obtain ⟨x, hx, rfl⟩ := List.mem_map.1 hy
    obtain ⟨c, hc⟩ := hn x hx
    exact swap_some (h.synced hx).2 hr hp (accepts_normal hc r) (hswap x hx)
  obtain ⟨l, hl, hlen⟩ := runDeleteIndexes_all hre
  unfold insertCommit
  simp only [hf, asRow_norm h.norm, insertNew_norm h.norm, insertRow,
    runInsertIndexes_all (hn.all r), Option.bind_eq_bind, Option.bind_some, if_true, hl, hs]
  exact ⟨true, _, rfl, hsk, by simpa using hlen⟩

theorem delete_goes (h : Kept t kinds)
    (hg : ∀ x ∈ t.inds, ∀ cols, t.store.find pk = some cols →
      Gives t.ty t.live x.kind ⟨pk, cols⟩) : Goes t (deleteRow t pk) := by
  unfold deleteRow
  cases hf : t.store.find pk with
  | none => exact Goes.same false
  | some cols =>
      obtain ⟨s, hs, hsk, hp⟩ := del_live (h.names pk) hf
      have hre : ∀ x ∈ t.inds, ∃ y, x.delFromIndex ⟨pk, cols⟩ = some y := by
        intro x hx
        obtain ⟨y, hy, _⟩ := (h.synced hx).2.gives hp (hg x hx cols hf)
        exact ⟨y, hy⟩
      obtain ⟨l, hl, hlen⟩ := runDeleteIndexes_all hre
      simp only [hl, hs, Option.bind_eq_bind, Option.bind_some]
      exact ⟨true, _, rfl, hsk, hlen⟩

theorem update_goes (h : Kept t kinds) (hn : Normals t) (ho : u.Of t.ty)
    (hsafe : PlainSafe t (.update u pk)) :
    Goes t (updateSingle t u pk) := by
  unfold updateSingle
  by_cases hc : u.pk.any (fun e => (t.store.find e.checked).isSome) = true
  · rw [if_pos hc]
    exact Goes.same false
  · rw [if_neg hc]
    cases hf : t.store.find pk with
    | none => exact Goes.same false
    | some cols =>
        have hold := h.rowed.found (h.names pk) hf
        simp only
        cases hplan : planRow t u ⟨pk, cols⟩ with
        | failed => exact Goes.same false
        | overwrite w =>
            have hkeeps : Keeps t.store.kind ⟨pk, w⟩ := keeps_plain (by rw [h.norm]; simp) _
            obtain ⟨s, hs, hsk, _⟩ := replace_live hkeeps hf
            simp only at hs
            simp only [hs, Option.map_some]
            exact ⟨true, _, rfl, hsk, rfl⟩
        | newRow new =>
            have hfit := (newRow_fit h.rowed.packed ho hold.toFit hplan).1
            obtain ⟨h1, _, h3⟩ := hsafe.resolve_left hc cols hf new hplan
            refine runUpdate_goes h hn hf hfit.typed (fun hu => newRow_pk hplan hu) ?_
            intro x hx hre
            obtain ⟨c, hk⟩ := hn x hx
            have hhit : (u.pk.isSome || u.hit c) = true := by
              rcases hre with hre | hre
              · rw [hre, Bool.true_or]
              · rw [effected_normal hk] at hre
                rw [hre, Bool.or_true]
            exact ⟨takes_normal hk hfit.typed h1, gives_normal hx hk hhit h3⟩
        | misread => exact absurd hplan (planRow_ne_misread h.norm)

/-- A safe command goes through. -/
theorem exec_goes {s : Sess} {cmd : Cmd} (h : Kept s.tab kinds) (hn : Normals s.tab)
    (ho : cmd.Of s.tab) (hp : Plain s.tab cmd) (hsafe : PlainSafe s.tab cmd) :
    ∃ b s', s.exec cmd = some (b, s') ∧ s'.tab.store.kind = s.tab.store.kind ∧
      s'.tab.inds.length = s.tab.inds.length := by
  have lift : ∀ {o : Option (Bool × Tab)}, Goes s.tab o →
      ∃ b s', o.map (fun e => (e.1, (⟨e.2, s.queue⟩ : Sess))) = some (b, s') ∧
        s'.tab.store.kind = s.tab.store.kind ∧ s'.tab.inds.length = s.tab.inds.length := by
    rintro o ⟨b, t', rfl, hk, hl⟩
    exact ⟨b, ⟨t', s.queue⟩, rfl, hk, hl⟩
  cases cmd with
  | insert mode r =>
      cases mode with
      | insert =>
          refine lift ?_
          cases hf : s.tab.store.find r.pk with
          | none => exact insert_goes h hn hf
          | some cols =>
              simp only [insertCommit, hf]
              exact Goes.same false
      | repl =>
          refine lift ?_
          cases hf : s.tab.store.find r.pk with
          | none => exact absurd hf hp
          | some cols =>
              refine replace_goes h hn ho.1.typed hf fun x hx => ?_
              obtain ⟨c, hk⟩ := hn x hx
              exact ⟨takes_normal hk ho.1.typed hsafe.1,
                gives_normal hx hk rfl (hsafe.2 cols hf)⟩
      | upd u => cases hp
  | update u pk => exact lift (update_goes h hn ho hsafe)
  | range u sc => cases hp
  | delete pk =>
      refine lift (delete_goes h fun x hx cols hf => ?_)
      obtain ⟨c, hk⟩ := hn x hx
      exact gives_normal hx hk rfl (hsafe cols hf)

/-! ## Runs -/

theorem Steady.corresponds (h : Steady t i (.single c none)) : Corresponds t i c := by
  obtain ⟨x, hx, hk, hs⟩ := h.index
  have hok := hs.holds.ok
  have hrows := hs.holds.rows
  rw [hk] at hok hrows
  refine ⟨x, hx, ?_, Multi.inhabited_of_ok hok⟩
  have hmap := hrows.map fun q => (q.1, q.2.2)
  rw [List.map_filterMap] at hmap
  refine hmap.trans (List.Perm.of_eq ?_)
  congr 1
  funext r
  rw [image_normal, Option.map_map]
  rfl

/-- In a run of safe commands every index stays in step. -/
theorem kept_run {ty : Nat → KType} {ncols : Nat} (hn : ∀ k ∈ kinds, ∃ c, k = .single c none)
    (hne : kinds ≠ []) {s : Sess} (run : Run (fun s c => Plain s.tab c ∧ PlainSafe s.tab c)
      (Tab.fresh ty ncols .norm kinds) s) : Kept s.tab kinds ∧ s.queue = [] := by
  induction run with
  | start =>
      have hst : ∀ i k, kinds[i]? = some k → Steady (Tab.fresh ty ncols .norm kinds) i k := by
        intro i k hk
        obtain ⟨c, rfl⟩ := hn k (List.mem_of_getElem? hk)
        exact fresh_steady (fun h => absurd rfl h) hk fun h => nomatch h
      exact ⟨⟨rfl, List.length_map _, ⟨fun h => absurd rfl h, fun r hr => absurd hr List.not_mem_nil,
        List.nodup_nil⟩, hst⟩, rfl⟩
  | @step s s' cmd b _ ho hsafe hex ih =>
      obtain ⟨hkept, hq⟩ := ih
      have hnorm := hkept.normals hn
      obtain ⟨b', s₁, hex', hkind, hlen⟩ := exec_goes hkept hnorm ho hsafe.1 hsafe.2
      obtain ⟨_, rfl⟩ := Prod.mk.inj (Option.some.inj (hex.symm.trans hex'))
      have hst : ∀ i k, kinds[i]? = some k → Steady s'.tab i k ∧ s'.queue = [] := fun i k hk =>
        exec_steady (hkept.steady i k hk) hq ho
          (safe_of_plain hnorm hkept.norm hkept.rowed ho hsafe.1 hsafe.2) hex
      obtain ⟨k, hk⟩ : ∃ k, kinds[0]? = some k := by
        cases kinds with
        | nil => exact absurd rfl hne
        | cons k ks => exact ⟨k, rfl⟩
      exact ⟨⟨hkind.trans hkept.norm, hlen.trans hkept.len, (hst 0 k hk).1.rowed,
        fun i k hk => (hst i k hk).1⟩, (hst 0 k hk).2⟩

end AlchemyDB.Table
