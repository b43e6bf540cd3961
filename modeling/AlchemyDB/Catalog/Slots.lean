/-
# Slot allocation — no slot is handed out twice

`newIndex` takes a slot and, when it fails later on, gives it back through
`emptyIndex`; `newTable` and `emptyTable` do the same for tables.  Whatever the
order of the calls, the counted slots are the live ones and those on the drop
list.
-/
import AlchemyDB.Catalog.Model

namespace AlchemyDB.Catalog

open Store Slots

namespace Cat

def LiveIndex (c : Cat) (i : Nat) : Prop := (c.index i).name.isSome = true

def LiveTable (c : Cat) (t : Nat) : Prop := (c.tbl t).name.isSome = true

instance (c : Cat) (i : Nat) : Decidable (c.LiveIndex i) := inferInstanceAs (Decidable (_ = _))

instance (c : Cat) (t : Nat) : Decidable (c.LiveTable t) := inferInstanceAs (Decidable (_ = _))

structure SlotsKept (c : Cat) : Prop where
  index : c.ipool.Kept c.LiveIndex
  table : c.tpool.Kept c.LiveTable

/-- A step that leaves all slots as they are. -/
structure SameSlots (c c' : Cat) : Prop where
  index : c'.index = c.index
  ipool : c'.ipool = c.ipool
  tpool : c'.tpool = c.tpool
  name : ∀ t, (c'.tbl t).name = (c.tbl t).name

end Cat

/-! ## Peeling computations apart -/

theorem bind_ok {A B : Type} {x : Except Fault A} {f : A → Except Fault B} {r : B}
    (h : (x >>= f) = .ok r) : ∃ a, x = .ok a ∧ f a = .ok r := by
  cases x with
  | error e => exact absurd h (by simp [bind, Except.bind])
  | ok a => exact ⟨a, rfl, h⟩

namespace Cat

variable {c c' : Cat} {i t : Nat}

/-- A table is rewritten and keeps its name. -/
theorem upd_name {rt : Tbl} (h : rt.name = (c.tbl t).name) (u : Nat) :
    (upd c.tbl t rt u).name = (c.tbl u).name := by
  by_cases e : u = t
  · subst e
    simp [h]
  · simp [e]

/-! ## One index -/

theorem unlisted_name {rt rt' : Tbl} {ic : Option Icol} (h : unlisted rt ic i = .ok rt') :
    rt'.name = rt.name := by
  unfold unlisted at h
  split at h
  · exact (Except.ok.inj h) ▸ rfl
  · split at h
    · cases h
    · split at h
      · exact (Except.ok.inj h) ▸ rfl
      · cases h

/-- What `emptyIndex` does to the slots. -/
structure Emptied (c c' : Cat) (i : Nat) : Prop where
  index : c'.index = upd c.index i Ind.none
  ipool : c'.ipool = c.ipool.give i
  tpool : c'.tpool = c.tpool
  name : ∀ t, (c'.tbl t).name = (c.tbl t).name

theorem emptyIndex_cases (h : c.emptyIndex i = .ok c') :
    (¬ c.LiveIndex i ∧ c' = c) ∨ (c.LiveIndex i ∧ c.Emptied c' i) := by
  unfold emptyIndex at h
  unfold LiveIndex
  split at h
  · rename_i n t hn ht
    obtain ⟨rt, hrt, h⟩ := bind_ok h
    cases h
    have hname : (uncounted rt (c.index i)).name = (c.tbl t).name :=
      (unlisted_name hrt : rt.name = _)
    exact .inr ⟨by simp [hn], rfl, rfl, rfl, upd_name hname⟩
  · cases h
  · rename_i hn
    exact .inl ⟨by simp [hn], (Except.ok.inj h).symm⟩

theorem SlotsKept.emptied (k : c.SlotsKept) (hi : c.LiveIndex i) (e : c.Emptied c' i) :
    c'.SlotsKept := by
  refine ⟨?_, ?_⟩
  · rw [e.ipool]
    refine (k.index.give hi).congr (fun j => ?_)
    unfold LiveIndex
    rw [e.index]
    by_cases hj : j = i
    · subst hj
      simp [Ind.none]
    · simp [hj]
  · rw [e.tpool]
    refine k.table.congr (fun t => ?_)
    unfold LiveTable
    rw [e.name]

theorem SlotsKept.emptyIndex (k : c.SlotsKept) (h : c.emptyIndex i = .ok c') : c'.SlotsKept := by
  rcases emptyIndex_cases h with ⟨_, rfl⟩ | ⟨hi, e⟩
  · exact k
  · exact k.emptied hi e

theorem SlotsKept.same (k : c.SlotsKept) (h : SameSlots c c') : c'.SlotsKept := by
  refine ⟨?_, ?_⟩
  · rw [h.ipool]
    refine k.index.congr (fun j => ?_)
    unfold LiveIndex
    rw [h.index]
  · rw [h.tpool]
    refine k.table.congr (fun t => ?_)
    unfold LiveTable
    rw [h.name]

theorem SlotsKept.emptyIndexes : ∀ {l : List Nat} {c : Cat}, c.SlotsKept →
    c.emptyIndexes l = .ok c' → c'.SlotsKept
  | [], c, k, h => by
      cases h
      exact k
  | i :: rest, c, k, h => by
      obtain ⟨c₁, h₁, h₂⟩ := bind_ok h
      exact SlotsKept.emptyIndexes (k.emptyIndex h₁) h₂

/-! ## A new index -/

theorem listed_name {rt rt' : Tbl} {ic : Option Icol} (h : listed rt ic i = .ok rt') :
    rt'.name = rt.name := by
  unfold listed at h
  split at h
  · exact (Except.ok.inj h) ▸ rfl
  · split at h
    · cases h
    · exact (Except.ok.inj h) ▸ rfl

/-- What becomes of a new number: it stays, or is given back. -/
def Outcome (c c' : Cat) (i : Nat) (r : Option Nat) : Prop :=
  ∃ c₁, SameSlots c c₁ ∧ ((r = some i ∧ c' = c₁) ∨ (r = none ∧ c₁.emptyIndex i = .ok c'))

theorem newindErr_cases {r : Option Nat} (h : c.newindErr i = .ok (c', r)) : Outcome c c' i r := by
  obtain ⟨c₂, h₂, h⟩ := bind_ok h
  cases h
  exact ⟨c, ⟨rfl, rfl, rfl, fun _ => rfl⟩, .inr ⟨rfl, h₂⟩⟩

theorem SameSlots.trans {c₁ c₂ : Cat} (h : SameSlots c c₁) (h' : SameSlots c₁ c₂) :
    SameSlots c c₂ :=
  ⟨h'.index.trans h.index, h'.ipool.trans h.ipool, h'.tpool.trans h.tpool,
    fun t => (h'.name t).trans (h.name t)⟩

theorem Outcome.after {c₁ : Cat} {r : Option Nat} (h : SameSlots c c₁) (o : Outcome c₁ c' i r) :
    Outcome c c' i r := by
  obtain ⟨c₂, hs, hr⟩ := o
  exact ⟨c₂, h.trans hs, hr⟩

theorem enterIndex_cases {a : NewIndex} {o : Answers} {r : Option Nat}
    (h : c.enterIndex a o i = .ok (c', r)) : Outcome c c' i r := by
  obtain ⟨indD, hd, h⟩ := bind_ok h
  have hs : SameSlots c { c with indD := indD } := ⟨rfl, rfl, rfl, fun _ => rfl⟩
  split at h
  · exact (newindErr_cases h).after hs
  · cases h
    exact ⟨_, hs, .inl ⟨rfl, rfl⟩⟩

theorem finishIndex_cases {a : NewIndex} {o : Answers} {r : Option Nat}
    (h : c.finishIndex a o i = .ok (c', r)) : Outcome c c' i r := by
  have hs : SameSlots c (c.setTbl a.tmatch (counted (c.tbl a.tmatch) a i)) :=
    ⟨rfl, rfl, rfl, upd_name rfl⟩
  unfold finishIndex at h
  split at h
  · exact (newindErr_cases h).after hs
  · exact (enterIndex_cases h).after hs

theorem nameFunction_cases {a : NewIndex} {o : Answers} {r : Option Nat}
    (h : c.nameFunction a o i = .ok (c', r)) : Outcome c c' i r := by
  unfold nameFunction at h
  split at h
  · exact finishIndex_cases h
  · rename_i f hf
    split at h
    · exact newindErr_cases h
    · have hs : SameSlots c (c.addFname a.tmatch f i) := ⟨rfl, rfl, rfl, upd_name rfl⟩
      exact (finishIndex_cases h).after hs

/-- The slot of the new index is taken. -/
structure Filled (c c' : Cat) (a : NewIndex) : Prop where
  index : c'.index = upd c.index c.ipool.next a.slot
  ipool : c'.ipool = c.ipool.take
  tpool : c'.tpool = c.tpool
  name : ∀ t, (c'.tbl t).name = (c.tbl t).name

theorem SlotsKept.filled {a : NewIndex} (k : c.SlotsKept) (h : Filled c c' a) : c'.SlotsKept := by
  refine ⟨?_, ?_⟩
  · rw [h.ipool]
    refine k.index.take.congr (fun j => ?_)
    unfold LiveIndex
    rw [h.index]
    by_cases hj : j = c.ipool.next
    · subst hj
      simp [NewIndex.slot]
    · simp [hj]
  · rw [h.tpool]
    refine k.table.congr (fun t => ?_)
    unfold LiveTable
    rw [h.name]

theorem newIndex_cases {a : NewIndex} {o : Answers} {r : Option Nat}
    (h : c.newIndex a o = .ok (c', r)) : (c' = c ∧ r = none) ∨
      ∃ c₁, Filled c c₁ a ∧ Outcome c₁ c' c.ipool.next r := by
  unfold newIndex at h
  split at h
  · cases h
    exact .inl ⟨rfl, rfl⟩
  · obtain ⟨rt, hrt, h⟩ := bind_ok h
    have hF : Filled c (c.placed a rt) a := ⟨rfl, rfl, rfl, upd_name (listed_name hrt)⟩
    exact .inr ⟨_, hF, nameFunction_cases h⟩

theorem SlotsKept.newIndex {a : NewIndex} {o : Answers} {r : Option Nat} (k : c.SlotsKept)
    (h : c.newIndex a o = .ok (c', r)) : c'.SlotsKept := by
  rcases newIndex_cases h with ⟨rfl, _⟩ | ⟨c₁, hF, c₂, hs, ⟨_, rfl⟩ | ⟨_, he⟩⟩
  · exact k
  · exact (k.filled hF).same hs
  · exact ((k.filled hF).same hs).emptyIndex he

/-! ## Tables -/

theorem SlotsKept.newTable {tname : Sds} {cols : List (Sds × CType)} {o : Answers}
    (k : c.SlotsKept) (h : c.newTable tname cols o = .ok c') : c'.SlotsKept := by
  unfold Cat.newTable at h
  split at h
  · rename_i pk ty k₂ rest
    split at h
    · obtain ⟨tblD, hd, h⟩ := bind_ok h
      obtain ⟨r, hr, h⟩ := bind_ok h
      cases h
      have k₁ : (c.withTable tblD (freshTable tname ((pk, ty) :: k₂ :: rest))).SlotsKept := by
        refine ⟨k.index, k.table.take.congr (fun t => ?_)⟩
        unfold LiveTable withTable
        by_cases ht : t = c.tpool.next
        · subst ht
          simp [freshTable]
        · simp [ht]
      exact k₁.newIndex (r := r.2) hr
    · cases h
      exact k
  · cases h
    exact k

theorem emptyIndex_keeps (h : c.emptyIndex i = .ok c') (t : Nat) :
    (c'.tbl t).name = (c.tbl t).name := by
  rcases emptyIndex_cases h with ⟨_, rfl⟩ | ⟨_, e⟩
  · rfl
  · exact e.name t

theorem emptyIndexes_keeps : ∀ {l : List Nat} {c : Cat}, c.emptyIndexes l = .ok c' → ∀ t,
    (c'.tbl t).name = (c.tbl t).name
  | [], c, h, t => by
      cases h
      rfl
  | i :: rest, c, h, t => by
      obtain ⟨c₁, h₁, h₂⟩ := bind_ok h
      rw [emptyIndexes_keeps h₂ t, emptyIndex_keeps h₁ t]

theorem SlotsKept.emptyTable (k : c.SlotsKept) (h : c.emptyTable t = .ok c') : c'.SlotsKept := by
  unfold Cat.emptyTable at h
  split at h
  · cases h
    exact k
  · rename_i n hn
    obtain ⟨c₁, h₁, h⟩ := bind_ok h
    cases h
    have k₁ : c₁.SlotsKept :=
      SlotsKept.emptyIndexes (c := { c with tblD := dictDelete c.tblD n }) ⟨k.index, k.table⟩ h₁
    have hlive : c₁.LiveTable t := by
      unfold LiveTable
      rw [emptyIndexes_keeps h₁ t]
      simp [hn]
    refine ⟨k₁.index, (k₁.table.give hlive).congr (fun u => ?_)⟩
    unfold LiveTable
    by_cases hu : u = t
    · subst hu
      simp [initTable]
    · simp [hu]

/-! ## Runs -/

/-- The calls that take and give back slots, with any arguments. -/
inductive SlotOp where
  | newIndex (a : NewIndex) (o : Answers)
  | emptyIndex (i : Nat)
  | newTable (tname : Sds) (cols : List (Sds × CType)) (o : Answers)
  | emptyTable (t : Nat)

def slotStep (c : Cat) : SlotOp → Except Fault Cat
  | .newIndex a o => c.newIndex a o >>= fun r => .ok r.1
  | .emptyIndex i => c.emptyIndex i
  | .newTable tname cols o => c.newTable tname cols o
  | .emptyTable t => c.emptyTable t

def slotRun (c : Cat) : List SlotOp → Except Fault Cat
  | [] => .ok c
  | op :: ops => c.slotStep op >>= fun c => c.slotRun ops

theorem SlotsKept.step {op : SlotOp} (k : c.SlotsKept) (h : c.slotStep op = .ok c') :
    c'.SlotsKept := by
  cases op with
  | newIndex a o =>
      obtain ⟨r, hr, h⟩ := bind_ok h
      cases h
      exact k.newIndex (r := r.2) hr
  | emptyIndex i => exact k.emptyIndex h
  | newTable tname cols o => exact k.newTable h
  | emptyTable t => exact k.emptyTable h

theorem SlotsKept.run : ∀ {ops : List SlotOp} {c : Cat}, c.SlotsKept → c.slotRun ops = .ok c' →
    c'.SlotsKept
  | [], c, k, h => by
      cases h
      exact k
  | op :: ops, c, k, h => by
      obtain ⟨c₁, h₁, h₂⟩ := bind_ok h
      exact SlotsKept.run (k.step h₁) h₂

theorem init_slotsKept (ntbl nindx : Nat) : (init ntbl nindx).SlotsKept := by
  refine ⟨(Pool.kept_empty nindx).congr (fun i => ?_), (Pool.kept_empty ntbl).congr (fun t => ?_)⟩
  · simp [LiveIndex, init, Ind.none]
  · simp [LiveTable, init, initTable]

/-- After any run of the four calls, the live slots and the slots on the drop list are disjoint,
the drop list has no duplicates, together they are the counted slots, and these fit in the room
there is; so that the slot the next call hands out is not in use. -/
theorem slots_run (ntbl nindx : Nat) (ops : List SlotOp) (h : (init ntbl nindx).slotRun ops = .ok c) :
    (∀ i ∈ c.ipool.drop, ¬ c.LiveIndex i) ∧ c.ipool.drop.Nodup ∧
      (∀ i, i < c.ipool.num ↔ c.LiveIndex i ∨ i ∈ c.ipool.drop) ∧ c.ipool.num ≤ c.ipool.hw ∧
      (∀ a o c' i, c.newIndex a o = .ok (c', some i) → ¬ c.LiveIndex i) ∧
    (∀ t ∈ c.tpool.drop, ¬ c.LiveTable t) ∧ c.tpool.drop.Nodup ∧
      (∀ t, t < c.tpool.num ↔ c.LiveTable t ∨ t ∈ c.tpool.drop) ∧ c.tpool.num ≤ c.tpool.hw ∧
      ¬ c.LiveTable c.tpool.next := by
  have k := (init_slotsKept ntbl nindx).run h
  refine ⟨k.index.disjoint, k.index.nodup, k.index.exact, k.index.room, ?_,
    k.table.disjoint, k.table.nodup, k.table.exact, k.table.room, k.table.next_free⟩
  intro a o c' i hi
  rcases newIndex_cases hi with ⟨_, hr⟩ | ⟨_, _, _, _, ⟨hr, _⟩ | ⟨hr, _⟩⟩
  · cases hr
  · cases hr
    exact k.index.next_free
  · cases hr

/-- A table with two indexes, the second of which cannot be built; the first is dropped, and the
table after another one has been made. -/
def churn : List SlotOp :=
  let all : Answers := ⟨true, true, true⟩
  let on (n : String) (j : Nat) : NewIndex :=
    { iname := n.toList, tmatch := 0, ic := some ⟨j, []⟩, clist := none, uniq := true, virt := false,
      luat := none, obc := none, prtl := false, fname := none, iconstrct := none }
  let cols : List (Sds × CType) := [(['i', 'd'], .int), (['a'], .int), (['b'], .int)]
  [.newTable ['t'] cols all, .newIndex (on "x" 1) all, .newIndex (on "y" 2) ⟨true, true, false⟩,
    .newTable ['u'] cols all, .emptyIndex 1, .emptyTable 0]

theorem slots_run_churn : ∃ c, (init 1 1).slotRun churn = .ok c ∧ c.ipool.drop = [1, 0] ∧
    c.ipool.num = 3 ∧ c.tpool.drop = [0] ∧ ∀ i ∈ c.ipool.drop, ¬ c.LiveIndex i :=
  ⟨_, rfl, by decide, by decide, by decide, (slots_run 1 1 churn rfl).1⟩

end Cat

end AlchemyDB.Catalog
