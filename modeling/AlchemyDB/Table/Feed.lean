/-
# Triggers as a feed — when the calls account for the rows

A trigger with all four commands on the same columns can keep a sum over the rows of
its table: a call for a row that is new adds to it, a call for a row that is gone
takes from it.  Every step changes the sum as it changes the rows, but for the rows
that are `lost`: a call for a row that goes, without a call when it came.  An index
behind the trigger that rejects a row loses it, and a new primary key does, since
both the UPDATE and the indexes give the old row up.
-/
import Mathlib.Algebra.BigOperators.Ring.List
import AlchemyDB.Table.Trigger

namespace AlchemyDB.Table.Trigger

open Assoc Index

/-! ## Sums over calls and over rows -/

/-- What a call does to a sum. -/
def Whom.sign : Whom → Int
  | .add => 1
  | .del => -1
  | .preup => -1
  | .postup => 1

/-- The calls of a trigger, summed up. -/
def balance (n : Nat) (f : List (Option Aobj) → Int) (log : List Call) : Int :=
  ((log.filter fun c => c.imatch = n).map fun c => c.whom.sign * f c.args).sum

/-- The columns of rows, summed up. -/
def weigh (ics : List Nat) (f : List (Option Aobj) → Int) (rows : List Row) : Int :=
  (rows.map fun r => f (ics.map (getCol r))).sum

def TTab.rows (t : TTab) : List Row := t.store.ents.map asLive

/-- All four commands are there and are on these columns. -/
def Luat.Reads (l : Luat) (ics : List Nat) : Prop :=
  ∀ w, ∃ ltc, l.command w = some ltc ∧ ltc.ics = ics

/-- The trigger `n` stands at one place and reads these columns. -/
inductive Watches (n : Nat) (ics : List Nat) : List Slot → Prop where
  | here {x : Slot} {rest : List Slot} {l : Luat} (hn : x.imatch = n) (hl : x.luat = some l)
      (hr : l.Reads ics) (h : ∀ y ∈ rest, y.imatch ≠ n) : Watches n ics (x :: rest)
  | there {x : Slot} {rest : List Slot} (hn : x.imatch ≠ n) (h : Watches n ics rest) :
      Watches n ics (x :: rest)

/-- What the commands leave as it is in a slot. -/
def Slot.head (x : Slot) : Nat × Option Luat := (x.imatch, x.luat)

section Sums

variable {n : Nat} {ics : List Nat} {f : List (Option Aobj) → Int} {slots slots' : List Slot}
  {r : Row} {w : Whom}

@[simp] theorem balance_nil : balance n f [] = 0 := rfl

@[simp] theorem balance_append (a b : List Call) :
    balance n f (a ++ b) = balance n f a + balance n f b := by
  simp [balance]

@[simp] theorem weigh_nil : weigh ics f [] = 0 := rfl

@[simp] theorem weigh_cons (r : Row) (rows : List Row) :
    weigh ics f (r :: rows) = f (ics.map (getCol r)) + weigh ics f rows := rfl

theorem weigh_append (a b : List Row) : weigh ics f (a ++ b) = weigh ics f a + weigh ics f b := by
  simp [weigh]

theorem weigh_perm {a b : List Row} (h : a.Perm b) : weigh ics f a = weigh ics f b :=
  (h.map fun r => f (ics.map (getCol r))).sum_eq

theorem weigh_one (rows : List Row) : weigh ics (fun _ => 1) rows = rows.length := by
  simp [weigh]

theorem balance_other {x : Slot} (h : x.imatch ≠ n) : balance n f (luatDo w r x) = 0 := by
  unfold luatDo balance
  split
  · simp [h]
  · rfl

theorem balance_watched {x : Slot} {l : Luat} (hn : x.imatch = n) (hl : x.luat = some l)
    (hr : l.Reads ics) : balance n f (luatDo w r x) = w.sign * f (ics.map (getCol r)) := by
  obtain ⟨ltc, hc, hi⟩ := hr w
  simp [luatDo, balance, hl, hc, hi, hn]

theorem balance_others (h : ∀ y ∈ slots, y.imatch ≠ n) : balance n f (runTriggers w r slots) = 0 := by
  induction slots with
  | nil => rfl
  | cons x rest ih =>
      rw [runTriggers, List.flatMap_cons, balance_append, balance_other (h x List.mem_cons_self),
        zero_add]
      exact ih fun y hy => h y (List.mem_cons_of_mem x hy)

/-- A trigger is called once for a row. -/
theorem Watches.balance (hw : Watches n ics slots) :
    balance n f (runTriggers w r slots) = w.sign * f (ics.map (getCol r)) := by
  induction hw with
  | here hn hl hr h =>
      rw [runTriggers, List.flatMap_cons, balance_append, balance_watched hn hl hr]
      have := balance_others (f := f) (w := w) (r := r) h
      rw [runTriggers] at this
      rw [this, add_zero]
  | there hn _ ih =>
      rw [runTriggers, List.flatMap_cons, balance_append, balance_other hn, zero_add]
      exact ih

/-- A trigger stands where it stood. -/
theorem Watches.congr (hw : Watches n ics slots) :
    ∀ {slots' : List Slot}, slots'.map Slot.head = slots.map Slot.head → Watches n ics slots' := by
  have hnone : ∀ {a b : List Slot}, a.map Slot.head = b.map Slot.head →
      (∀ y ∈ b, y.imatch ≠ n) → ∀ y ∈ a, y.imatch ≠ n := by
    intro a b hab hb y hy
    have hmem : y.head ∈ b.map Slot.head := hab ▸ List.mem_map_of_mem hy
    obtain ⟨z, hz, hzy⟩ := List.mem_map.1 hmem
    exact fun hc => hb z hz ((congrArg Prod.fst hzy).trans hc)
  induction hw with
  | here hn hl hr h =>
      intro slots' he
      obtain ⟨y, rest, rfl, hy, hrest⟩ := List.map_eq_cons_iff.1 he
      exact .here ((congrArg Prod.fst hy).trans hn) ((congrArg Prod.snd hy).trans hl) hr
        (hnone hrest h)
  | there hn _ ih =>
      intro slots' he
      obtain ⟨y, rest, rfl, hy, hrest⟩ := List.map_eq_cons_iff.1 he
      exact .there (fun hc => hn ((congrArg Prod.fst hy).symm.trans hc)) (ih hrest)

end Sums

/-! ## The functions that go through the indexes -/

/-- Whether the first index that rejects the row stands behind the trigger `n`, which has been `seen`
or not. -/
def rejectsBehind (n : Nat) (r : Row) : Bool → List Slot → Bool
  | _, [] => false
  | seen, x :: rest =>
      if x.luat.isSome then rejectsBehind n r (seen || decide (x.imatch = n)) rest
      else if (x.ind.addToIndex r).1 then rejectsBehind n r seen rest
      else seen

/-- The row, when it is called for as if it was taken out, though it has not been called for as it
came. -/
def behind (n : Nat) (r : Row) (slots : List Slot) : List Row :=
  if rejectsBehind n r false slots then [r] else []

section Indexes

variable {n : Nat} {ics : List Nat} {f : List (Option Aobj) → Int} {x : Slot}
  {slots slots' rest : List Slot} {calls : List Call} {r : Row} {b : Bool}

/-- What `runFailableInsertIndexes` does with its first entry. -/
theorem failable_cons (h : runFailableInsertIndexes r (x :: rest) = some (b, slots', calls)) :
    (x.luat.isSome = true ∧ ∃ rest' cs, runFailableInsertIndexes r rest = some (b, rest', cs) ∧
      slots' = x :: rest' ∧ calls = if b then cs else luatDo .del r x ++ cs) ∨
    (x.luat.isSome = false ∧ (x.ind.addToIndex r).1 = true ∧ ∃ rest' y,
      runFailableInsertIndexes r rest = some (b, rest', calls) ∧
        slots' = { x with ind := y } :: rest') ∨
    (x.luat.isSome = false ∧ (x.ind.addToIndex r).1 = false ∧ b = false ∧ calls = [] ∧
      slots' = { x with ind := (x.ind.addToIndex r).2 } :: rest) := by
  unfold runFailableInsertIndexes at h
  cases hx : x.luat.isSome with
  | true =>
      rw [hx, if_pos rfl] at h
      obtain ⟨e, he, h⟩ := Option.map_eq_some_iff.1 h
      cases h
      exact .inl ⟨rfl, e.2.1, e.2.2, he, rfl, rfl⟩
  | false =>
      rw [hx, if_neg (by simp)] at h
      dsimp only at h
      cases ha : (x.ind.addToIndex r).1 with
      | true =>
          rw [ha, if_pos rfl] at h
          split at h
          · cases h
          · rename_i rest' cs hr
            cases h
            exact .inr (.inl ⟨rfl, rfl, rest', _, hr, rfl⟩)
          · rename_i rest' cs hr
            obtain ⟨y, -, h⟩ := Option.map_eq_some_iff.1 h
            cases h
            exact .inr (.inl ⟨rfl, rfl, rest', y, hr, rfl⟩)
      | false =>
          rw [ha, if_neg (by simp)] at h
          cases h
          exact .inr (.inr ⟨rfl, rfl, rfl, rfl, rfl⟩)

theorem failable_heads : ∀ {slots slots' : List Slot} {calls : List Call},
    runFailableInsertIndexes r slots = some (b, slots', calls) →
      slots'.map Slot.head = slots.map Slot.head
  | [], _, _, h => by
      cases h
      rfl
  | x :: rest, slots', calls, h => by
      obtain ⟨-, rest', cs, hr, rfl, -⟩ | ⟨-, -, rest', y, hr, rfl⟩ | ⟨-, -, -, -, rfl⟩ :=
        failable_cons h
      · rw [List.map_cons, List.map_cons, failable_heads hr]
      · rw [List.map_cons, List.map_cons, failable_heads hr]
        rfl
      · rfl

theorem rejectsBehind_trigger (hx : x.luat.isSome = true) : rejectsBehind n r b (x :: rest) =
    rejectsBehind n r (b || decide (x.imatch = n)) rest := by
  rw [rejectsBehind, if_pos hx]

theorem rejectsBehind_takes (hx : x.luat.isSome = false) (ha : (x.ind.addToIndex r).1 = true) :
    rejectsBehind n r b (x :: rest) = rejectsBehind n r b rest := by
  rw [rejectsBehind, hx, if_neg (by simp), if_pos ha]

theorem rejectsBehind_rejects (hx : x.luat.isSome = false) (ha : (x.ind.addToIndex r).1 = false) :
    rejectsBehind n r b (x :: rest) = b := by
  rw [rejectsBehind, hx, if_neg (by simp), ha, if_neg (by simp)]

/-- Behind a trigger every index counts. -/
theorem rejectsBehind_seen : ∀ {slots slots' : List Slot} {calls : List Call},
    runFailableInsertIndexes r slots = some (b, slots', calls) → rejectsBehind n r true slots = !b
  | [], _, _, h => by
      cases h
      rfl
  | x :: rest, slots', calls, h => by
      obtain ⟨hx, rest', cs, hr, -, -⟩ | ⟨hx, ha, rest', y, hr, -⟩ | ⟨hx, ha, rfl, -, -⟩ :=
        failable_cons h
      · rw [rejectsBehind_trigger hx, Bool.true_or, rejectsBehind_seen hr]
      · rw [rejectsBehind_takes hx ha, rejectsBehind_seen hr]
      · rw [rejectsBehind_rejects hx ha]
        rfl

theorem failable_others : ∀ {slots slots' : List Slot} {calls : List Call},
    (∀ y ∈ slots, y.imatch ≠ n) → runFailableInsertIndexes r slots = some (b, slots', calls) →
      balance n f calls = 0
  | [], _, _, _, h => by
      cases h
      rfl
  | x :: rest, slots', calls, hn, h => by
      have hrest : ∀ y ∈ rest, y.imatch ≠ n := fun y hy => hn y (List.mem_cons_of_mem x hy)
      obtain ⟨-, rest', cs, hr, -, rfl⟩ | ⟨-, -, rest', y, hr, -⟩ | ⟨-, -, -, rfl, -⟩ :=
        failable_cons h
      · have ih : balance n f cs = 0 := failable_others hrest hr
        cases b with
        | true => exact ih
        | false =>
            show balance n f (luatDo .del r x ++ cs) = 0
            rw [balance_append, balance_other (hn x List.mem_cons_self), ih, zero_add]
      · exact failable_others hrest hr
      · rfl

/-- The calls of the trigger take out the row that an index behind it rejects. -/
theorem failable_balance (hw : Watches n ics slots) : ∀ {slots' : List Slot} {calls : List Call},
    runFailableInsertIndexes r slots = some (b, slots', calls) →
      balance n f calls + weigh ics f (behind n r slots) = 0 := by
  induction hw with
  | @here x rest l hn hl hr hrest =>
      intro slots' calls h
      obtain ⟨hx, rest', cs, hrun, -, rfl⟩ | ⟨hx, -⟩ | ⟨hx, -⟩ := failable_cons h
      · have hb : behind n r (x :: rest) = if !b then [r] else [] := by
          unfold behind
          rw [rejectsBehind_trigger hx, Bool.false_or, decide_eq_true hn, rejectsBehind_seen hrun]
        have hcs := failable_others (f := f) hrest hrun
        rw [hb]
        cases b with
        | true =>
            show balance n f cs + 0 = 0
            rw [hcs, add_zero]
        | false =>
            show balance n f (luatDo .del r x ++ cs) + weigh ics f [r] = 0
            rw [balance_append, balance_watched hn hl hr, hcs]
            simp [Whom.sign]
      · rw [hl] at hx
        cases hx
      · rw [hl] at hx
        cases hx
  | @there x rest hn _ ih =>
      intro slots' calls h
      obtain ⟨hx, rest', cs, hrun, -, rfl⟩ | ⟨hx, ha, rest', y, hrun, -⟩ | ⟨hx, ha, -, rfl, -⟩ :=
        failable_cons h
      · have hb : behind n r (x :: rest) = behind n r rest := by
          unfold behind
          rw [rejectsBehind_trigger hx, decide_eq_false hn, Bool.or_false]
        rw [hb]
        cases b with
        | true => exact ih hrun
        | false =>
            show balance n f (luatDo .del r x ++ cs) + _ = 0
            rw [balance_append, balance_other hn, zero_add]
            exact ih hrun
      · have hb : behind n r (x :: rest) = behind n r rest := by
          unfold behind
          rw [rejectsBehind_takes hx ha]
        rw [hb]
        exact ih hrun
      · have hb : behind n r (x :: rest) = [] := by
          unfold behind
          rw [rejectsBehind_rejects hx ha]
          rfl
        rw [hb]
        rfl

/-- A row that no index rejects. -/
theorem behind_taken (hw : Watches n ics slots)
    (h : runFailableInsertIndexes r slots = some (true, slots', calls)) : behind n r slots = [] := by
  induction hw generalizing slots' calls with
  | @here x rest l hn hl hr hrest =>
      obtain ⟨hx, rest', cs, hrun, -⟩ | ⟨hx, -⟩ | ⟨hx, -⟩ := failable_cons h
      · unfold behind
        rw [rejectsBehind_trigger hx, Bool.false_or, decide_eq_true hn, rejectsBehind_seen hrun]
        rfl
      · rw [hl] at hx
        cases hx
      · rw [hl] at hx
        cases hx
  | @there x rest hn _ ih =>
      obtain ⟨hx, rest', cs, hrun, -⟩ | ⟨hx, ha, rest', y, hrun, -⟩ | ⟨-, -, hb, -⟩ :=
        failable_cons h
      · have := ih hrun
        unfold behind at this ⊢
        rwa [rejectsBehind_trigger hx, decide_eq_false hn, Bool.or_false]
      · have := ih hrun
        unfold behind at this ⊢
        rwa [rejectsBehind_takes hx ha]
      · cases hb

/-- `runDeleteIndexes` calls as the triggers are called for one row. -/
theorem runDelete_calls : ∀ {slots slots' : List Slot} {calls : List Call},
    runDeleteIndexes r slots = some (slots', calls) →
      slots'.map Slot.head = slots.map Slot.head ∧ calls = runTriggers .del r slots
  | [], _, _, h => by
      cases h
      exact ⟨rfl, rfl⟩
  | x :: rest, slots', calls, h => by
      unfold runDeleteIndexes at h
      cases hx : x.luat with
      | some l =>
          rw [if_pos (by simp [hx])] at h
          obtain ⟨e, he, h⟩ := Option.map_eq_some_iff.1 h
          cases h
          obtain ⟨h1, h2⟩ := runDelete_calls he
          refine ⟨?_, ?_⟩
          · rw [List.map_cons, List.map_cons, h1]
          · rw [h2]
            rfl
      | none =>
          rw [if_neg (by simp [hx])] at h
          split at h
          · rename_i y e hy he
            cases h
            obtain ⟨h1, h2⟩ := runDelete_calls he
            refine ⟨?_, ?_⟩
            · rw [List.map_cons, List.map_cons, h1]
              simp only [Slot.head, hx]
            · have hnone : luatDo .del r x = [] := by simp [luatDo, hx]
              rw [h2, runTriggers, runTriggers, List.flatMap_cons, hnone, List.nil_append]
          · cases h

theorem upEffected_heads {u : Sets} {orow nrow : Row} : ∀ {slots slots' : List Slot} {b : Bool},
    upEffectedFailableIndexes u orow nrow slots = some (b, slots') →
      slots'.map Slot.head = slots.map Slot.head
  | [], _, _, h => by
      cases h
      rfl
  | x :: rest, slots', b, h => by
      unfold upEffectedFailableIndexes at h
      split at h
      · dsimp only at h
        split at h
        · split at h
          · cases h
          · split at h
            · cases h
            · rename_i hr
              cases h
              rw [List.map_cons, List.map_cons, upEffected_heads hr]
              rfl
            · rename_i hr
              obtain ⟨z, -, h⟩ := Option.map_eq_some_iff.1 h
              cases h
              rw [List.map_cons, List.map_cons, upEffected_heads hr]
              rfl
        · cases h
          rfl
      · obtain ⟨e, he, h⟩ := Option.map_eq_some_iff.1 h
        cases h
        rw [List.map_cons, List.map_cons, upEffected_heads he]

end Indexes

/-! ## One row -/

/-- The table has gone from `t` to `t'`, and the trigger `n` has been called as the rows have changed,
but for the `lost` ones. -/
structure Delta (n : Nat) (ics : List Nat) (t t' : TTab) (calls : List Call) (lost : List Row) :
    Prop where
  heads : t'.slots.map Slot.head = t.slots.map Slot.head
  kind : t'.store.kind = t.store.kind
  sum : ∀ f, balance n f calls + weigh ics f lost + weigh ics f t.rows = weigh ics f t'.rows

section Rows

variable {n : Nat} {ics : List Nat} {t t' t₁ t₂ : TTab} {u : Sets} {old new r : Row} {cols : Cols}
  {calls calls' : List Call} {lost lost' : List Row} {b : Bool}

theorem Delta.refl (t : TTab) : Delta n ics t t [] [] :=
  ⟨rfl, rfl, fun f => by simp⟩

theorem Delta.trans (h : Delta n ics t t₁ calls lost) (h' : Delta n ics t₁ t₂ calls' lost') :
    Delta n ics t t₂ (calls ++ calls') (lost ++ lost') := by
  refine ⟨h'.heads.trans h.heads, h'.kind.trans h.kind, fun f => ?_⟩
  have h1 := h.sum f
  have h2 := h'.sum f
  rw [balance_append, weigh_append]
  omega

/-- A row is added. -/
theorem weigh_add (ics : List Nat) (r : Row) (hk : t.store.kind = .norm)
    (f : List (Option Aobj) → Int) :
    (t.store.add r.pk r.cols).kind = t.store.kind ∧
      weigh ics f ((t.store.add r.pk r.cols).ents.map asLive) =
        f (ics.map (getCol r)) + weigh ics f t.rows := by
  obtain ⟨h1, h2⟩ := add_live (keeps_plain (by rw [hk]; simp) r)
  exact ⟨h1, weigh_perm h2⟩

/-- A row is replaced by one with its primary key. -/
theorem weigh_replace (ics : List Nat) (old new : Row) (hk : t.store.kind = .norm)
    (hf : t.store.find old.pk = some old.cols) (hpk : new.pk = old.pk) {s : Store}
    (hs : t.store.replace old.pk new.cols = some s) (f : List (Option Aobj) → Int) :
    s.kind = t.store.kind ∧
      weigh ics f (s.ents.map asLive) + f (ics.map (getCol old)) =
        f (ics.map (getCol new)) + weigh ics f t.rows := by
  rw [← hpk] at hf hs
  obtain ⟨s', hs', hkind, rest, hp, hp'⟩ := replace_live (keeps_plain (by rw [hk]; simp) new) hf
  obtain rfl := Option.some.inj (hs.symm.trans hs')
  have hrow : (⟨new.pk, old.cols⟩ : Row) = old := by rw [hpk]
  rw [hrow] at hp
  refine ⟨hkind, ?_⟩
  rw [weigh_perm hp', TTab.rows, weigh_perm hp, weigh_cons, weigh_cons]
  ring

theorem weigh_del (ics : List Nat) (old : Row) (hk : t.store.kind = .norm)
    (hf : t.store.find old.pk = some old.cols) {s : Store} (hs : t.store.del old.pk = some s)
    (f : List (Option Aobj) → Int) : s.kind = t.store.kind ∧
      weigh ics f t.rows = f (ics.map (getCol old)) + weigh ics f (s.ents.map asLive) := by
  obtain ⟨s', hs', hkind, hp⟩ := del_live (key_plain (by rw [hk]; simp) old.pk) hf
  obtain rfl := Option.some.inj (hs.symm.trans hs')
  exact ⟨hkind, weigh_perm hp⟩

theorem replace_found {s s' : Store} {pk : Aobj} (hk : s.kind = .norm)
    (h : s.replace pk cols = some s') : ∃ c, s.find pk = some c := by
  have hkey := key_plain (s := s) (by rw [hk]; simp) pk
  rw [find_plain (by rw [hk]; simp)]
  unfold Store.replace at h
  rw [hkey] at h
  dsimp only at h
  cases hg : get? s.ents pk with
  | none =>
      rw [hg] at h
      dsimp only at h
      rw [if_pos hk] at h
      cases h
  | some c => exact ⟨c, rfl⟩

theorem insertRow_delta (hk : t.store.kind = .norm) (hw : Watches n ics t.slots) {repl : Bool}
    (h : insertRow t repl r = some (b, t', calls)) : Delta n ics t t' calls (behind n r t.slots) := by
  obtain ⟨⟨ok, slots, undone⟩, hrun, h⟩ := Option.bind_eq_some_iff.1 h
  have hheads := failable_heads hrun
  cases ok with
  | false =>
      cases h
      refine ⟨hheads, rfl, fun f => ?_⟩
      have := failable_balance (f := f) hw hrun
      show _ + weigh ics f t.rows = weigh ics f t.rows
      omega
  | true =>
      rw [behind_taken hw hrun]
      have hw' := hw.congr hheads
      have hadd : ∀ f, balance n f (runTriggers .add r slots) = 1 * f (ics.map (getCol r)) :=
        fun f => hw'.balance
      obtain ⟨⟨slots', dels⟩, hdel, h⟩ := Option.bind_eq_some_iff.1 h
      cases repl with
      | false =>
          cases hdel
          cases h
          refine ⟨hheads, (weigh_add ics r hk fun _ => 0).1, fun f => ?_⟩
          rw [balance_append, hadd, balance_nil, weigh_nil, add_zero, add_zero, one_mul]
          exact (weigh_add ics r hk f).2.symm
      | true =>
          obtain ⟨s, hs, h⟩ := Option.bind_eq_some_iff.1 h
          cases h
          obtain ⟨c, hf⟩ := replace_found hk hs
          rw [hf] at hdel
          obtain ⟨hheads', hdels⟩ := runDelete_calls hdel
          have hrep := weigh_replace ics ⟨r.pk, c⟩ r hk hf rfl hs
          refine ⟨hheads'.trans hheads, (hrep fun _ => 0).1, fun f => ?_⟩
          have hsum := (hrep f).2
          have hdel' : balance n f dels = -1 * f (ics.map (getCol ⟨r.pk, c⟩)) := by
            rw [hdels]
            exact hw'.balance
          rw [balance_append, hadd, hdel', weigh_nil]
          show _ = weigh ics f (s.ents.map asLive)
          omega

theorem insertNew_delta (hk : t.store.kind = .norm) (hw : Watches n ics t.slots) {repl : Bool}
    (h : insertNew t repl (t.tab.asRow r) = some (b, t', calls)) :
    Delta n ics t t' calls (behind n r t.slots) := by
  have hnull : t.tab.null (t.tab.asRow r) = false := by simp [Tab.null, TTab.tab, hk]
  unfold insertNew at h
  rw [hnull, if_neg (by simp), asRow_norm hk] at h
  exact insertRow_delta hk hw h

theorem deleteRow_delta {pk : Aobj} (hk : t.store.kind = .norm) (hw : Watches n ics t.slots)
    (h : deleteRow t pk = some (b, t', calls)) : Delta n ics t t' calls [] := by
  unfold deleteRow at h
  cases hf : t.store.find pk with
  | none =>
      rw [hf] at h
      cases h
      exact .refl t
  | some cols =>
      rw [hf] at h
      obtain ⟨⟨slots, dels⟩, hdel, h⟩ := Option.bind_eq_some_iff.1 h
      obtain ⟨s, hs, h⟩ := Option.bind_eq_some_iff.1 h
      cases h
      obtain ⟨hheads, hdels⟩ := runDelete_calls hdel
      have hrow := weigh_del ics ⟨pk, cols⟩ hk hf hs
      refine ⟨hheads, (hrow fun _ => 0).1, fun f => ?_⟩
      have hsum := (hrow f).2
      have hdel' : balance n f calls = -1 * f (ics.map (getCol ⟨pk, cols⟩)) := by
        rw [hdels]
        exact hw.balance
      show balance n f calls + 0 + weigh ics f t.rows = weigh ics f (s.ents.map asLive)
      omega

/-- An UPDATE that leaves the primary key alone. -/
theorem runUpdate_redo (hk : t.store.kind = .norm) (hw : Watches n ics t.slots)
    (h : runUpdate t u old new = some (t', calls)) (hu : u.pk = none)
    (hf : t.store.find old.pk = some old.cols) (hpk : new.pk = old.pk) :
    Delta n ics t t' calls [] ∧ t.store.replace old.pk new.cols = some t'.store ∧ t'.ncols = t.ncols := by
  unfold runUpdate at h
  dsimp only at h
  rw [hu, if_neg (by simp)] at h
  obtain ⟨⟨b, slots⟩, hrun, h⟩ := Option.bind_eq_some_iff.1 h
  obtain ⟨s, hs, h⟩ := Option.bind_eq_some_iff.1 h
  cases h
  have hheads := upEffected_heads hrun
  have hrep := weigh_replace ics old new hk hf hpk hs
  refine ⟨⟨hheads, (hrep fun _ => 0).1, fun f => ?_⟩, hs, rfl⟩
  have hsum := (hrep f).2
  have hpre : balance n f (runTriggers .preup old t.slots) = -1 * f (ics.map (getCol old)) :=
    hw.balance
  have hpost : balance n f (runTriggers .postup new slots) = 1 * f (ics.map (getCol new)) :=
    (hw.congr hheads).balance
  rw [balance_append, hpre, hpost, weigh_nil]
  show _ = weigh ics f (s.ents.map asLive)
  omega

/-- An UPDATE of the primary key gives the old row up twice. -/
theorem runUpdate_move (hk : t.store.kind = .norm) (hw : Watches n ics t.slots)
    (h : runUpdate t u old new = some (t', calls)) (hu : u.pk.isSome = true)
    (hf : t.store.find old.pk = some old.cols) :
    Delta n ics t t' calls (old :: behind n new t.slots) := by
  unfold runUpdate at h
  dsimp only at h
  rw [if_pos hu] at h
  obtain ⟨⟨b, slots, undone⟩, hrun, h⟩ := Option.bind_eq_some_iff.1 h
  obtain ⟨⟨slots', dels⟩, hdel, h⟩ := Option.bind_eq_some_iff.1 h
  obtain ⟨s, hs, h⟩ := Option.bind_eq_some_iff.1 h
  cases h
  have hheads := failable_heads hrun
  have hw₁ := hw.congr hheads
  obtain ⟨hheads', hdels⟩ := runDelete_calls hdel
  have hw₂ := hw₁.congr hheads'
  have hrow := weigh_del ics old hk hf hs
  have hks : s.kind = .norm := (hrow fun _ => 0).1.trans hk
  have hnew := weigh_add (t := { t with store := s }) ics new hks
  refine ⟨hheads'.trans hheads, ((hnew fun _ => 0).1).trans (hrow fun _ => 0).1, fun f => ?_⟩
  have hsum := (hrow f).2
  have hsum' : weigh ics f ((s.add new.pk new.cols).ents.map asLive) =
      f (ics.map (getCol new)) + weigh ics f (s.ents.map asLive) := (hnew f).2
  have hundone := failable_balance (f := f) hw hrun
  have hpre : balance n f (runTriggers .preup old t.slots) = -1 * f (ics.map (getCol old)) :=
    hw.balance
  have hdel' : balance n f dels = -1 * f (ics.map (getCol old)) := by
    rw [hdels]
    exact hw₁.balance
  have hpost : balance n f (runTriggers .postup new slots') = 1 * f (ics.map (getCol new)) :=
    hw₂.balance
  show balance n f (runTriggers .preup old t.slots ++ undone ++ dels ++
    runTriggers .postup new slots') + _ + _ = weigh ics f ((s.add new.pk new.cols).ents.map asLive)
  rw [balance_append, balance_append, balance_append, hpre, hdel', hpost, weigh_cons]
  omega

/-! ## Commands -/

theorem Watches.nltrgr (hw : Watches n ics t.slots) : t.nltrgr ≠ 0 := by
  have hmem : ∀ {slots : List Slot}, Watches n ics slots → ∃ x ∈ slots, x.luat.isSome = true := by
    intro slots hw
    induction hw with
    | here _ hl _ _ => exact ⟨_, List.mem_cons_self, by rw [hl]; rfl⟩
    | there _ _ ih =>
        obtain ⟨x, hx, hs⟩ := ih
        exact ⟨x, List.mem_cons_of_mem _ hx, hs⟩
  obtain ⟨x, hx, hs⟩ := hmem hw
  exact (List.countP_pos_iff.2 ⟨x, hx, hs⟩).ne'

/-- A row of a table with a trigger is written anew, or its UPDATE fails. -/
theorem planRow_watched (hk : t.store.kind = .norm) (hw : Watches n ics t.slots) :
    planRow t u old = (u.evalRow t.ncols old).elim .failed .newRow := by
  unfold planRow
  cases u.evalRow t.ncols old with
  | none => rfl
  | some new =>
      dsimp only
      rw [if_neg (fun h => hw.nltrgr h.1), asRow_norm hk]
      simp [handRow, TTab.tab, hk]

theorem evalRow_pk (hu : u.pk = none) (h : u.evalRow t.ncols old = some new) : new.pk = old.pk := by
  have := (evalRow_some h).1
  rw [hu] at this
  exact this

end Rows

/-- The UPDATE of a row gives it a new primary key. -/
def Moves (t : TTab) (u : Sets) (pk : Aobj) : Prop :=
  u.pk.any (fun e => (t.store.find e.checked).isSome) = false ∧ u.pk.isSome = true ∧
    ∃ cols, t.store.find pk = some cols ∧ (u.evalRow t.ncols ⟨pk, cols⟩).isSome = true

/-- A command has the trigger called for a row that goes, but not as it came: a row that an index
behind the trigger rejects, and the old row under a new primary key. -/
def Strays (n : Nat) (t : TTab) : Cmd → Prop
  | .insert (.upd u) r =>
      if (t.store.find r.pk).isSome then Moves t u r.pk
      else rejectsBehind n r false t.slots = true
  | .insert .insert r => t.store.find r.pk = none ∧ rejectsBehind n r false t.slots = true
  | .insert .repl r => rejectsBehind n r false t.slots = true
  | .update u pk => Moves t u pk
  | .range _ _ => False
  | .delete _ => False

/-- One of the commands strays. -/
def Strayed (n : Nat) : State → List Cmd → Prop
  | _, [] => False
  | s, c :: cmds => Strays n s.tab c ∨ ∃ s', s.exec c = some s' ∧ Strayed n s' cmds

section Commands

variable {n : Nat} {ics : List Nat} {t t' : TTab} {u : Sets} {r : Row} {pk : Aobj} {pks : List Aobj}
  {q q' : Queue} {calls : List Call} {b : Bool}

theorem behind_nil : behind n r t.slots = [] ↔ ¬ rejectsBehind n r false t.slots = true := by
  unfold behind
  split
  · rename_i h
    exact iff_of_false (by simp) fun hn => hn h
  · rename_i h
    exact iff_of_true rfl h

theorem updateSingle_delta (hk : t.store.kind = .norm) (hw : Watches n ics t.slots)
    (h : updateSingle t u pk = some (b, t', calls)) :
    ∃ lost, Delta n ics t t' calls lost ∧ (lost = [] ↔ ¬ Moves t u pk) := by
  unfold updateSingle at h
  cases hc : u.pk.any (fun e => (t.store.find e.checked).isSome) with
  | true =>
      rw [hc, if_pos rfl] at h
      cases h
      refine ⟨[], .refl t, fun _ hm => ?_, fun _ => rfl⟩
      have := hm.1
      rw [hc] at this
      cases this
  | false =>
      rw [hc, if_neg (by simp)] at h
      cases hf : t.store.find pk with
      | none =>
          rw [hf] at h
          cases h
          refine ⟨[], .refl t, fun _ hm => ?_, fun _ => rfl⟩
          obtain ⟨-, -, cols, hcols, -⟩ := hm
          rw [hf] at hcols
          cases hcols
      | some cols =>
          rw [hf] at h
          dsimp only at h
          rw [planRow_watched hk hw] at h
          cases he : u.evalRow t.ncols ⟨pk, cols⟩ with
          | none =>
              rw [he] at h
              cases h
              refine ⟨[], .refl t, fun _ hm => ?_, fun _ => rfl⟩
              obtain ⟨-, -, cols', hcols, hsome⟩ := hm
              rw [hf] at hcols
              cases hcols
              rw [he] at hsome
              cases hsome
          | some new =>
              rw [he] at h
              obtain ⟨e, hrun, h⟩ := Option.map_eq_some_iff.1 h
              cases h
              cases hu : u.pk with
              | none =>
                  have hdelta := (runUpdate_redo hk hw hrun hu hf (evalRow_pk hu he)).1
                  refine ⟨[], hdelta, fun _ hm => ?_, fun _ => rfl⟩
                  have := hm.2.1
                  rw [hu] at this
                  cases this
              | some x =>
                  have hs : u.pk.isSome = true := by rw [hu]; rfl
                  have hmoves : Moves t u pk := ⟨hc, hs, cols, hf, by rw [he]; rfl⟩
                  have hdelta := runUpdate_move hk hw hrun hs hf
                  exact ⟨_, hdelta, iff_of_false (List.cons_ne_nil _ _) fun hm => hm hmoves⟩

theorem insertCommit_delta {mode : Mode} (hk : t.store.kind = .norm) (hw : Watches n ics t.slots)
    (h : insertCommit t mode r = some (b, t', calls)) :
    ∃ lost, Delta n ics t t' calls lost ∧ (lost = [] ↔ ¬ Strays n t (.insert mode r)) := by
  unfold insertCommit at h
  cases mode with
  | insert =>
      cases hf : t.store.find r.pk with
      | some cols =>
          rw [hf] at h
          cases h
          refine ⟨[], .refl t, fun _ hs => ?_, fun _ => rfl⟩
          have := hs.1
          rw [hf] at this
          cases this
      | none =>
          rw [hf] at h
          exact ⟨_, insertNew_delta hk hw h, behind_nil.trans
            ⟨fun hr hs => hr hs.2, fun hs hr => hs ⟨hf, hr⟩⟩⟩
  | repl => exact ⟨_, insertNew_delta hk hw h, behind_nil⟩
  | upd u =>
      cases hf : t.store.find r.pk with
      | some cols =>
          rw [hf] at h
          obtain ⟨lost, hd, hl⟩ := updateSingle_delta hk hw h
          refine ⟨lost, hd, hl.trans ?_⟩
          rw [Strays, hf, if_pos Option.isSome_some]
      | none =>
          rw [hf] at h
          refine ⟨_, insertNew_delta hk hw h, behind_nil.trans ?_⟩
          rw [Strays, hf, if_neg (by simp)]

/-! ## Range UPDATE -/

/-- The old rows of a queue are there, each one once. -/
structure Pending (t : TTab) (q : Queue) : Prop where
  found : ∀ e ∈ q, t.store.find e.1.pk = some e.1.cols ∧ e.2.pk = e.1.pk
  nodup : (q.map fun e => e.1.pk).Nodup

theorem visited_nodup {sc : Scan} (h : sc.rows.Nodup) : sc.visited.Nodup := by
  unfold Scan.visited
  split
  · split
    · exact h.sublist (List.drop_sublist _ _)
    · exact h.sublist ((List.take_sublist _ _).trans (List.drop_sublist _ _))
  · exact h

/-- No row is written while the rows are gone through. -/
theorem updateRows_pending (hk : t.store.kind = .norm) (hw : Watches n ics t.slots) (hu : u.pk = none) :
    ∀ {pks : List Aobj} {b : Bool} {t' : TTab} {q' : Queue}, updateRows u t pks = some (b, t', q') →
      t' = t ∧ (pks.Nodup → Pending t q') ∧ ∀ e ∈ q', e.1.pk ∈ pks
  | [], _, _, _, h => by
      cases h
      exact ⟨rfl, fun _ => ⟨fun e he => (nomatch he), List.nodup_nil⟩, fun e he => (nomatch he)⟩
  | pk :: pks, _, _, q', h => by
      unfold updateRows at h
      cases hf : t.store.find pk with
      | none =>
          rw [hf] at h
          cases h
      | some cols =>
          rw [hf] at h
          dsimp only at h
          rw [planRow_watched hk hw] at h
          cases he : u.evalRow t.ncols ⟨pk, cols⟩ with
          | none =>
              rw [he] at h
              cases h
              exact ⟨rfl, fun _ => ⟨fun e he => (nomatch he), List.nodup_nil⟩,
                fun e he => (nomatch he)⟩
          | some new =>
              rw [he] at h
              obtain ⟨-, h⟩ := Option.ite_none_left_eq_some.1 h
              obtain ⟨e, hrun, h⟩ := Option.map_eq_some_iff.1 h
              cases h
              obtain ⟨ht, hpend, hin⟩ := updateRows_pending hk hw hu hrun
              refine ⟨ht, fun hnd => ?_, ?_⟩
              · obtain ⟨hnot, hnd⟩ := List.nodup_cons.1 hnd
                have hp := hpend hnd
                refine ⟨?_, ?_⟩
                · intro p hp'
                  rcases List.mem_cons.1 hp' with rfl | hp'
                  · exact ⟨hf, evalRow_pk hu he⟩
                  · exact hp.found p hp'
                · rw [List.map_cons, List.nodup_cons]
                  refine ⟨fun hmem => ?_, hp.nodup⟩
                  obtain ⟨p, hp', hpk⟩ := List.mem_map.1 hmem
                  have := hin p hp'
                  rw [hpk] at this
                  exact hnot this
              · intro p hp'
                rcases List.mem_cons.1 hp' with rfl | hp'
                · exact List.mem_cons_self
                · exact List.mem_cons_of_mem _ (hin p hp')

/-- The run over the queue: every row is still there when its turn comes. -/
theorem runUpdateQueue_delta (hu : u.pk = none) : ∀ {q : Queue} {t t' : TTab} {calls : List Call},
    t.store.kind = .norm → Watches n ics t.slots → Pending t q →
      runUpdateQueue u t q = some (t', calls) → Delta n ics t t' calls []
  | [], t, _, _, _, _, _, h => by
      cases h
      exact .refl t
  | e :: q, t, t', calls, hk, hw, hp, h => by
      unfold runUpdateQueue at h
      cases hr : runUpdate t u e.1 e.2 with
      | none =>
          rw [hr] at h
          cases h
      | some p =>
          obtain ⟨t₁, cs⟩ := p
          rw [hr] at h
          obtain ⟨p, hrun, h⟩ := Option.map_eq_some_iff.1 h
          cases h
          obtain ⟨hf, hpk⟩ := hp.found e List.mem_cons_self
          obtain ⟨hd, hrep, -⟩ := runUpdate_redo hk hw hr hu hf hpk
          have hnd := hp.nodup
          rw [List.map_cons, List.nodup_cons] at hnd
          rw [← hpk] at hf hrep
          have hpend : Pending t₁ q := by
            refine ⟨fun p hp' => ?_, hnd.2⟩
            obtain ⟨hfp, hpp⟩ := hp.found p (List.mem_cons_of_mem e hp')
            have hne : p.1.pk ≠ e.2.pk := by
              intro hc
              rw [hpk] at hc
              exact hnd.1 (List.mem_map.2 ⟨p, hp', hc⟩)
            have hkeep : Keeps t.store.kind e.2 := keeps_plain (by rw [hk]; simp) e.2
            have hkey := key_plain (s := t.store) (by rw [hk]; simp) p.1.pk
            exact ⟨(replace_find hkeep hf hrep hkey hne).2.trans hfp, hpp⟩
          exact hd.trans (runUpdateQueue_delta hu (hd.kind.trans hk) (hw.congr hd.heads) hpend hrun)

theorem shared_norm (hk : t.store.kind = .norm) (q : Queue) : sharedRows t.tab q = q := by
  unfold sharedRows
  split
  · rw [if_neg (by simp [TTab.tab, hk])]
  · rfl

theorem updateRange_delta {sc : Scan} (hk : t.store.kind = .norm) (hw : Watches n ics t.slots)
    (hnd : sc.rows.Nodup) (h : updateRange t u q sc = some (b, t', q', calls)) :
    Delta n ics t t' calls [] := by
  unfold updateRange at h
  cases hr : rangeRefused t.tab u with
  | true =>
      rw [hr, if_pos rfl] at h
      cases h
      exact .refl t
  | false =>
      have hu : u.pk = none := by simpa using (Bool.or_eq_false_iff.1 hr).1
      rw [hr, if_neg (by simp)] at h
      split at h
      · cases h
        exact .refl t
      · split at h
        · cases h
        · rename_i t₁ q₁ hrun
          obtain ⟨rfl, hpend, -⟩ := updateRows_pending hk hw hu hrun
          obtain ⟨-, h⟩ := Option.ite_none_right_eq_some.1 h
          obtain ⟨e, hq, h⟩ := Option.map_eq_some_iff.1 h
          cases h
          rw [shared_norm hk] at hq
          exact runUpdateQueue_delta hu hk hw (hpend (visited_nodup hnd)) hq
        · rename_i t₁ q₁ hrun
          obtain ⟨rfl, -, -⟩ := updateRows_pending hk hw hu hrun
          cases h
          exact .refl _

/-! ## Runs -/

theorem exec_delta {s s' : State} {c : Cmd} (hk : s.tab.store.kind = .norm)
    (hw : Watches n ics s.tab.slots) (hc : ∀ u sc, c = .range u sc → sc.rows.Nodup)
    (h : s.exec c = some s') : ∃ calls lost, s'.log = s.log ++ calls ∧
      Delta n ics s.tab s'.tab calls lost ∧ (lost = [] ↔ ¬ Strays n s.tab c) := by
  cases c with
  | insert mode r =>
      obtain ⟨e, hrun, rfl⟩ := Option.map_eq_some_iff.1 h
      obtain ⟨lost, hd, hl⟩ := insertCommit_delta hk hw hrun
      exact ⟨_, lost, rfl, hd, hl⟩
  | update u pk =>
      obtain ⟨e, hrun, rfl⟩ := Option.map_eq_some_iff.1 h
      obtain ⟨lost, hd, hl⟩ := updateSingle_delta hk hw hrun
      exact ⟨_, lost, rfl, hd, hl⟩
  | range u sc =>
      obtain ⟨e, hrun, rfl⟩ := Option.map_eq_some_iff.1 h
      exact ⟨_, [], rfl, updateRange_delta hk hw (hc u sc rfl) hrun, fun _ hs => hs, fun _ => rfl⟩
  | delete pk =>
      obtain ⟨e, hrun, rfl⟩ := Option.map_eq_some_iff.1 h
      exact ⟨_, [], rfl, deleteRow_delta hk hw hrun, fun _ hs => hs, fun _ => rfl⟩

/-- The range UPDATEs go through no row twice. -/
def OnceEach (cmds : List Cmd) : Prop := ∀ u sc, Cmd.range u sc ∈ cmds → sc.rows.Nodup

theorem run_delta : ∀ {cmds : List Cmd} {s s' : State}, s.tab.store.kind = .norm →
    Watches n ics s.tab.slots → OnceEach cmds → s.run cmds = some s' →
      ∃ calls lost, s'.log = s.log ++ calls ∧ Delta n ics s.tab s'.tab calls lost ∧
        (lost = [] ↔ ¬ Strayed n s cmds)
  | [], s, _, _, _, _, h => by
      cases h
      exact ⟨[], [], by simp, .refl _, fun _ hs => hs, fun _ => rfl⟩
  | c :: cmds, s, s', hk, hw, ho, h => by
      rw [State.run, List.foldlM_cons] at h
      obtain ⟨s₁, h₁, h⟩ := Option.bind_eq_some_iff.1 h
      obtain ⟨calls, lost, hlog, hd, hl⟩ := exec_delta hk hw
        (fun u sc hc => ho u sc (hc ▸ List.mem_cons_self)) h₁
      obtain ⟨calls', lost', hlog', hd', hl'⟩ := run_delta (hd.kind.trans hk) (hw.congr hd.heads)
        (fun u sc hc => ho u sc (List.mem_cons_of_mem c hc)) h
      refine ⟨calls ++ calls', lost ++ lost', ?_, hd.trans hd', ?_⟩
      · rw [hlog', hlog, List.append_assoc]
      · rw [List.append_eq_nil_iff, hl, hl']
        constructor
        · rintro ⟨hn, hn'⟩ (hs | ⟨s₂, h₂, hs⟩)
          · exact hn hs
          · obtain rfl := Option.some.inj (h₁.symm.trans h₂)
            exact hn' hs
        · intro hn
          exact ⟨fun hs => hn (.inl hs), fun hs => hn (.inr ⟨s₁, h₁, hs⟩)⟩

end Commands

/-- A trigger on the first column, all of whose commands call `f`, and behind it a unique index on
that column. -/
def counted : TTab :=
  let ltc : Ltc := ⟨"f", false, [1]⟩
  ⟨fun _ => .int, 1, ⟨.norm, []⟩,
    [⟨0, some ⟨some ltc, some ltc, some ltc, some ltc⟩, Ind.new .int .silent⟩,
      ⟨1, none, Ind.new .int (.uniq 1 .int)⟩]⟩

theorem counted_watches : Watches 0 [1] counted.slots :=
  .here rfl rfl (fun w => by cases w <;> exact ⟨_, rfl, rfl⟩) (by decide)

def ten (pk : Nat) : Cmd := .insert .insert ⟨.int pk, [some (.int 10)]⟩

end AlchemyDB.Table.Trigger
