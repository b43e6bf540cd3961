/-
# Index cursors — an index that is built in steps

CREATE INDEX with a LIMIT builds an index in steps.  One number, `ofst`, is the
count of rows to skip and, with the limit added, the greatest primary key of the
step.  It starts at 1, so the first row is never added; and a row is added as
often as there are steps that cover it.
-/
import Mathlib.Data.List.Nodup
import AlchemyDB.Lib.Stretch
import AlchemyDB.Index.Take
import AlchemyDB.Table.Model

namespace AlchemyDB.Table

open Index Stretch

/-! ## The command -/

/-- A primary key that is a number. -/
def pkNum : Aobj → Nat
  | .int i => i
  | .long l => l
  | .u128 x => x
  | .text _ => 0

/-- A bound as a key of the table. -/
def asBound : KType → Nat → Nat
  | .int, n => n % 4294967296
  | _, n => n

/-- The loop of `buildIndex` with `iAddStream`; it stops at a row that the index rejects. -/
def addRows : List Row → Ind → Option Ind
  | [], x => some x
  | r :: rows, x => if (x.addToIndex r).1 then addRows rows (x.addToIndex r).2 else none

/-- The rows of `btGetXthIter` from the key 0 on: `ofst` rows are skipped.  In a packed tree the key 0
is the null pointer, and there are no rows. -/
def xthRows (t : Tab) (ofst final : Nat) : List Row :=
  if t.store.kind = .uu then []
  else (t.live.drop ofst).takeWhile fun r => pkNum r.pk ≤ asBound (t.ty 0) final

/-- An index that is being built. -/
structure Cursor where
  ofst : Nat
  done : Bool
  ind : Ind
  /-- The rows that were added, for the statements below. -/
  log : List Row

/-- `buildNewIndex` and `buildIndex`. -/
def buildIndex (t : Tab) (limit : Nat) (c : Cursor) : Option Cursor :=
  if t.live = [] then some c
  else
    let final := c.ofst + limit
    let rows := xthRows t c.ofst final
    (addRows rows c.ind).map fun x => ⟨final, decide (t.live.length ≤ final), x, c.log ++ rows⟩

/-- `m` commands CREATE INDEX with a LIMIT.  Once the index is done the command is refused, and it
fails from the first row on that the index rejects. -/
def cursorBuild (t : Tab) (k : Kind) (limit : Nat) : Nat → Option Cursor
  | 0 => some ⟨1, false, Ind.new (t.ty 0) k, []⟩
  | m + 1 =>
      match cursorBuild t k limit m with
      | none => none
      | some c => if c.done then none else buildIndex t limit c

/-! ## What a step covers -/

/-- The step `j` covers the row with the number `i`. -/
def covers (t : Tab) (limit j i : Nat) (r : Row) : Prop :=
  t.store.kind ≠ .uu ∧ 1 + j * limit ≤ i ∧ pkNum r.pk ≤ asBound (t.ty 0) (1 + j * limit + limit)

instance (t : Tab) (limit j i : Nat) (r : Row) : Decidable (covers t limit j i r) :=
  inferInstanceAs (Decidable (_ ∧ _))

/-- Every row is covered by one step, or it is covered by none and leaves the index of the rows
before it as it is. -/
def Covered (t : Tab) (k : Kind) (limit : Nat) : Prop :=
  ∀ i r, t.live[i]? = some r →
    (∃ j, covers t limit j i r ∧ ∀ j', covers t limit j' i r → j' = j) ∨
    ((∀ j, ¬ covers t limit j i r) ∧ ∀ x, addRows (t.live.take i) (Ind.new (t.ty 0) k) = some x →
      x.addToIndex r = (true, x))

/-- The rows are in the order of their primary keys. -/
def Ordered (rows : List Row) : Prop := rows.Pairwise fun r r' => pkNum r.pk < pkNum r'.pk

/-! ## The rows of the steps -/

variable {t : Tab} {k : Kind} {limit m : Nat} {c : Cursor} {x y : Ind} {r : Row}

theorem addRows_append : ∀ (l l' : List Row) (x : Ind),
    addRows (l ++ l') x = (addRows l x).bind (addRows l')
  | [], _, _ => rfl
  | r :: l, l', x => by
      simp only [List.cons_append, addRows]
      split
      · exact addRows_append l l' _
      · rfl

/-- The step `j` adds the rows it covers. -/
theorem xthRows_eq (ho : Ordered t.live) (j : Nat) :
    xthRows t (1 + j * limit) (1 + j * limit + limit) =
      (t.live.zipIdx.filter fun e => decide (covers t limit j e.2 e.1)).map Prod.fst := by
  unfold xthRows covers
  by_cases hk : t.store.kind = .uu
  · rw [if_pos hk]
    symm
    rw [List.map_eq_nil_iff, List.filter_eq_nil_iff]
    simp [hk]
  · rw [if_neg hk, drop_takeWhile (s := 0)]
    · congr 2
      funext e
      simp [hk]
    · refine ho.imp fun {a b} hab hb => ?_
      simp only [decide_eq_true_eq] at hb ⊢
      omega

/-- After `m` commands. -/
theorem cursorBuild_state (hne : t.live ≠ []) : ∀ {m : Nat} {c : Cursor},
    cursorBuild t k limit m = some c →
      c.ofst = 1 + m * limit ∧ addRows c.log (Ind.new (t.ty 0) k) = some c.ind ∧
      c.log = (List.range m).flatMap (fun j => xthRows t (1 + j * limit) (1 + j * limit + limit)) ∧
      (c.done = true → t.live.length ≤ 1 + m * limit)
  | 0, c, h => by
      cases h
      exact ⟨by simp, rfl, rfl, fun h => nomatch h⟩
  | m + 1, c, h => by
      simp only [cursorBuild] at h
      cases hm : cursorBuild t k limit m with
      | none => simp [hm] at h
      | some c₀ =>
          obtain ⟨h1, h2, h3, h4⟩ := cursorBuild_state hne hm
          simp only [hm] at h
          split at h
          · cases h
          · unfold buildIndex at h
            rw [if_neg hne] at h
            obtain ⟨x, hx, rfl⟩ := Option.map_eq_some_iff.1 h
            have hsucc : 1 + m * limit + limit = 1 + (m + 1) * limit := by
              rw [Nat.add_mul]
              omega
            rw [h1] at hx
            refine ⟨by simp only [h1, hsucc], ?_, ?_, ?_⟩
            · simp only [h1]
              rw [addRows_append, h2, Option.bind_some, hx]
            · simp only [h1]
              rw [h3, List.range_succ, List.flatMap_append]
              simp
            · simp only [h1, hsucc, decide_eq_true_eq]
              exact id

/-- A row is covered at most once. -/
def Once (t : Tab) (limit : Nat) : Prop :=
  ∀ i r, t.live[i]? = some r → ∀ j j', covers t limit j i r → covers t limit j' i r → j = j'

/-- Where no row is covered twice, the rows are added in their order. -/
theorem steps_filter (ho : Ordered t.live) (h1 : Once t limit) : ∀ m : Nat,
    (List.range m).flatMap (fun j => xthRows t (1 + j * limit) (1 + j * limit + limit)) =
      (t.live.zipIdx.filter fun e =>
        (List.range m).any fun j => decide (covers t limit j e.2 e.1)).map Prod.fst
  | 0 => by simp
  | m + 1 => by
      rw [List.range_succ, List.flatMap_append, steps_filter ho h1 m]
      simp only [List.flatMap_cons, List.flatMap_nil, List.append_nil, xthRows_eq ho]
      rw [← List.map_append, filter_append_filter]
      · simp
      · rintro e he ⟨hp, hq⟩
        obtain ⟨j, hj, hc⟩ := List.any_eq_true.1 hp
        have := h1 _ _ (List.mem_zipIdx_iff_getElem?.1 he) _ _ (of_decide_eq_true hc) (of_decide_eq_true hq)
        have := List.mem_range.1 hj
        omega
      · have hpw : t.live.zipIdx.Pairwise (fun e e' => pkNum e.1.pk < pkNum e'.1.pk) := by
          rw [← List.pairwise_map (f := Prod.fst) (R := fun r r' : Row => pkNum r.pk < pkNum r'.pk),
            List.zipIdx_map_fst]
          exact ho
        refine hpw.imp_of_mem ?_
        rintro e e' he _ hlt ⟨hq, hp⟩
        obtain ⟨j, hj, hc⟩ := List.any_eq_true.1 hp
        have hm := List.mem_range.1 hj
        obtain ⟨hk, hofs, _⟩ := of_decide_eq_true hq
        obtain ⟨_, _, hb⟩ := of_decide_eq_true hc
        -- the later row is covered by `j`, so the earlier one is, too
        have hjm : j * limit ≤ m * limit := Nat.mul_le_mul_right _ (by omega)
        have hj' : covers t limit j e.2 e.1 := ⟨hk, by omega, by omega⟩
        have := h1 _ _ (List.mem_zipIdx_iff_getElem?.1 he) _ _ hj' (of_decide_eq_true hq)
        omega

/-- A row that is covered is covered by one of the commands that were given. -/
theorem covers_lt {i j : Nat} (hl : 0 < limit) (hlen : t.live.length ≤ 1 + m * limit)
    (hr : t.live[i]? = some r) (hc : covers t limit j i r) : j < m := by
  have hi := (List.getElem?_eq_some_iff.1 hr).1
  have hjm : j * limit < m * limit := by
    have := hc.2.1
    omega
  exact Nat.lt_of_mul_lt_mul_right hjm

/-- Rows that leave the index as it is can be left out. -/
theorem addRows_filter {p : Row × Nat → Bool} : ∀ {l : List Row} {s : Nat} {x : Ind},
    (∀ i r, l[i]? = some r → p (r, s + i) = false →
      ∀ y, addRows (l.take i) x = some y → y.addToIndex r = (true, y)) →
    addRows (((l.zipIdx s).filter p).map Prod.fst) x = addRows l x
  | [], _, _, _ => rfl
  | a :: l, s, x, h => by
      rw [List.zipIdx_cons, List.filter_cons]
      cases hp : p (a, s) with
      | true =>
          simp only [if_true, List.map_cons, addRows]
          split
          · rename_i ha
            refine addRows_filter fun i r hr hpi y hy => h (i + 1) r (by simpa using hr) ?_ y ?_
            · rw [show s + (i + 1) = s + 1 + i by omega]
              exact hpi
            · rw [List.take_succ_cons]
              simp only [addRows, ha, if_true, hy]
          · rfl
      | false =>
          have ha := h 0 a rfl hp x rfl
          simp only [Bool.false_eq_true, if_false, addRows, ha, if_true]
          refine addRows_filter fun i r hr hpi y hy => h (i + 1) r (by simpa using hr) ?_ y ?_
          · rw [show s + (i + 1) = s + 1 + i by omega]
            exact hpi
          · rw [List.take_succ_cons]
            simp only [addRows, ha, if_true, hy]

theorem Covered.once (h : Covered t k limit) : Once t limit := by
  intro i r hr j j' hj hj'
  rcases h i r hr with ⟨w, _, hw⟩ | ⟨hn, _⟩
  · rw [hw j hj, hw j' hj']
  · exact absurd hj (hn j)

theorem Ordered.nodup (ho : Ordered t.live) : t.live.Nodup :=
  ho.imp fun {a b} hab heq => by
    rw [heq] at hab
    exact Nat.lt_irrefl _ hab

/-- The rows of the steps, each once. -/
theorem Once.nodup (ho : Ordered t.live) (h : Once t limit) (m : Nat) :
    ((List.range m).flatMap fun j => xthRows t (1 + j * limit) (1 + j * limit + limit)).Nodup := by
  rw [steps_filter ho h m]
  refine ho.nodup.sublist ?_
  have hsub := (List.filter_sublist (p := fun e : Row × Nat =>
    (List.range m).any fun j => decide (covers t limit j e.2 e.1)) (l := t.live.zipIdx)).map Prod.fst
  rwa [List.zipIdx_map_fst] at hsub

theorem mem_xthRows (ho : Ordered t.live) {i j : Nat} (hr : t.live[i]? = some r)
    (hc : covers t limit j i r) : r ∈ xthRows t (1 + j * limit) (1 + j * limit + limit) := by
  rw [xthRows_eq ho]
  refine List.mem_map.2 ⟨(r, i), List.mem_filter.2 ⟨?_, decide_eq_true hc⟩, rfl⟩
  exact List.mem_zipIdx_iff_getElem?.2 hr

/-- Rows that were added once are covered once. -/
theorem once_of_nodup (ho : Ordered t.live) (hl : 0 < limit)
    (hlen : t.live.length ≤ 1 + m * limit)
    (hnd : ((List.range m).flatMap fun j =>
      xthRows t (1 + j * limit) (1 + j * limit + limit)).Nodup) : Once t limit := by
  intro i r hr j j' hj hj'
  by_contra hne
  obtain ⟨_, hpw⟩ := List.nodup_flatMap.1 hnd
  have hd : ∀ a < m, ∀ b < m, a < b → List.Disjoint (xthRows t (1 + a * limit) (1 + a * limit + limit))
      (xthRows t (1 + b * limit) (1 + b * limit + limit)) := by
    intro a ha b hb hab
    have := List.pairwise_iff_getElem.1 hpw a b (by simpa using ha) (by simpa using hb) hab
    simpa using this
  have h1 := covers_lt hl hlen hr hj
  have h2 := covers_lt hl hlen hr hj'
  rcases Nat.lt_or_gt_of_ne hne with h | h
  · exact hd j h1 j' h2 h (mem_xthRows ho hr hj) (mem_xthRows ho hr hj')
  · exact hd j' h2 j h1 h (mem_xthRows ho hr hj') (mem_xthRows ho hr hj)

/-! ## The index against the one built in one go -/

/-- The index takes every row of the table as it is, whichever rows it holds already. -/
def TakesAll (t : Tab) (k : Kind) : Prop :=
  ∀ r ∈ t.live, r.Of t.ty ∧ ∀ (live : List Row) (x : Ind), (∀ p ∈ live, p ∈ t.live) → x.kind = k →
    Takes t.ty live x r

theorem addRows_synced (ht : TakesAll t k) : ∀ {l live : List Row} {x y : Ind}, x.kind = k →
    Synced t.ty live x → (∀ p ∈ live, p ∈ t.live) → (∀ p ∈ l, p ∈ t.live) → addRows l x = some y →
    y.kind = k ∧ Synced t.ty (l.reverse ++ live) y
  | [], live, x, y, hk, hs, _, _, h => by
      cases h
      exact ⟨hk, hs⟩
  | r :: l, live, x, y, hk, hs, hlive, hl, h => by
      simp only [addRows] at h
      split at h
      · rename_i ha
        have hr := hl r List.mem_cons_self
        obtain ⟨hty, htk⟩ := ht r hr
        have hs' := hs.takes hty (htk live x hlive hk) ha
        have := addRows_synced ht (by rw [Ind.addToIndex_kind, hk]) hs'
          (fun p hp => by
            rcases List.mem_cons.1 hp with rfl | hp
            · exact hr
            · exact hlive p hp)
          (fun p hp => hl p (List.mem_cons_of_mem _ hp)) h
        rwa [List.reverse_cons, List.append_assoc]
      · cases h

/-- What an index that has taken the rows holds. -/
theorem addRows_rows (hm : k.multi = true → k.depth ≠ 0) (ht : TakesAll t k) {l : List Row}
    (hl : ∀ p ∈ l, p ∈ t.live) (h : addRows l (Ind.new (t.ty 0) k) = some x) :
    (Nest.rows k.depth x.tree).Perm (l.filterMap k.image) := by
  obtain ⟨hk, hs⟩ := addRows_synced ht rfl (Synced.new k hm)
    (fun p hp => absurd hp List.not_mem_nil) hl h
  have hrows := hs.holds.rows
  rw [hk, List.append_nil] at hrows
  exact hrows.trans (l.reverse_perm.filterMap _)

/-- A row without an image leaves the index of the rows before it as it is. -/
theorem blank_noop (hm : k.multi = true → k.depth ≠ 0) (ht : TakesAll t k) {i : Nat}
    (hr : t.live[i]? = some r) (hx : addRows (t.live.take i) (Ind.new (t.ty 0) k) = some x)
    (hy : addRows t.live (Ind.new (t.ty 0) k) = some y) (hi : k.image r = none) :
    x.addToIndex r = (true, x) := by
  obtain ⟨hk, hs⟩ := addRows_synced ht rfl (Synced.new k hm)
    (fun p hp => absurd hp List.not_mem_nil) (fun p hp => List.mem_of_mem_take hp) hx
  have htk := (ht r (List.mem_of_getElem? hr)).2 [] x (fun p hp => absurd hp List.not_mem_nil) hk
  obtain rfl := hk
  have hpass : x.kind.Passes r x.tree := by simpa only [Takes, hi] using htk
  have hacc : (x.addToIndex r).1 = true := by
    obtain ⟨hlt, hget⟩ := List.getElem?_eq_some_iff.1 hr
    have hsplit : t.live = t.live.take i ++ r :: t.live.drop (i + 1) := by
      rw [← hget, ← List.drop_eq_getElem_cons hlt, List.take_append_drop]
    rw [hsplit, addRows_append, hx, Option.bind_some] at hy
    simp only [addRows] at hy
    split at hy
    · assumption
    · cases hy
  exact Prod.ext hacc (Ind.addToIndex_blank hs.holds.ok hi hpass)

/-- An empty table is never done. -/
theorem cursorBuild_empty (hnil : t.live = []) : ∀ {m : Nat} {c : Cursor},
    cursorBuild t k limit m = some c → c.done = false
  | 0, c, h => by
      cases h
      rfl
  | m + 1, c, h => by
      simp only [cursorBuild] at h
      cases hm : cursorBuild t k limit m with
      | none => simp [hm] at h
      | some c₀ =>
          have ih := cursorBuild_empty hnil hm
          simp only [hm, ih, Bool.false_eq_true, if_false, buildIndex, hnil, if_true,
            Option.some.injEq] at h
          rw [← h]
          exact ih

end AlchemyDB.Table
