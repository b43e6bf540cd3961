/-
# `updateLfu` — the LFU index of a table

The index has a bucket for every logarithm of a number of accesses.  An access reads the
number of the row, writes the next one over it, and moves the row from the bucket of the
one to the bucket of the other.  As long as the reader of LFU columns sees the whole
number, every row stands in the bucket of its number and in no other.
-/
import AlchemyDB.Format.Counter
import AlchemyDB.Index.Holds

namespace AlchemyDB.Index.Lfu

open Assoc Bytes Format

/-! ## The index -/

/-- What the index has of a row. -/
def entry (pk : Aobj) (b : Nat) : Row := ⟨pk, [some (.long b)]⟩

/-- `createLfuIndex`: not unique, and without ORDER BY. -/
def kind : Kind := .single 1 none

/-- `floor(log2(l)) + 1`, with the `floor(log2(l))` of the C library; of 0 there is none. -/
def bucket (log2 : Nat → Nat) (l : Nat) : Option Nat := if l = 0 then none else some (log2 l + 1)

/-- `upIndex`, for an LFU index and one primary key. -/
def upIndex (log2 : Nat → Nat) (x : Ind) (apk : Aobj) (ocol ncol : Nat) : Option Ind :=
  match bucket log2 ocol, bucket log2 ncol with
  | some o, some n =>
      if n = o then some x
      else if (x.addToIndex (entry apk n)).1 = false then some (x.addToIndex (entry apk n)).2
      else (x.addToIndex (entry apk n)).2.delFromIndex (entry apk o)
  | _, _ => none

/-! ## The table -/

/-- The LFU columns of the rows, where they are in memory, and the index.  Rows that are older than
the index have no LFU column yet. -/
structure Table where
  rows : List (Aobj × Option (Nat → UInt8))
  ind : Ind

/-- `getCol` of the LFU column. -/
def getLfuCol (m : Nat → UInt8) : Nat := (sI2I m 0 false).1

/-- `getLfu`. -/
def getLfu (num : Nat) : Nat := (num + 1) % 18446744073709551616

/-- The LFU column of a row that `updateRow` writes because it has none. -/
def firstCol : Nat → UInt8 :=
  follow (wUCol (cLFUcol (getLfu 0)).sflag (cLFUcol (getLfu 0)).col false) fun _ => 0

/-- `updateLfu`, on an access to a row. -/
def updateLfu (log2 : Nat → Nat) (t : Table) (apk : Aobj) : Option Table :=
  match get? t.rows apk with
  | none => some t
  | some (some lfuc) =>
      let num := streamLFUToULong lfuc 0
      let nnum := (num + 1) % 18446744073709551616
      (upIndex log2 t.ind apk num nnum).map fun x =>
        ⟨Assoc.set apk (some (overwriteLFUcol lfuc 0 nnum)) t.rows, x⟩
  | some none =>
      (bucket log2 (getLfuCol firstCol)).map fun b =>
        ⟨Assoc.set apk (some firstCol) t.rows, (t.ind.addToIndex (entry apk b)).2⟩

/-- Accesses, one after the other. -/
def accesses (log2 : Nat → Nat) : Table → List Aobj → Option Table
  | t, [] => some t
  | t, apk :: apks => (updateLfu log2 t apk).bind fun t' => accesses log2 t' apks

/-! ## In step -/

/-- The bucket that each row should be in. -/
def live (log2 : Nat → Nat) (rows : List (Aobj × Option (Nat → UInt8))) : List Row :=
  rows.filterMap fun e => e.2.map fun m => entry e.1 (log2 (getLfuCol m) + 1)

/-- An LFU column that holds a number. -/
def Counts (m : Nat → UInt8) (l : Nat) : Prop :=
  0 < l ∧ l < 576460752303423488 ∧ Stands m 0 (le 8 (l * 32 + 16))

/-- The index has every row under the bucket of its number, and nothing else. -/
structure InStep (log2 : Nat → Nat) (ty : Nat → KType) (t : Table) : Prop where
  kind : t.ind.kind = kind
  nodup : (t.rows.map Prod.fst).Nodup
  long : ty 1 = .long
  typed : ∀ e ∈ t.rows, e.1.ktype = ty 0
  counts : ∀ e ∈ t.rows, ∀ m, e.2 = some m → ∃ l, Counts m l
  holds : Holds ty (live log2 t.rows) t.ind

/-- What an access has to avoid: a number that the reader does not see as a whole, a primary key
that is taken for the null pointer, and removals from node trees of U128 keys with more than one
node. -/
def Safe (log2 : Nat → Nat) (t : Table) (apk : Aobj) : Prop :=
  apk.isNull = false ∧ ∀ m, get? t.rows apk = some (some m) → getLfuCol m < 134217728 ∧
    (apk.ktype = .u128 →
      (live log2 t.rows).countP (fun r => r.cols = [some (.long (log2 (getLfuCol m) + 1))]) ≤ 7)

/-- Every access is safe when it comes. -/
def AllSafe (log2 : Nat → Nat) : Table → List Aobj → Prop
  | _, [] => True
  | t, apk :: apks => Safe log2 t apk ∧ ∀ t', updateLfu log2 t apk = some t' → AllSafe log2 t' apks

variable {log2 : Nat → Nat} {ty : Nat → KType} {t : Table} {x : Ind} {apk : Aobj} {b : Nat}
  {rows : List Row}

/-! ## Buckets -/

theorem entry_of (hp : apk.ktype = ty 0) (hty : ty 1 = .long) : (entry apk b).Of ty := by
  intro j v h
  match j with
  | 0 =>
    cases h
    exact hp
  | 1 =>
    cases h
    exact hty.symm
  | j + 2 => cases h

theorem image_entry (apk : Aobj) (b : Nat) :
    kind.image (entry apk b) = some ([.long b], (apk, apk)) := rfl

/-- All that the index has are entries. -/
theorem mem_live {e : Row} {cs : List (Aobj × Option (Nat → UInt8))} (h : e ∈ live log2 cs) :
    ∃ pk b, e = entry pk b := by
  obtain ⟨c, -, hc⟩ := List.mem_filterMap.1 h
  obtain ⟨m, -, rfl⟩ := Option.map_eq_some_iff.1 hc
  exact ⟨_, _, rfl⟩

theorem addToIndex_true (hk : x.kind = kind) (h : Holds ty rows x) (hr : (entry apk b).Of ty) :
    (x.addToIndex (entry apk b)).1 = true := by
  have hfst := h.tried_fst hr (hk ▸ image_entry apk b)
  rw [hk] at hfst
  have hok : (x.tried (entry apk b)).1 = .ok := hfst
  rw [Ind.addToIndex_ok hok]

/-- A row is added to a bucket. -/
theorem holds_add (hk : x.kind = kind) (h : Holds ty rows x) (hr : (entry apk b).Of ty)
    (hrows : ∀ r ∈ rows, ∃ pk b, r = entry pk b) (hn : apk.isNull = false) :
    Holds ty (entry apk b :: rows) (x.addToIndex (entry apk b)).2 := by
  refine h.add hr (q := ([.long b], (apk, apk))) (hk ▸ image_entry apk b) ?_ ?_
    (addToIndex_true hk h hr)
  · rw [hk]
    have hp : apk.ktype = ty 0 := hr.pk
    show Stored (.inode (ty 0)) apk apk
    rw [← hp]
    exact stored_inode hn
  · intro e he heq
    obtain ⟨r, hr, hi⟩ := List.mem_filterMap.1 he
    obtain ⟨pk, b', rfl⟩ := hrows r hr
    rw [hk, image_entry] at hi
    cases hi
    exact heq

/-- A row is removed from its bucket. -/
theorem holds_rem (hk : x.kind = kind) (h : Holds ty rows x) (hr : (entry apk b).Of ty)
    (hrows : ∀ r ∈ rows, ∃ pk b, r = entry pk b) (hn : apk.isNull = false)
    (hm : entry apk b ∈ rows)
    (hg : apk.ktype = .u128 → rows.countP (fun r => r.cols = [some (.long b)]) ≤ 7) :
    ∃ y, x.delFromIndex (entry apk b) = some y ∧ Holds ty (rows.erase (entry apk b)) y := by
  have hp : apk.ktype = ty 0 := hr.pk
  refine h.rem hm (q := ([.long b], (apk, apk))) (hk ▸ image_entry apk b) ?_ ?_
  · rw [hk]
    show createBTKey (.inode (ty 0)) (some apk) = some apk
    rw [← hp]
    exact (stored_inode hn).1
  · rw [hk]
    intro hu
    have hu : LKind.inode (ty 0) = .inode .u128 := hu
    refine Nat.le_trans ?_ (hg (hp.trans (LKind.inode.inj hu)))
    rw [List.countP_filterMap]
    refine List.countP_mono_left fun r hr he => ?_
    obtain ⟨pk, b', rfl⟩ := hrows r hr
    rw [image_entry] at he
    simpa [entry] using he

theorem Holds.perm {rows' : List Row} (h : Holds ty rows x) (hp : rows.Perm rows') :
    Holds ty rows' x :=
  ⟨h.ok, h.rows.trans (hp.filterMap _)⟩

/-! ## One access -/

theorem getLfuCol_of {m : Nat → UInt8} {l : Nat} (h : Counts m l) : getLfuCol m = l :=
  congrArg Prod.fst (sI2I_eight h.2.1 h.2.2)

theorem live_perm (log2 : Nat → Nat) {cs cs' : List (Aobj × Option (Nat → UInt8))} (h : cs.Perm cs') :
    (live log2 cs).Perm (live log2 cs') := h.filterMap _

theorem live_none (pk : Aobj) (cs : List (Aobj × Option (Nat → UInt8))) :
    live log2 ((pk, none) :: cs) = live log2 cs := rfl

theorem live_some (pk : Aobj) {m : Nat → UInt8} {l : Nat} (h : Counts m l)
    (cs : List (Aobj × Option (Nat → UInt8))) :
    live log2 ((pk, some m) :: cs) = entry pk (log2 l + 1) :: live log2 cs := by
  rw [← getLfuCol_of h]
  rfl

/-- The row moves from one bucket to the next, unless they are the same. -/
theorem upIndex_holds (hk : x.kind = kind) {cs : List (Aobj × Option (Nat → UInt8))} {o n : Nat}
    (ho : 0 < o) (hnn : 0 < n)
    (h : Holds ty (entry apk (log2 o + 1) :: live log2 cs) x) (hty : ty 1 = .long)
    (hp : apk.ktype = ty 0) (hn : apk.isNull = false)
    (hg : apk.ktype = .u128 → (entry apk (log2 o + 1) :: live log2 cs).countP
      (fun r => r.cols = [some (.long (log2 o + 1))]) ≤ 7) :
    ∃ y, upIndex log2 x apk o n = some y ∧ y.kind = kind ∧
      Holds ty (entry apk (log2 n + 1) :: live log2 cs) y := by
  have hrows : ∀ r ∈ entry apk (log2 o + 1) :: live log2 cs, ∃ pk b, r = entry pk b := by
    intro r hr
    rcases List.mem_cons.1 hr with rfl | hr
    · exact ⟨_, _, rfl⟩
    · exact mem_live hr
  rw [upIndex, bucket, bucket, if_neg (by omega), if_neg (by omega)]
  by_cases heq : log2 n + 1 = log2 o + 1
  · simp only [heq, if_true]
    exact ⟨x, rfl, hk, h⟩
  · have hof (b : Nat) : (entry apk b).Of ty := entry_of hp hty
    have hadd := addToIndex_true hk h (hof (log2 n + 1))
    have h1 := holds_add hk h (hof (log2 n + 1)) hrows hn
    have hrows' : ∀ r ∈ entry apk (log2 n + 1) :: entry apk (log2 o + 1) :: live log2 cs,
        ∃ pk b, r = entry pk b := by
      intro r hr
      rcases List.mem_cons.1 hr with rfl | hr
      · exact ⟨_, _, rfl⟩
      · exact hrows r hr
    obtain ⟨y, hy, h2⟩ := holds_rem ((Ind.addToIndex_kind x (entry apk (log2 n + 1))).trans hk) h1 (hof (log2 o + 1)) hrows' hn
      (List.mem_cons_of_mem _ List.mem_cons_self) (fun hu => by
        -- the row that is added is in another bucket
        rw [List.countP_cons_of_neg (by simpa [entry] using heq)]
        exact hg hu)
    refine ⟨y, ?_, (Ind.delFromIndex_kind hy).trans hk, ?_⟩
    · simp only [if_neg heq, hadd, Bool.true_eq_false, if_false, hy]
    · have hne : entry apk (log2 n + 1) ≠ entry apk (log2 o + 1) := by simpa [entry] using heq
      rwa [List.erase_cons_tail (by simpa using hne), List.erase_cons_head] at h2

/-- The rows, with the one that is written over in front. -/
theorem set_rows {v w : Option (Nat → UInt8)} (hget : get? t.rows apk = some v)
    (i : InStep log2 ty t) (hc : ∀ m, w = some m → ∃ l, Counts m l) :
    ((Assoc.set apk w t.rows).map Prod.fst).Nodup ∧
      (∀ e ∈ Assoc.set apk w t.rows, e.1.ktype = ty 0) ∧
      ∀ e ∈ Assoc.set apk w t.rows, ∀ m, e.2 = some m → ∃ l, Counts m l := by
  have hset := perm_set (w := w) hget
  have hrows := perm_del hget
  have hmem : ∀ e ∈ Assoc.set apk w t.rows, e = (apk, w) ∨ e ∈ t.rows := by
    intro e he
    rcases List.mem_cons.1 (hset.subset he) with h | h
    · exact .inl h
    · exact .inr (mem_of_mem_del h)
  refine ⟨?_, fun e he => ?_, fun e he m hm => ?_⟩
  · refine (hset.map Prod.fst).nodup_iff.2 ?_
    have := (hrows.map Prod.fst).nodup_iff.1 i.nodup
    exact this
  · rcases hmem e he with rfl | he
    · exact i.typed (apk, v) (mem_of_get? hget)
    · exact i.typed e he
  · rcases hmem e he with rfl | he
    · exact hc m hm
    · exact i.counts e he m hm

theorem counts_overwrite (m : Nat → UInt8) {l : Nat} (h0 : 0 < l) (hl : l < 576460752303423488) :
    Counts (overwriteLFUcol m 0 l) l :=
  ⟨h0, hl, stands_overwriteLFUcol m 0 hl⟩

theorem counts_first : Counts firstCol 1 :=
  ⟨Nat.one_pos, by decide, stands_follow (le 8 (1 * 32 + 16)) fun _ => 0⟩

/-- A safe access leaves every row in the bucket of its number. -/
theorem updateLfu_inStep (i : InStep log2 ty t) (hs : Safe log2 t apk) :
    ∃ t', updateLfu log2 t apk = some t' ∧ InStep log2 ty t' := by
  obtain ⟨hn, hcount⟩ := hs
  unfold updateLfu
  cases hget : get? t.rows apk with
  | none => exact ⟨t, rfl, i⟩
  | some v =>
    have hp : apk.ktype = ty 0 := i.typed _ (mem_of_get? hget)
    have hrows := perm_del hget
    cases v with
    | none =>
      -- the row gets its first number, and enters the index
      obtain ⟨h1, h2, h3⟩ := set_rows (w := some firstCol) hget i fun m hm =>
        ⟨1, Option.some.inj hm ▸ counts_first⟩
      have hset := live_perm log2 (perm_set (w := some firstCol) hget)
      rw [live_some apk counts_first] at hset
      have hold := live_perm log2 hrows
      rw [live_none] at hold
      have hadd := holds_add i.kind i.holds (entry_of hp i.long) (fun r hr => mem_live hr) hn
        (b := log2 1 + 1)
      simp only [getLfuCol_of counts_first, bucket, Nat.one_ne_zero, if_false, Option.map_some]
      exact ⟨_, rfl, (Ind.addToIndex_kind t.ind _).trans i.kind, h1, i.long, h2, h3,
        Holds.perm hadd ((hold.cons _).trans hset.symm)⟩
    | some m =>
      obtain ⟨l, hl⟩ := i.counts _ (mem_of_get? hget) m rfl
      obtain ⟨hlt, hg⟩ := hcount m hget
      rw [getLfuCol_of hl] at hlt hg
      have hnum : streamLFUToULong m 0 = l :=
        (streamLFUToULong_of hl.2.2).trans (Nat.mod_eq_of_lt hlt)
      have hnnum : (l + 1) % 18446744073709551616 = l + 1 := Nat.mod_eq_of_lt (by omega)
      have hnew := counts_overwrite m (Nat.succ_pos l) (show l + 1 < 576460752303423488 by omega)
      obtain ⟨h1, h2, h3⟩ := set_rows (w := some (overwriteLFUcol m 0 (l + 1))) hget i
        fun m' hm => ⟨l + 1, Option.some.inj hm ▸ hnew⟩
      -- the row stands in front of the others, before and after
      have hold := live_perm log2 hrows
      rw [live_some apk hl] at hold
      have hset := live_perm log2 (perm_set (w := some (overwriteLFUcol m 0 (l + 1))) hget)
      rw [live_some apk hnew] at hset
      obtain ⟨y, hy, hk, hh⟩ := upIndex_holds i.kind hl.1 (Nat.succ_pos l) (Holds.perm i.holds hold)
        i.long hp hn (fun hu => hold.countP_eq _ ▸ hg hu)
      simp only [hnum, hnnum, hy, Option.map_some]
      exact ⟨_, rfl, hk, h1, i.long, h2, h3, Holds.perm hh hset.symm⟩

/-- So do any number of them. -/
theorem accesses_inStep : ∀ {t : Table} {apks : List Aobj}, InStep log2 ty t → AllSafe log2 t apks →
    ∃ t', accesses log2 t apks = some t' ∧ InStep log2 ty t'
  | t, [], i, _ => ⟨t, rfl, i⟩
  | t, apk :: apks, i, ⟨hs, hrest⟩ => by
      obtain ⟨t', ht, i'⟩ := updateLfu_inStep i hs
      obtain ⟨t'', ht', i''⟩ := accesses_inStep i' (hrest t' ht)
      exact ⟨t'', by rw [accesses, ht, Option.bind_some, ht'], i''⟩

/-- A table of INT keys with an LFU column. -/
def intKeys : Nat → KType
  | 0 => .int
  | _ => .long

/-- A row from before the index was created. -/
def oldRow : Table := ⟨[(.int 5, none)], ⟨kind, .tree []⟩⟩

theorem oldRow_inStep (log2 : Nat → Nat) : InStep log2 intKeys oldRow where
  kind := rfl
  nodup := by decide
  long := rfl
  typed := by
    intro e he
    obtain rfl := List.mem_singleton.1 he
    rfl
  counts := by
    intro e he m hm
    obtain rfl := List.mem_singleton.1 he
    cases hm
  holds := ⟨⟨List.nodup_nil, fun e he => absurd he List.not_mem_nil⟩, .refl _⟩

end AlchemyDB.Index.Lfu
