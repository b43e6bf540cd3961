/-
# The table is a map

An insertion never looks at the counts of collisions: the slots in front of an entry are full, so
that the next insertion of its key comes to it.  Only a fetch goes by the counts; what it finds is
what was put last, as long as the counts can say how far the entries are.
-/
import AlchemyDB.Format.HashRow
import Mathlib.Data.Finset.Card
import Mathlib.Data.Finset.Image

namespace AlchemyDB.Format.Ahash

open Store

/-! ## The slots in front of an entry -/

/-- The slots that are not free. -/
def filled (ht : Ahash) : Finset Nat :=
  (Finset.range ht.nentries).filter fun i => (ht.entries i).key ≠ 0

/-- Every entry is as near as an insertion looks, behind slots that are full; entries are counted. -/
structure Chained (ht : Ahash) : Prop where
  near : ∀ i < ht.nentries, (ht.entries i).key ≠ 0 →
    dist ht.nentries i (ht.entries i).key ≤ ht.maxColijns
  front : ∀ i < ht.nentries, (ht.entries i).key ≠ 0 → ∀ j < ht.nentries,
    dist ht.nentries j (ht.entries i).key < dist ht.nentries i (ht.entries i).key →
      (ht.entries j).key ≠ 0
  nvalid : ht.nvalid = (filled ht).card

theorem chained_empty {n mc : Nat} : Chained ⟨0, n, mc, fun _ => free⟩ where
  near _ _ h := absurd rfl h
  front _ _ h := absurd rfl h
  nvalid := by simp [filled, free]

variable {w : Width} {K : Nat} {ht ht' : Ahash} {key val slot d : Nat}

theorem enter_key (val : Nat) (hd : d = dist ht.nentries slot key) (i : Nat) :
    ((enter w ht key val slot d).entries i).key = if i = slot then key else (ht.entries i).key := by
  rw [hd]
  exact (enter_entries i).1

/-- A key enters the slot that was chosen for it, whether it was there before or not. -/
theorem Chained.enter (h : Chained ht) (hn : 0 < ht.nentries) (h0 : key ≠ 0)
    (hl : ht.lookupInsertEntry key = some (slot, d)) : Chained (enter w ht key val slot d) := by
  obtain ⟨hslot, htakes, hd, hmax, hbefore⟩ := lookupInsertEntry_nearest hn hl
  have hkey := enter_key (w := w) val hd
  refine ⟨fun i hi => ?_, fun i hi => ?_, ?_⟩
  · rw [hkey, enter_nentries]
    split
    · rename_i hi'
      rw [hi', ← hd]
      exact fun _ => hmax
    · exact h.near i hi
  · rw [hkey, enter_nentries]
    split
    · rename_i hi'
      intro _ j hj hlt
      rw [hi', ← hd] at hlt
      rw [hkey]
      split
      · exact h0
      · exact fun hfree => hbefore j hj hlt (.inr hfree)
    · intro hi0 j hj hlt
      rw [hkey]
      split
      · exact h0
      · exact h.front i hi hi0 j hj hlt
  · have hfilled : filled (Ahash.enter w ht key val slot d) = Insert.insert slot (filled ht) := by
      ext i
      simp only [filled, Finset.mem_insert, Finset.mem_filter, Finset.mem_range, hkey, enter_nentries]
      by_cases hi : i = slot
      · simp [hi, hslot, h0]
      · simp [hi]
    rw [hfilled]
    have hmem : slot ∈ filled ht ↔ (ht.entries slot).key ≠ 0 := by
      simp [filled, hslot]
    rcases htakes with hsame | hfree
    · rw [Finset.insert_eq_self.2 (hmem.2 (hsame ▸ h0)), ← h.nvalid]
      exact if_pos hsame
    · rw [Finset.card_insert_of_notMem fun hm => hmem.1 hm hfree, ← h.nvalid]
      exact if_neg fun e => h0 (e.symm.trans hfree)

theorem foldlM_inv {A B : Type} {P : A → Prop} {f : A → B → Option A}
    (hstep : ∀ a b a', P a → f a b = some a' → P a') :
    ∀ {l : List B} {a a' : A}, P a → l.foldlM f a = some a' → P a'
  | [], _, _, h, e => Option.some.inj e ▸ h
  | b :: l, a, _, h, e => by
      rw [List.foldlM_cons] at e
      obtain ⟨a₁, h1, h2⟩ := Option.bind_eq_some_iff.1 e
      exact foldlM_inv hstep (hstep a b a₁ h h1) h2

/-- An insertion, with all its rehashes, leaves the entries behind full slots. -/
theorem insert_chained : ∀ {fuel key val lvl : Nat} {ht ht' : Ahash},
    0 < ht.nentries ∧ Chained ht → insert w fuel key val lvl ht = some ht' →
      0 < ht'.nentries ∧ Chained ht'
  | fuel + 1, key, val, lvl, ht, ht', h, e => by
      rw [insert] at e
      split at e
      · exact Option.some.inj e ▸ h
      · rename_i h0
        split at e
        · rename_i hl
          exact Option.some.inj e ▸ ⟨h.1, h.2.enter h.1 h0 hl⟩
        · dsimp only at e
          generalize (if lvl > 1 then expand key (ht.nentries + 2) ht else ht) = hx at e
          obtain ⟨acc, hmoved, hins⟩ := Option.bind_eq_some_iff.1 e
          have hgrown : 0 < hx.grown.nentries ∧ Chained hx.grown :=
            ⟨by rw [grown]; dsimp only; omega, chained_empty⟩
          -- the old entries enter the larger table one by one
          have hacc : 0 < acc.nentries ∧ Chained acc := by
            refine foldlM_inv (P := fun a => 0 < a.nentries ∧ Chained a) (fun a i a' ha hstep => ?_)
              hgrown hmoved
            split at hstep
            · exact Option.some.inj hstep ▸ ha
            · exact insert_chained ha hstep
          exact insert_chained hacc hins

/-! ## An insertion -/

/-- A key that the table holds is found, and its value is changed. -/
theorem Chained.find (hc : Chained ht) (h : Ok w K ht) (h0 : key ≠ 0) {i : Nat}
    (hi : i < ht.nentries) (hkey : (ht.entries i).key = key) :
    ht.lookupInsertEntry key = some (i, dist ht.nentries i key) := by
  subst hkey
  refine lookupInsertEntry_of_nearest hi (.inl rfl) (hc.near i hi h0) fun j hj hlt htakes => ?_
  rcases htakes with hsame | hfree
  · rw [h.inj j hj i hi hsame (hsame ▸ h0)] at hlt
    omega
  · exact hc.front i hi h0 j hj hlt hfree

theorem Ok.overwrite (h : Ok w K ht) (h0 : key ≠ 0) (hv : val < 256 ^ w.val) {i : Nat}
    (hi : i < ht.nentries) (hkey : (ht.entries i).key = key) :
    Ok w K (Ahash.enter w ht key val i (dist ht.nentries i key)) := by
  have he := enter_entries (w := w) (h := ht) (k := key) (v := val) (s := i)
  have hk (j : Nat) :
      ((Ahash.enter w ht key val i (dist ht.nentries i key)).entries j).key = (ht.entries j).key := by
    rw [(he j).1]
    split
    · rename_i hj
      rw [hj, hkey]
    · rfl
  have hcount (x : Nat) (hnear : Near w ht) :
      ((Ahash.enter w ht key val i (dist ht.nentries i key)).entries x).nColijns =
        (ht.entries x).nColijns := by
    rw [(he x).2.2, if_neg]
    rintro ⟨-, hgt⟩
    have hreach := h.reach hnear i hi (hkey ▸ h0)
    rw [hkey] at hreach
    omega
  refine ⟨h.pos, h.size, fun j hj => ?_, fun j hj => ?_, fun j hj l hl => ?_, fun j hj => ?_,
    fun j hj => ?_, fun hlt j hj => ?_, fun hnear j hj => ?_⟩
  · rw [hk]
    exact h.keys j hj
  · rw [(he j).2.1]
    split
    · exact hv
    · exact h.vals j hj
  · rw [hk, hk]
    exact h.inj j hj l hl
  · rw [(he j).2.2]
    split
    · exact Nat.lt_of_le_of_lt (Nat.mod_le _ _) (dist_lt hi)
    · exact h.count j hj
  · rw [(he j).2.2]
    split
    · exact Nat.mod_lt _ (Nat.pow_pos (by decide))
    · exact h.byte j hj
  · rw [hk]
    exact h.home hlt j hj
  · have hnear' : Near w ht := by
      intro l hl hl0
      have := hnear l hl
      rw [hk] at this
      exact this hl0
    rw [hk, hcount _ hnear']
    exact h.reach hnear' j hj

theorem overwrite_holds (h : Ok w K ht) {i : Nat} (hi : i < ht.nentries)
    (hkey : (ht.entries i).key = key) {k v : Nat} (hk : k ≠ 0) :
    Holds (Ahash.enter w ht key val i (dist ht.nentries i key)) k v ↔
      if k = key then v = val else Holds ht k v := by
  have he := enter_entries (w := w) (h := ht) (k := key) (v := val) (s := i)
  split
  · rename_i hsame
    subst hsame
    constructor
    · rintro ⟨j, hj, h1, h2⟩
      have hji : j = i := by
        by_contra hne
        rw [(he j).1, if_neg hne] at h1
        exact hne (h.inj j hj i hi (h1.trans hkey.symm) (h1 ▸ hk))
      rw [(he j).2.1, if_pos hji] at h2
      exact h2.symm
    · rintro rfl
      exact ⟨i, hi, by rw [(he i).1, if_pos rfl], by rw [(he i).2.1, if_pos rfl]⟩
  · rename_i hne
    have hother {j : Nat} (hjk : ((Ahash.enter w ht key val i (dist ht.nentries i key)).entries j).key
        = k ∨ (ht.entries j).key = k) : j ≠ i := by
      rintro rfl
      rw [(he j).1, if_pos rfl, hkey, or_self] at hjk
      exact hne hjk.symm
    constructor
    · rintro ⟨j, hj, h1, h2⟩
      have hji := hother (.inl h1)
      rw [(he j).1, if_neg hji] at h1
      rw [(he j).2.1, if_neg hji] at h2
      exact ⟨j, hj, h1, h2⟩
    · rintro ⟨j, hj, h1, h2⟩
      have hji := hother (.inr h1)
      exact ⟨j, hj, by rw [(he j).1, if_neg hji, h1], by rw [(he j).2.1, if_neg hji, h2]⟩

/-- An insertion ends, and the table holds the value for the key. -/
theorem insert_step (fuel lvl : Nat) (h : Ok w K ht) (hc : Chained ht) (h0 : key ≠ 0) (hK : key ≤ K)
    (hv : val < 256 ^ w.val) (hfuel : K + 2 ≤ ht.nentries + fuel) (hpos : 0 < fuel) :
    ∃ ht', insert w fuel key val lvl ht = some ht' ∧ Ok w K ht' ∧ Chained ht' ∧
      ht.nentries ≤ ht'.nentries ∧
      ∀ k v, k ≠ 0 → (Holds ht' k v ↔ if k = key then v = val else Holds ht k v) := by
  by_cases hheld : ∃ i < ht.nentries, (ht.entries i).key = key
  · obtain ⟨i, hi, hkey⟩ := hheld
    have hfind := hc.find h h0 hi hkey
    refine ⟨_, ?_, h.overwrite h0 hv hi hkey, hc.enter h.pos h0 hfind, le_rfl,
      fun k v hk => overwrite_holds h hi hkey hk⟩
    obtain ⟨f, rfl⟩ := Nat.exists_eq_succ_of_ne_zero (Nat.pos_iff_ne_zero.1 hpos)
    rw [insert, if_neg h0, hfind]
  · have habs : ∀ i < ht.nentries, (ht.entries i).key ≠ key := fun i hi e => hheld ⟨i, hi, e⟩
    obtain ⟨ht', hins, hin⟩ := insert_spec fuel key val lvl ht h h0 hK hv habs hfuel hpos
    refine ⟨ht', hins, hin.ok, (insert_chained ⟨h.pos, hc⟩ hins).2, hin.grows, fun k v hk => ?_⟩
    rw [hin.holds k v hk]
    split
    · rename_i hsame
      refine ⟨fun hor => hor.elim ?_ And.right, fun hval => .inr ⟨hsame, hval⟩⟩
      rintro ⟨i, hi, e, -⟩
      exact absurd (e.trans hsame) (habs i hi)
    · rename_i hne
      exact or_iff_left fun e => hne e.1

/-! ## Runs -/

/-- The insertions of a run, from the first to the last. -/
def insertAll (w : Width) (fuel : Nat) (ops : List (Nat × Nat)) (ht : Ahash) : Option Ahash :=
  ops.foldlM (fun ht op => insert w fuel op.1 op.2 0 ht) ht

/-- The value of the last insertion of a key. -/
def written (ops : List (Nat × Nat)) (k : Nat) : Option Nat :=
  ((ops.filter fun op => decide (op.1 = k)).getLast?).map Prod.snd

theorem written_append (ops : List (Nat × Nat)) (op : Nat × Nat) (k : Nat) :
    written (ops ++ [op]) k = if k = op.1 then some op.2 else written ops k := by
  unfold written
  by_cases h : op.1 = k
  · simp [h]
  · simp [h, Ne.symm h]

theorem written_mem {ops : List (Nat × Nat)} {k v : Nat} (h : written ops k = some v) :
    (k, v) ∈ ops := by
  obtain ⟨op, hlast, rfl⟩ := Option.map_eq_some_iff.1 h
  obtain ⟨hmem, hk⟩ := List.mem_filter.1 (List.mem_of_getLast? hlast)
  rw [← of_decide_eq_true hk]
  exact hmem

theorem written_isSome {ops : List (Nat × Nat)} {k : Nat} :
    (∃ v, written ops k = some v) ↔ k ∈ (ops.map Prod.fst).toFinset := by
  constructor
  · rintro ⟨v, h⟩
    exact List.mem_toFinset.2 (List.mem_map_of_mem (written_mem h))
  · intro h
    obtain ⟨op, hop, rfl⟩ := List.mem_map.1 (List.mem_toFinset.1 h)
    have hmem : op ∈ ops.filter fun o => decide (o.1 = op.1) := List.mem_filter.2 ⟨hop, by simp⟩
    obtain ⟨o, ho⟩ := Option.isSome_iff_exists.1 (List.getLast?_isSome.2 (List.ne_nil_of_mem hmem))
    exact ⟨o.2, by rw [written, ho]; rfl⟩

/-- The insertions that the code can be given. -/
def Insertions (w : Width) (ops : List (Nat × Nat)) : Prop :=
  ∀ op ∈ ops, op.1 ≠ 0 ∧ op.1 < 256 ^ w.key ∧ op.2 < 256 ^ w.val

instance decidableInsertions (w : Width) (ops : List (Nat × Nat)) : Decidable (Insertions w ops) :=
  inferInstanceAs (Decidable (∀ op ∈ ops, _))

/-- A table after a run. -/
structure Reached (w : Width) (ops : List (Nat × Nat)) (ht : Ahash) : Prop where
  ok : Ok w (256 ^ w.key - 1) ht
  chained : Chained ht
  holds : ∀ k v, k ≠ 0 → (Holds ht k v ↔ written ops k = some v)

/-- Every run ends. -/
theorem insertAll_reached {fuel : Nat} (hfuel : 256 ^ w.key + 1 ≤ fuel) {ops : List (Nat × Nat)}
    (hops : Insertions w ops) : ∃ ht, insertAll w fuel ops (make 2) = some ht ∧ Reached w ops ht := by
  induction ops using List.reverseRecOn with
  | nil =>
    refine ⟨_, rfl, ok_empty (by decide) (by simp), chained_empty, fun k v hk => ?_⟩
    refine iff_of_false ?_ (by simp [written])
    rintro ⟨i, -, hi, -⟩
    exact hk hi.symm
  | append_singleton ops op ih =>
    obtain ⟨ht, hrun, hok, hc, hholds⟩ := ih fun o ho => hops o (List.mem_append_left _ ho)
    obtain ⟨h0, hkey, hval⟩ := hops op (List.mem_append_right _ List.mem_cons_self)
    obtain ⟨ht', hins, hok', hc', -, hholds'⟩ :=
      insert_step fuel 0 hok hc h0 (by omega) hval (by omega) (by omega)
    refine ⟨ht', ?_, hok', hc', fun k v hk => ?_⟩
    · rw [insertAll, List.foldlM_append]
      rw [insertAll] at hrun
      rw [hrun]
      simp [hins]
    · rw [hholds' k v hk, written_append]
      split
      · simp [eq_comm]
      · exact hholds k v hk

/-- The table is the map that the run wrote. -/
structure IsMap (ops : List (Nat × Nat)) (ht : Ahash) : Prop where
  nvalid : ht.nvalid = (ops.map Prod.fst).toFinset.card
  fetched : ∀ k, fetch ht.nentries ht.entries k = (written ops k).getD 0

variable {ops : List (Nat × Nat)}

/-- The entries are counted once for every key. -/
theorem Reached.nvalid (h : Reached w ops ht) (hops : Insertions w ops) :
    ht.nvalid = (ops.map Prod.fst).toFinset.card := by
  rw [h.chained.nvalid]
  refine Finset.card_bij (fun i _ => (ht.entries i).key) (fun i hi => ?_) (fun i hi j hj e => ?_)
    fun k hk => ?_
  · obtain ⟨hlt, h0⟩ := Finset.mem_filter.1 hi
    exact written_isSome.1 ⟨_, (h.holds _ _ h0).1 ⟨i, Finset.mem_range.1 hlt, rfl, rfl⟩⟩
  · obtain ⟨hlti, h0⟩ := Finset.mem_filter.1 hi
    exact h.ok.inj i (Finset.mem_range.1 hlti) j
      (Finset.mem_range.1 (Finset.mem_filter.1 hj).1) e h0
  · obtain ⟨op, hop, hkey⟩ := List.mem_map.1 (List.mem_toFinset.1 hk)
    have hk0 : k ≠ 0 := hkey ▸ (hops op hop).1
    obtain ⟨v, hv⟩ := written_isSome.2 hk
    obtain ⟨i, hi, hik, -⟩ := (h.holds k v hk0).2 hv
    exact ⟨i, Finset.mem_filter.2 ⟨Finset.mem_range.2 hi, by rw [hik]; exact hk0⟩, hik⟩

/-- A table fetches what was written, unless an entry is out of reach of its count. -/
theorem Reached.isMap (h : Reached w ops ht) (hops : Insertions w ops) (hnear : Near w ht) :
    IsMap ops ht := by
  refine ⟨h.nvalid hops, fun k => ?_⟩
  by_cases hk : k = 0
  · have hnone : written ops k = none := Option.eq_none_iff_forall_not_mem.2 fun v hv =>
      (hops _ (written_mem hv)).1 hk
    rw [hnone, hk]
    rfl
  · by_cases hheld : ∃ i < ht.nentries, (ht.entries i).key = k
    · obtain ⟨i, hi, hkey⟩ := hheld
      have hreach := h.ok.reach hnear i hi (hkey ▸ hk)
      rw [hkey] at hreach
      rw [fetch_held h.ok (fun _ _ => rfl) hk hi hkey, if_pos hreach,
        (h.holds k _ hk).1 ⟨i, hi, hkey, rfl⟩]
      rfl
    · have habs : ∀ i < ht.nentries, (ht.entries i).key ≠ k := fun i hi e => hheld ⟨i, hi, e⟩
      have hnone : written ops k = none := Option.eq_none_iff_forall_not_mem.2 fun v hv => by
        obtain ⟨i, hi, e, -⟩ := (h.holds k v hk).2 hv
        exact habs i hi e
      rw [fetch_absent h.ok (fun _ _ => rfl) habs, hnone]
      rfl

/-- An entry that is farther than its count can say is lost, and its value with it. -/
theorem Reached.near (h : Reached w ops ht) (hvals : ∀ op ∈ ops, op.2 ≠ 0) (hm : IsMap ops ht) :
    Near w ht := by
  intro i hi h0
  have hwritten := (h.holds _ _ h0).1 ⟨i, hi, rfl, rfl⟩
  have hfetch := hm.fetched (ht.entries i).key
  rw [fetch_held h.ok (fun _ _ => rfl) h0 hi rfl, hwritten] at hfetch
  split at hfetch
  · rename_i hreach
    exact Nat.lt_of_le_of_lt hreach (h.ok.byte _ (Nat.mod_lt _ h.ok.pos))
  · exact absurd hfetch.symm (hvals _ (written_mem hwritten))

/-- Every run of insertions ends, and the table is the map that was written: for `hash32` as long as
the table has fewer than 2³¹ slots, where no sum of the code needs more than 32 bits; for `hash16`
just as long as no entry was put 256 or more slots behind its own (when values are not zero: a key
that is lost and a key with the value zero are fetched alike). -/
theorem hash_isMap {fuel : Nat} (ops : List (Nat × Nat)) :
    (65537 ≤ fuel → Insertions hash16 ops → ∃ ht, insertAll hash16 fuel ops (make 2) = some ht ∧
      (Near hash16 ht → IsMap ops ht) ∧
      ((∀ op ∈ ops, op.2 ≠ 0) → (IsMap ops ht ↔ Near hash16 ht))) ∧
    (4294967297 ≤ fuel → Insertions hash32 ops → ∃ ht, insertAll hash32 fuel ops (make 2) = some ht ∧
      (ht.nentries < 2147483648 → IsMap ops ht)) := by
  constructor
  · intro hfuel hops
    obtain ⟨ht, hrun, hr⟩ := insertAll_reached (w := hash16) hfuel hops
    exact ⟨ht, hrun, hr.isMap hops, fun hvals => ⟨hr.near hvals, hr.isMap hops⟩⟩
  · intro hfuel hops
    obtain ⟨ht, hrun, hr⟩ := insertAll_reached (w := hash32) hfuel hops
    refine ⟨ht, hrun, fun hsize => hr.isMap hops fun i hi _ => ?_⟩
    have hdist := dist_lt (k := (ht.entries i).key) hi
    exact Nat.lt_trans hdist (Nat.lt_trans hsize (by decide))

theorem hash_isMap_twice :
    (65537 ≤ 65537 → Insertions hash16 [(1, 5), (1, 7)] →
      ∃ ht, insertAll hash16 65537 [(1, 5), (1, 7)] (make 2) = some ht ∧
        (Near hash16 ht → IsMap [(1, 5), (1, 7)] ht) ∧
        ((∀ op ∈ [(1, 5), (1, 7)], op.2 ≠ 0) → (IsMap [(1, 5), (1, 7)] ht ↔ Near hash16 ht))) ∧
    (4294967297 ≤ 4294967297 → Insertions hash32 [(1, 5), (1, 7)] →
      ∃ ht, insertAll hash32 4294967297 [(1, 5), (1, 7)] (make 2) = some ht ∧
        (ht.nentries < 2147483648 → IsMap [(1, 5), (1, 7)] ht)) :=
  ⟨(hash_isMap [(1, 5), (1, 7)]).1, (hash_isMap [(1, 5), (1, 7)]).2⟩

/-! ## Keys in their own slots -/

/-- What a rehash moves, in the order of the slots. -/
def moved (ht : Ahash) : List (Nat × Nat) :=
  ((List.range ht.nentries).map fun i => ((ht.entries i).key, (ht.entries i).val)).filter
    fun op => decide (op.1 ≠ 0)

theorem moved_foldlM {f : Nat → Nat → Ahash → Option Ahash} (slots : List Nat) (acc : Ahash) :
    slots.foldlM (fun acc i => if (ht.entries i).key = 0 then some acc
        else f (ht.entries i).key (ht.entries i).val acc) acc =
      ((slots.map fun i => ((ht.entries i).key, (ht.entries i).val)).filter
        fun op => decide (op.1 ≠ 0)).foldlM (fun acc op => f op.1 op.2 acc) acc := by
  induction slots generalizing acc with
  | nil => rfl
  | cons i slots ih =>
    rw [List.foldlM_cons, List.map_cons]
    by_cases h : (ht.entries i).key = 0
    · simp only [h, if_true, ne_eq, not_true_eq_false, decide_false, Bool.false_eq_true,
        not_false_eq_true, List.filter_cons_of_neg]
      exact ih acc
    · simp only [h, if_false, ne_eq, not_false_eq_true, decide_true, List.filter_cons_of_pos,
        List.foldlM_cons]
      exact congrArg _ (funext fun acc' => ih acc')

/-- An insertion that finds no slot. -/
theorem insert_rehash {f q : Nat} (h0 : key ≠ 0) (hl : ht.lookupInsertEntry key = none)
    (hx : (if q > 1 then expand key (ht.nentries + 2) ht else ht) = ht') :
    insert w (f + 1) key val q ht =
      ((moved ht').foldlM (fun acc op => insert w f op.1 op.2 (q + 1) acc) ht'.grown).bind
        (insert w f key val q) := by
  rw [insert, if_neg h0, hl]
  dsimp only
  rw [hx]
  exact congrArg (Option.bind · _)
    (moved_foldlM (f := fun k v acc => insert w f k v (q + 1) acc) _ _)

theorem insert_found {f q : Nat} (h0 : key ≠ 0)
    (hl : ht.lookupInsertEntry key = some (slot, d)) :
    insert w (f + 1) key val q ht = some (enter w ht key val slot d) := by
  rw [insert, if_neg h0, hl]

/-- A table of keys in their own slots. -/
def own (nv n c : Nat) (p : Nat → Bool) : Ahash :=
  ⟨nv, n, c, fun i => if p i then ⟨0, i, i⟩ else free⟩

theorem own_insert {f q nv n c k : Nat} {p : Nat → Bool} (h0 : k ≠ 0) (hk : k < n)
    (hp : p k = false) : insert w (f + 1) k k q (own nv n c p) =
      some (own (nv + 1) n c fun i => decide (i = k) || p i) := by
  have hmod : k % n = k := Nat.mod_eq_of_lt hk
  have hl : (own nv n c p).lookupInsertEntry k = some (k, 0) := by
    simp [lookupInsertEntry, own, hmod, hp, free]
  rw [insert_found h0 hl]
  have hne : ¬ (0 : Nat) = k := fun e => h0 e.symm
  simp only [enter, own, hmod, hp, free, Bool.false_eq_true, if_false, gt_iff_lt, lt_self_iff_false,
    hne, Option.some.injEq, Ahash.mk.injEq, true_and]
  funext i
  by_cases hi : i = k
  · subst hi
    simp [hp]
  · simp [hi]

theorem own_foldlM {f q n c : Nat} : ∀ {keys : List Nat} {nv : Nat} {p : Nat → Bool},
    (∀ k ∈ keys, k ≠ 0 ∧ k < n ∧ p k = false) → keys.Nodup →
    (keys.map fun k => (k, k)).foldlM (fun acc op => insert w (f + 1) op.1 op.2 q acc)
        (own nv n c p) =
      some (own (nv + keys.length) n c fun i => decide (i ∈ keys) || p i)
  | [], nv, p, _, _ => by simp
  | k :: keys, nv, p, h, hnd => by
      obtain ⟨h0, hk, hp⟩ := h k List.mem_cons_self
      obtain ⟨hnot, hnd⟩ := List.nodup_cons.1 hnd
      have hrest : ∀ l ∈ keys, l ≠ 0 ∧ l < n ∧ (decide (l = k) || p l) = false := by
        intro l hl
        obtain ⟨h1, h2, h3⟩ := h l (List.mem_cons_of_mem k hl)
        have hlk : l ≠ k := fun e => hnot (e ▸ hl)
        exact ⟨h1, h2, by simp [hlk, h3]⟩
      rw [List.map_cons, List.foldlM_cons, own_insert h0 hk hp]
      simp only [Option.bind_eq_bind, Option.bind_some]
      rw [own_foldlM hrest hnd, List.length_cons]
      simp only [Nat.add_assoc, Nat.add_comm 1, List.mem_cons, Bool.decide_or, Option.some.injEq]
      congr 1
      funext i
      rw [Bool.or_left_comm, Bool.or_assoc]

/-- The keys up to `m`, in their own slots. -/
def inOrder (m n c : Nat) : Ahash := own m n c fun i => decide (0 < i ∧ i ≤ m)

/-- A key with itself as the value. -/
def pairs (keys : List Nat) : List (Nat × Nat) := keys.map fun k => (k, k)

theorem grown_own (ht : Ahash) : ht.grown = own 0 (ht.nentries + max 2 (ht.nentries / 4))
    (if ht.maxColijns = 0 then 25 else ht.maxColijns) fun _ => false := rfl

theorem foldlM_inOrder {f q m j n c : Nat} (h : m + j < n) :
    (pairs (List.range' (m + 1) j)).foldlM (fun acc op => insert w (f + 1) op.1 op.2 q acc)
      (inOrder m n c) = some (inOrder (m + j) n c) := by
  have hkeys : ∀ k ∈ List.range' (m + 1) j, k ≠ 0 ∧ k < n ∧ decide (0 < k ∧ k ≤ m) = false := by
    intro k hk
    rw [List.mem_range'_1] at hk
    exact ⟨by omega, by omega, decide_eq_false (by omega)⟩
  rw [pairs, inOrder, own_foldlM hkeys List.nodup_range', List.length_range', inOrder]
  congr 2
  funext i
  rw [← Bool.decide_or, decide_eq_decide, List.mem_range'_1]
  omega

/-- The key after the last one of a full table: the table grows, and all keys have their slots. -/
theorem foldlM_stage {f m : Nat} :
    (pairs [m + 1, m + 2]).foldlM (fun acc op => insert w (f + 2) op.1 op.2 0 acc)
      (inOrder m (m + 1) 25) =
        some (inOrder (m + 2) (m + 1 + max 2 ((m + 1) / 4)) 25) := by
  have hfirst : (inOrder m (m + 1) 25).lookupInsertEntry (m + 1) = some (0, 0) := by
    simp [lookupInsertEntry, inOrder, own, free]
  generalize hfull : enter w (inOrder m (m + 1) 25) (m + 1) (m + 1) 0 0 = full
  have hn : full.nentries = m + 1 := by rw [← hfull]; rfl
  have hmc : full.maxColijns = 25 := by rw [← hfull]; rfl
  have hslot (i : Nat) (hi : i < m + 1) : ((full.entries i).key, (full.entries i).val) =
      if i = 0 then (m + 1, m + 1) else (i, i) := by
    rw [← hfull]
    by_cases h0 : i = 0
    · simp [enter, inOrder, own, h0]
    · have hpos : 0 < i ∧ i ≤ m := by omega
      simp [enter, inOrder, own, h0, hpos, free]
  have hnone : full.lookupInsertEntry (m + 2) = none := by
    rcases hl : full.lookupInsertEntry (m + 2) with _ | ⟨slot, d⟩
    · rfl
    · obtain ⟨hlt, htakes, -⟩ := lookupInsertEntry_nearest (by omega) hl
      have hkey := congrArg Prod.fst (hslot slot (by omega))
      unfold Takes at htakes
      split at hkey <;> dsimp only at hkey <;> omega
  have hmoved : moved full = pairs ((m + 1) :: List.range' 1 m) := by
    have hrest : (List.range' 1 m).map (fun i => ((full.entries i).key, (full.entries i).val)) =
        pairs (List.range' 1 m) := List.map_congr_left fun i hi => by
      rw [List.mem_range'_1] at hi
      rw [hslot i (by omega), if_neg (by omega)]
    rw [moved, hn, List.range_eq_range', List.range'_succ, List.map_cons, hslot 0 (by omega),
      if_pos rfl, hrest, List.filter_eq_self.2]
    · rfl
    · intro op hop
      rcases List.mem_cons.1 hop with rfl | hop
      · exact decide_eq_true (Nat.succ_ne_zero m)
      · obtain ⟨k, hk, rfl⟩ := List.mem_map.1 hop
        rw [List.mem_range'_1] at hk
        exact decide_eq_true (show k ≠ 0 by omega)
  have hkeys : ∀ k ∈ (m + 1) :: List.range' 1 m,
      k ≠ 0 ∧ k < m + 1 + max 2 ((m + 1) / 4) ∧ false = false := by
    intro k hk
    rw [List.mem_cons, List.mem_range'_1] at hk
    exact ⟨by omega, by omega, rfl⟩
  have hnodup : ((m + 1) :: List.range' 1 m).Nodup := by
    refine List.nodup_cons.2 ⟨fun h => ?_, List.nodup_range'⟩
    rw [List.mem_range'_1] at h
    omega
  have hrefill : (moved full).foldlM (fun acc op => insert w (f + 1) op.1 op.2 1 acc) full.grown =
      some (inOrder (m + 1) (m + 1 + max 2 ((m + 1) / 4)) 25) := by
    rw [hmoved, grown_own, hn, hmc, if_neg (by decide), pairs, own_foldlM hkeys hnodup, inOrder,
      List.length_cons, List.length_range', Nat.zero_add]
    congr 2
    funext i
    rw [Bool.or_false, decide_eq_decide, List.mem_cons, List.mem_range'_1]
    omega
  have hlast : insert w (f + 1) (m + 2) (m + 2) 0
      (inOrder (m + 1) (m + 1 + max 2 ((m + 1) / 4)) 25) =
        some (inOrder (m + 2) (m + 1 + max 2 ((m + 1) / 4)) 25) := by
    have h := foldlM_inOrder (w := w) (f := f) (q := 0) (m := m + 1) (j := 1)
      (n := m + 1 + max 2 ((m + 1) / 4)) (c := 25) (by omega)
    simpa [pairs] using h
  simp only [pairs, List.map_cons, List.map_nil, List.foldlM_cons, List.foldlM_nil]
  rw [insert_found (Nat.succ_ne_zero m) hfirst, hfull]
  simp only [Option.bind_eq_bind, Option.bind_some]
  rw [insert_rehash (Nat.succ_ne_zero _) hnone (if_neg (by decide)), hrefill, Option.bind_some, hlast]
  rfl

/-- The sizes of a table that grows. -/
def slots : Nat → Nat
  | 0 => 2
  | k + 1 => slots k + max 2 (slots k / 4)

theorem two_le_slots : ∀ k, 2 ≤ slots k
  | 0 => le_rfl
  | k + 1 => (two_le_slots k).trans (Nat.le_add_right _ _)

theorem inOrder_zero (n c : Nat) : own 0 n c (fun _ => false) = inOrder 0 n c := by
  have hnone (i : Nat) : decide (0 < i ∧ i ≤ 0) = false := decide_eq_false (by omega)
  simp only [inOrder, hnone]

theorem foldlM_pairs {f q : Nat} {ks ks' : List Nat} {acc acc' : Ahash}
    (h : (pairs ks).foldlM (fun acc op => insert w f op.1 op.2 q acc) acc = some acc') :
    (pairs (ks ++ ks')).foldlM (fun acc op => insert w f op.1 op.2 q acc) acc =
      (pairs ks').foldlM (fun acc op => insert w f op.1 op.2 q acc) acc' := by
  rw [pairs, List.map_append, List.foldlM_append]
  rw [pairs] at h
  rw [h]
  rfl

/-- Keys that are inserted in order go to their own slots: `m` keys, when the table has grown `k`
times. -/
theorem insertAll_inOrder {f : Nat} : ∀ k m, slots k < m → m < slots (k + 1) →
    insertAll w (f + 2) (pairs (List.range' 1 m)) (make 2) =
      some (inOrder m (slots (k + 1)) 25)
  | k, m, hlo, hhi => by
      have h2 := two_le_slots k
      have hfull : insertAll w (f + 2) (pairs (List.range' 1 (slots k - 1))) (make 2) =
          some (inOrder (slots k - 1) (slots k) 25) := by
        cases k with
        | zero =>
          rw [show make 2 = inOrder 0 2 25 from inOrder_zero 2 25]
          exact foldlM_inOrder (m := 0) (j := 1) (n := 2) (f := f + 1) (by decide)
        | succ k =>
          have hgrow : slots k + 2 ≤ slots (k + 1) := by
            rw [slots]
            omega
          exact insertAll_inOrder k (slots (k + 1) - 1) (by omega) (by omega)
      obtain ⟨n, hn⟩ : ∃ n, slots k = n + 1 := ⟨slots k - 1, by omega⟩
      rw [slots] at hhi ⊢
      rw [hn] at hfull hlo hhi ⊢
      have hsplit : List.range' 1 m = List.range' 1 n ++ ([n + 1, n + 2] ++
          List.range' (n + 3) (m - (n + 2))) := by
        obtain ⟨r, rfl⟩ : ∃ r, m = n + (2 + r) := ⟨m - (n + 2), by omega⟩
        rw [← List.range'_append_1, ← List.range'_append_1, Nat.add_comm 1 n,
          show n + (2 + r) - (n + 2) = r by omega]
        rfl
      rw [Nat.add_sub_cancel, insertAll] at hfull
      rw [insertAll, hsplit, foldlM_pairs hfull, foldlM_pairs foldlM_stage,
        foldlM_inOrder (m := n + 2) (f := f + 1) (by omega),
        show n + 2 + (m - (n + 2)) = m by omega]

/-! ## A key that is lost -/

/-- A rehash of the keys up to `m` and others behind them. -/
theorem foldlM_moved {f q m n c : Nat} {s : List Nat}
    (hm : moved ht = pairs (List.range' 1 m ++ s)) (hlt : m < n)
    (hn : ht.nentries + max 2 (ht.nentries / 4) = n)
    (hmc : (if ht.maxColijns = 0 then 25 else ht.maxColijns) = c) :
    (moved ht).foldlM (fun acc op => insert w (f + 1) op.1 op.2 q acc) ht.grown =
      (pairs s).foldlM (fun acc op => insert w (f + 1) op.1 op.2 q acc) (inOrder m n c) := by
  have hfirst := foldlM_inOrder (w := w) (f := f) (q := q) (m := 0) (j := m) (n := n)
    (c := c) (by omega)
  rw [Nat.zero_add, Nat.zero_add] at hfirst
  rw [hm, grown_own, hn, hmc, inOrder_zero, foldlM_pairs hfirst]

theorem expand_eq : ∀ (f : Nat) (ht : Ahash),
    expand key f ht = { ht with maxColijns := (expand key f ht).maxColijns }
  | 0, _ => rfl
  | f + 1, ht => by
      rw [expand]
      split
      · rfl
      · dsimp only
        split
        · rfl
        · exact expand_eq f _

/-- 255 keys in order and three that are congruent to 1 in tables of 293, 366 and 457 slots, so that
the insertion of the last one rehashes three times and makes the table of 457 slots look 276 slots
far; and a key that is congruent to 1 in the table of 571 slots that is left. -/
def lostKeys : List Nat := List.range' 1 255 ++ [3200, 2929, 294, 572]

def far293 : Ahash :=
  enter hash16 (enter hash16 (inOrder 255 293 25) 3200 3200 270 0) 2929 2929 292 0

def far366 : Ahash := enter hash16 (inOrder 255 366 25) 3200 3200 272 0

def far571 : Ahash :=
  enter hash16 (enter hash16 (inOrder 255 571 276) 3200 3200 345 0) 2929 2929 256 182

theorem insert_457 (f : Nat) : insert hash16 (f + 2) 3200 3200 2 (inOrder 255 457 25) =
    some (enter hash16 (inOrder 255 571 276) 3200 3200 345 0) := by
  have hx : expand 3200 459 (inOrder 255 457 25) = inOrder 255 457 276 := by
    rw [expand_eq, show (expand 3200 459 (inOrder 255 457 25)).maxColijns = 276 by decide]
    rfl
  have hmoved : (moved (inOrder 255 457 276)).foldlM
      (fun acc op => insert hash16 (f + 1) op.1 op.2 3 acc) (inOrder 255 457 276).grown =
        some (inOrder 255 571 276) :=
    foldlM_moved (s := []) (by decide +kernel) (by decide) rfl rfl
  rw [insert_rehash (by decide) (by decide) ((if_pos (by decide)).trans hx), hmoved,
    Option.bind_some]
  exact insert_found (by decide) (by decide)

theorem insert_366 (f : Nat) : insert hash16 (f + 3) 2929 2929 1 far366 = some far571 := by
  have hmoved : (moved far366).foldlM
      (fun acc op => insert hash16 (f + 2) op.1 op.2 2 acc) far366.grown =
        some (enter hash16 (inOrder 255 571 276) 3200 3200 345 0) := by
    refine (foldlM_moved (m := 255) (n := 457) (c := 25) (s := [3200]) (by decide +kernel)
      (by decide) rfl rfl).trans ?_
    simp only [pairs, List.map_cons, List.map_nil, List.foldlM_cons, List.foldlM_nil]
    exact congrArg (Option.bind · some) (insert_457 f)
  rw [insert_rehash (by decide) (by decide) (if_neg (by decide)), hmoved, Option.bind_some]
  exact insert_found (by decide) (by decide +kernel)

theorem insert_293 (f : Nat) : insert hash16 (f + 4) 294 294 0 far293 =
    some (enter hash16 far571 294 294 294 0) := by
  have hfirst : insert hash16 (f + 3) 3200 3200 1 (inOrder 255 366 25) = some far366 :=
    insert_found (by decide) (by decide)
  have hmoved : (moved far293).foldlM
      (fun acc op => insert hash16 (f + 3) op.1 op.2 1 acc) far293.grown = some far571 := by
    refine (foldlM_moved (m := 255) (n := 366) (c := 25) (s := [3200, 2929]) (by decide +kernel)
      (by decide) rfl rfl).trans ?_
    simp only [pairs, List.map_cons, List.map_nil, List.foldlM_cons, List.foldlM_nil]
    rw [hfirst, Option.bind_eq_bind, Option.bind_some]
    exact congrArg (Option.bind · some) (insert_366 f)
  rw [insert_rehash (by decide) (by decide) (if_neg (by decide)), hmoved, Option.bind_some]
  exact insert_found (by decide) (by decide)

def farTable : Ahash := enter hash16 (enter hash16 far571 294 294 294 0) 572 572 257 256

theorem insertAll_lostKeys (f : Nat) :
    insertAll hash16 (f + 4) (pairs lostKeys) (make 2) = some farTable := by
  have hrun : insertAll hash16 (f + 4) (pairs (List.range' 1 255)) (make 2) =
      some (inOrder 255 293 25) :=
    insertAll_inOrder 19 255 (by decide) (by decide)
  have h1 : insert hash16 (f + 4) 3200 3200 0 (inOrder 255 293 25) =
      some (enter hash16 (inOrder 255 293 25) 3200 3200 270 0) :=
    insert_found (by decide) (by decide)
  have h2 : insert hash16 (f + 4) 2929 2929 0
      (enter hash16 (inOrder 255 293 25) 3200 3200 270 0) = some far293 :=
    insert_found (by decide) (by decide)
  have h4 : insert hash16 (f + 4) 572 572 0 (enter hash16 far571 294 294 294 0) = some farTable :=
    insert_found (by decide) (by decide +kernel)
  rw [insertAll] at hrun ⊢
  rw [lostKeys, foldlM_pairs hrun]
  simp only [pairs, List.map_cons, List.map_nil, List.foldlM_cons, List.foldlM_nil]
  rw [h1, Option.bind_eq_bind, Option.bind_some, h2, Option.bind_some, insert_293 f, Option.bind_some,
    h4]
  rfl

/-- The last key is put 256 slots behind its own slot, which counts none of them. -/
theorem not_isMap_lostKeys : Insertions hash16 (pairs lostKeys) ∧
    ∃ ht, insertAll hash16 65537 (pairs lostKeys) (make 2) = some ht ∧
      written (pairs lostKeys) 572 = some 572 ∧ fetch ht.nentries ht.entries 572 = 0 ∧
      ¬ IsMap (pairs lostKeys) ht := by
  have hlast : written (pairs lostKeys) 572 = some 572 := by decide
  have hfetch : fetch farTable.nentries farTable.entries 572 = 0 := by decide
  refine ⟨by decide +kernel, farTable, insertAll_lostKeys 65533, hlast, hfetch, fun hm => ?_⟩
  have h := hm.fetched 572
  rw [hlast, hfetch] at h
  exact absurd h (by decide)

end AlchemyDB.Format.Ahash
