/-
# The table keeps its entries

A search goes from the slot of a key to the following slots, around the end.  So an
entry is found when its own slot counts at least its distance.  Distances are counted
when entries are put, and cut to the bytes of the field: `Ahash.Ok` promises the counts
of a table in which no distance needs more.
-/
import AlchemyDB.Format.Hash

namespace AlchemyDB.Format

open Bytes Store

namespace Ahash

/-! ## Slots -/

/-- How far a slot is behind the slot of a key. -/
def dist (n slot key : Nat) : Nat := (slot + n - key % n) % n

theorem dist_eq {n slot k : Nat} (hs : slot < n) :
    dist n slot k = if k % n ≤ slot then slot - k % n else slot + n - k % n := by
  have hm : k % n < n := Nat.mod_lt _ (by omega)
  unfold dist
  split
  · rw [show slot + n - k % n = slot - k % n + n by omega, Nat.add_mod_right,
      Nat.mod_eq_of_lt (by omega)]
  · exact Nat.mod_eq_of_lt (by omega)

theorem dist_lt {n slot k : Nat} (hs : slot < n) : dist n slot k < n :=
  Nat.mod_lt _ (by omega)

/-- The slot at a position of a search. -/
def slotAt (n index j : Nat) : Nat := if index + 1 + j < n then index + 1 + j else index + 1 + j - n

theorem probes_get {n index count w j : Nat} (hi : index < n)
    (hj : j < (probes n index count w).length) :
    (probes n index count w)[j] = slotAt n index j := by
  unfold probes slotAt at *
  split at hj
  · rename_i hc
    simp only [hc, if_true, List.length_append, List.length_range', List.length_range] at hj ⊢
    by_cases hlt : j < n - 1 - index
    · rw [List.getElem_append_left (by simpa using hlt), List.getElem_range', if_pos (by omega)]
      omega
    · rw [List.getElem_append_right (by simpa using hlt), List.getElem_range, List.length_range',
        if_neg (by omega)]
      omega
  · rename_i hc
    simp only [hc, if_false, List.length_range'] at hj ⊢
    rw [List.getElem_range', if_pos (by omega)]
    omega

theorem length_probes (n index count wrap : Nat) : (probes n index count wrap).length =
    if index + count ≥ n then n - 1 - index + wrap else count := by
  unfold probes
  split <;> simp

/-! ## Insertion -/

/-- A slot at a distance of the slot of a key is where the search is then. -/
theorem slotAt_dist {n i k : Nat} (hi : i < n) (hne : i ≠ k % n) :
    0 < dist n i k ∧ slotAt n (k % n) (dist n i k - 1) = i := by
  have hhome : k % n < n := Nat.mod_lt _ (by omega)
  rw [dist_eq hi]
  unfold slotAt
  split <;> split <;> omega

/-- A slot takes a key when it has the key, or is free. -/
def Takes (ht : Ahash) (key i : Nat) : Prop := (ht.entries i).key = key ∨ (ht.entries i).key = 0

/-- The slot that is chosen for a key is the nearest that takes it, and the distance is right: the
search would have stopped before it came around to a slot it has seen. -/
theorem lookupInsertEntry_nearest {ht : Ahash} {key slot d : Nat} (hn : 0 < ht.nentries)
    (h : ht.lookupInsertEntry key = some (slot, d)) :
    slot < ht.nentries ∧ Takes ht key slot ∧ d = dist ht.nentries slot key ∧ d ≤ ht.maxColijns ∧
      ∀ i < ht.nentries, dist ht.nentries i key < d → ¬ Takes ht key i := by
  have hhome : key % ht.nentries < ht.nentries := Nat.mod_lt _ hn
  unfold lookupInsertEntry at h
  simp only [decide_eq_true_eq] at h
  split at h
  · rename_i hfit
    cases h
    refine ⟨hhome, hfit, ?_, Nat.zero_le _, fun i _ hlt => absurd hlt (Nat.not_lt_zero _)⟩
    rw [dist_eq hhome, if_pos le_rfl, Nat.sub_self]
  · rename_i hfit
    rw [List.find?_eq_some_iff_getElem] at h
    obtain ⟨hp, j, hj, hget, hbefore⟩ := h
    rw [List.getElem_zipIdx] at hget
    simp only [List.length_zipIdx] at hj
    have hlen := length_probes ht.nentries (key % ht.nentries) ht.maxColijns
      (min ht.nentries (key % ht.nentries + ht.maxColijns - ht.nentries + 1))
    have hslot : slotAt ht.nentries (key % ht.nentries) j = slot := by
      rw [← probes_get hhome hj]
      exact congrArg Prod.fst hget
    have hd : d = j + 1 := by
      have := congrArg Prod.snd hget
      simp only at this
      omega
    have hlt : slot < ht.nentries := by
      rw [← hslot]
      rw [hlen] at hj
      unfold slotAt
      split
      · assumption
      · split at hj <;> omega
    simp only [decide_eq_true_eq] at hp
    -- no slot that the search came to before takes the key
    have hnot {i : Nat} (hi : i < ht.nentries) (hdist : dist ht.nentries i key < d) :
        ¬ Takes ht key i := by
      by_cases hne : i = key % ht.nentries
      · exact hne ▸ hfit
      · obtain ⟨hpos, hat⟩ := slotAt_dist hi hne
        have hj' : dist ht.nentries i key - 1 < j := by omega
        have := hbefore _ hj'
        rw [List.getElem_zipIdx, probes_get hhome (by omega)] at this
        simp only [hat, Bool.not_eq_true', decide_eq_false_iff_not] at this
        exact this
    have hdist : ¬ dist ht.nentries slot key < d := fun hlt' => hnot hlt hlt' hp
    have hd' := dist_eq (k := key) hlt
    have heq : d = dist ht.nentries slot key := by
      unfold slotAt at hslot
      split at hslot <;> split at hd' <;> omega
    have hmax := dist_lt (k := key) hlt
    refine ⟨hlt, hp, heq, ?_, fun i hi => hnot hi⟩
    rw [hlen] at hj
    split at hj <;> omega

/-- A slot that takes the key, near enough, ends the search. -/
theorem lookupInsertEntry_isSome {ht : Ahash} {key i : Nat} (hi : i < ht.nentries)
    (htakes : Takes ht key i) (hmax : dist ht.nentries i key ≤ ht.maxColijns) :
    (ht.lookupInsertEntry key).isSome := by
  have hhome : key % ht.nentries < ht.nentries := Nat.mod_lt _ (by omega)
  unfold lookupInsertEntry
  simp only [decide_eq_true_eq]
  split
  · rfl
  · rename_i hfit
    obtain ⟨hpos, hat⟩ := slotAt_dist hi fun e => hfit (e ▸ htakes)
    have hlt := dist_lt (k := key) hi
    have hlen := length_probes ht.nentries (key % ht.nentries) ht.maxColijns
      (min ht.nentries (key % ht.nentries + ht.maxColijns - ht.nentries + 1))
    have hj : dist ht.nentries i key - 1 < (probes ht.nentries (key % ht.nentries) ht.maxColijns
        (min ht.nentries (key % ht.nentries + ht.maxColijns - ht.nentries + 1))).length := by
      rw [hlen]
      split <;> omega
    rw [List.find?_isSome]
    refine ⟨_, List.getElem_mem (by rw [List.length_zipIdx]; exact hj), ?_⟩
    rw [List.getElem_zipIdx, probes_get hhome hj, hat]
    exact decide_eq_true htakes

/-- The nearest slot that takes the key is chosen, if it is near enough. -/
theorem lookupInsertEntry_of_nearest {ht : Ahash} {key i : Nat} (hi : i < ht.nentries)
    (htakes : Takes ht key i) (hmax : dist ht.nentries i key ≤ ht.maxColijns)
    (hbefore : ∀ j < ht.nentries, dist ht.nentries j key < dist ht.nentries i key →
      ¬ Takes ht key j) : ht.lookupInsertEntry key = some (i, dist ht.nentries i key) := by
  obtain ⟨⟨slot, d⟩, hsome⟩ :=
    Option.isSome_iff_exists.1 (lookupInsertEntry_isSome hi htakes hmax)
  obtain ⟨hlt, htakes', hd, -, hbefore'⟩ := lookupInsertEntry_nearest (by omega) hsome
  have h1 : ¬ dist ht.nentries slot key < dist ht.nentries i key := fun h =>
    hbefore slot hlt h htakes'
  have h2 : ¬ dist ht.nentries i key < d := fun h => hbefore' i hi h htakes
  have hsame : slot = i := by
    have hhome : key % ht.nentries < ht.nentries := Nat.mod_lt _ (by omega)
    have e1 := dist_eq (k := key) hlt
    have e2 := dist_eq (k := key) hi
    split at e1 <;> split at e2 <;> omega
  rw [hsome, hd, hsame]

/-- A slot that is chosen for a new key is free. -/
theorem lookupInsertEntry_spec {ht : Ahash} {key slot d : Nat} (hn : 0 < ht.nentries)
    (habs : ∀ i < ht.nentries, (ht.entries i).key ≠ key)
    (h : ht.lookupInsertEntry key = some (slot, d)) :
    slot < ht.nentries ∧ (ht.entries slot).key = 0 ∧ d = dist ht.nentries slot key := by
  obtain ⟨hlt, htakes, hd, -⟩ := lookupInsertEntry_nearest hn h
  exact ⟨hlt, htakes.resolve_left (habs _ hlt), hd⟩

/-! ## The promise of a table -/

/-- The table holds a key with its value. -/
def Holds (ht : Ahash) (k v : Nat) : Prop :=
  ∃ i < ht.nentries, (ht.entries i).key = k ∧ (ht.entries i).val = v

/-- No entry is farther from its own slot than the count of a slot can say. -/
def Near (w : Width) (ht : Ahash) : Prop :=
  ∀ i < ht.nentries, (ht.entries i).key ≠ 0 →
    dist ht.nentries i (ht.entries i).key < 256 ^ w.count

/-- A table whose keys are at most `K`. -/
structure Ok (w : Width) (K : Nat) (ht : Ahash) : Prop where
  pos : 0 < ht.nentries
  size : ht.nentries ≤ K + K / 4 + 4
  keys : ∀ i < ht.nentries, (ht.entries i).key ≤ K
  vals : ∀ i < ht.nentries, (ht.entries i).val < 256 ^ w.val
  inj : ∀ i < ht.nentries, ∀ j < ht.nentries, (ht.entries i).key = (ht.entries j).key →
    (ht.entries i).key ≠ 0 → i = j
  count : ∀ i < ht.nentries, (ht.entries i).nColijns < ht.nentries
  byte : ∀ i < ht.nentries, (ht.entries i).nColijns < 256 ^ w.count
  home : K < ht.nentries → ∀ i < ht.nentries, (ht.entries i).key ≠ 0 → (ht.entries i).key = i
  reach : Near w ht → ∀ i < ht.nentries, (ht.entries i).key ≠ 0 →
    dist ht.nentries i (ht.entries i).key ≤
      (ht.entries ((ht.entries i).key % ht.nentries)).nColijns

variable {w : Width} {K : Nat} {ht : Ahash}

/-- An empty table is as promised. -/
theorem ok_empty {n nv mc : Nat} (hn : 0 < n) (hs : n ≤ K + K / 4 + 4) :
    Ok w K ⟨nv, n, mc, fun _ => free⟩ where
  pos := hn
  size := hs
  keys := fun _ _ => Nat.zero_le _
  vals := fun _ _ => Nat.pow_pos (by decide)
  inj := fun _ _ _ _ _ h => absurd rfl h
  count := fun _ _ => hn
  byte := fun _ _ => Nat.pow_pos (by decide)
  home := fun _ _ _ h => absurd rfl h
  reach := fun _ _ _ h => absurd rfl h

section Enter

variable {key val slot : Nat}

/-- What entering a key into a free slot changes: the slot, and the count of the key's own slot. -/
theorem enter_entries {h : Ahash} {k v s : Nat} (i : Nat) :
    ((enter w h k v s (dist h.nentries s k)).entries i).key =
        (if i = s then k else (h.entries i).key) ∧
      ((enter w h k v s (dist h.nentries s k)).entries i).val =
        (if i = s then v else (h.entries i).val) ∧
      ((enter w h k v s (dist h.nentries s k)).entries i).nColijns =
        (if i = k % h.nentries ∧
            dist h.nentries s k > (h.entries (k % h.nentries)).nColijns then
          dist h.nentries s k % 256 ^ w.count else (h.entries i).nColijns) := by
  simp only [enter]
  by_cases hd : dist h.nentries s k > (h.entries (k % h.nentries)).nColijns
  · simp only [hd, if_true, and_true, upd_apply]
    by_cases hi : i = s
    · subst hi
      by_cases hh : i = k % h.nentries <;> simp [hh]
    · by_cases hh : i = k % h.nentries
      · have hs : ¬ k % h.nentries = s := hh ▸ hi
        simp [hh, hs]
      · simp [hi, hh]
  · simp only [hd, if_false, and_false, upd_apply]
    by_cases hi : i = s <;> simp [hi]

theorem enter_nentries (d : Nat) : (enter w ht key val slot d).nentries = ht.nentries := rfl

/-- A new key enters a table: the promise is kept, and the table holds one key more. -/
theorem Ok.enter {key val slot : Nat} (h : Ok w K ht) (hs : slot < ht.nentries)
    (hfree : (ht.entries slot).key = 0) (h0 : key ≠ 0) (hK : key ≤ K) (hv : val < 256 ^ w.val)
    (habs : ∀ i < ht.nentries, (ht.entries i).key ≠ key) (hhome : K < ht.nentries → slot = key) :
    Ok w K (Ahash.enter w ht key val slot (dist ht.nentries slot key)) := by
  have he := enter_entries (w := w) (h := ht) (k := key) (v := val) (s := slot)
  have hdist := dist_lt (k := key) hs
  have hmod : key % ht.nentries < ht.nentries := Nat.mod_lt _ h.pos
  refine ⟨h.pos, h.size, fun i hi => ?_, fun i hi => ?_, fun i hi j hj => ?_, fun i hi => ?_,
    fun i hi => ?_, fun hlt i hi => ?_, fun hnear i hi => ?_⟩
  · rw [(he i).1]
    split
    · exact hK
    · exact h.keys i hi
  · rw [(he i).2.1]
    split
    · exact hv
    · exact h.vals i hi
  · rw [(he i).1, (he j).1]
    by_cases h1 : i = slot
    · by_cases h2 : j = slot
      · exact fun _ _ => h1.trans h2.symm
      · rw [if_pos h1, if_neg h2]
        exact fun e => absurd e.symm (habs j hj)
    · by_cases h2 : j = slot
      · rw [if_neg h1, if_pos h2]
        exact fun e => absurd e (habs i hi)
      · rw [if_neg h1, if_neg h2]
        exact h.inj i hi j hj
  · rw [(he i).2.2, enter_nentries]
    split
    · exact Nat.lt_of_le_of_lt (Nat.mod_le _ _) hdist
    · exact h.count i hi
  · rw [(he i).2.2]
    split
    · exact Nat.mod_lt _ (Nat.pow_pos (by decide))
    · exact h.byte i hi
  · rw [(he i).1]
    split
    · rename_i hi'
      exact fun _ => (hhome hlt).symm.trans hi'.symm
    · exact h.home hlt i hi
  · have hd : dist ht.nentries slot key < 256 ^ w.count := by
      have := hnear slot hs
      rw [(he slot).1, if_pos rfl] at this
      exact this h0
    have hold : Near w ht := by
      intro j hj hk
      have hne : j ≠ slot := fun e => hk (e ▸ hfree)
      have := hnear j hj
      rw [(he j).1, if_neg hne] at this
      exact this hk
    -- no count gets smaller, and the count of the key's own slot is enough
    have hmono : ∀ x, (ht.entries x).nColijns ≤
        ((Ahash.enter w ht key val slot (dist ht.nentries slot key)).entries x).nColijns := by
      intro x
      rw [(he x).2.2]
      split
      · rename_i hx
        rw [Nat.mod_eq_of_lt hd, hx.1]
        exact Nat.le_of_lt hx.2
      · exact le_rfl
    have hown : dist ht.nentries slot key ≤
        ((Ahash.enter w ht key val slot (dist ht.nentries slot key)).entries
          (key % ht.nentries)).nColijns := by
      rw [(he _).2.2]
      split
      · rw [Nat.mod_eq_of_lt hd]
      · rename_i hx
        exact Nat.le_of_not_lt fun hlt => hx ⟨rfl, hlt⟩
    rw [(he i).1, enter_nentries]
    split
    · rename_i hi'
      exact fun _ => hi' ▸ hown
    · exact fun hk => (h.reach hold i hi hk).trans (hmono _)

theorem enter_holds {key val slot : Nat} (hs : slot < ht.nentries)
    (hfree : (ht.entries slot).key = 0) {k v : Nat} (hk : k ≠ 0) :
    Holds (Ahash.enter w ht key val slot (dist ht.nentries slot key)) k v ↔
      Holds ht k v ∨ (k = key ∧ v = val) := by
  have he := enter_entries (w := w) (h := ht) (k := key) (v := val) (s := slot)
  constructor
  · rintro ⟨i, hi, h1, h2⟩
    rw [(he i).1] at h1
    rw [(he i).2.1] at h2
    by_cases hslot : i = slot
    · rw [if_pos hslot] at h1 h2
      exact .inr ⟨h1.symm, h2.symm⟩
    · rw [if_neg hslot] at h1 h2
      exact .inl ⟨i, hi, h1, h2⟩
  · rintro (⟨i, hi, h1, h2⟩ | ⟨rfl, rfl⟩)
    · have hslot : i ≠ slot := fun e => hk (h1.symm.trans (e ▸ hfree))
      exact ⟨i, hi, by rw [(he i).1, if_neg hslot, h1], by rw [(he i).2.1, if_neg hslot, h2]⟩
    · exact ⟨slot, hs, by rw [(he slot).1, if_pos rfl], by rw [(he slot).2.1, if_pos rfl]⟩

end Enter

/-! ## Search -/

/-- A search goes to slots of the table. -/
theorem probes_lt (h : Ok w K ht) {index i : Nat} (hi : index < ht.nentries)
    (hm : i ∈ probes ht.nentries index (ht.entries index).nColijns
      (index + (ht.entries index).nColijns - ht.nentries + 1)) : i < ht.nentries := by
  obtain ⟨j, hj, rfl⟩ := List.getElem_of_mem hm
  have hc := h.count index hi
  rw [probes_get hi hj]
  rw [length_probes] at hj
  unfold slotAt
  split
  · assumption
  · split at hj <;> omega

/-- A search comes to the slots that the count reaches. -/
theorem mem_probes (h : Ok w K ht) {k i : Nat} (hi : i < ht.nentries) (hne : i ≠ k % ht.nentries) :
    i ∈ probes ht.nentries (k % ht.nentries) (ht.entries (k % ht.nentries)).nColijns
        (k % ht.nentries + (ht.entries (k % ht.nentries)).nColijns - ht.nentries + 1) ↔
      dist ht.nentries i k ≤ (ht.entries (k % ht.nentries)).nColijns := by
  have hhome : k % ht.nentries < ht.nentries := Nat.mod_lt _ h.pos
  have hc := h.count _ hhome
  generalize hcnt : (ht.entries (k % ht.nentries)).nColijns = c at hc
  have hlen : (probes ht.nentries (k % ht.nentries) c
      (k % ht.nentries + c - ht.nentries + 1)).length = c := by
    rw [length_probes]
    split <;> omega
  constructor
  · intro hm
    rw [dist_eq hi]
    obtain ⟨j, hj, hget⟩ := List.getElem_of_mem hm
    rw [probes_get hhome hj] at hget
    rw [hlen] at hj
    unfold slotAt at hget
    split at hget <;> split <;> omega
  · intro hle
    obtain ⟨hpos, hat⟩ := slotAt_dist hi hne
    have hget := probes_get (w := k % ht.nentries + c - ht.nentries + 1)
      (j := dist ht.nentries i k - 1) hhome (by rw [hlen]; omega)
    rw [← hget.trans hat]
    exact List.getElem_mem _

/-- A search for a key of the table ends at its slot, if the count reaches it. -/
theorem lookupEntry_held (h : Ok w K ht) {k i : Nat} (hk : k ≠ 0) (hi : i < ht.nentries)
    (hkey : (ht.entries i).key = k) :
    lookupEntry ht.nentries ht.entries k =
      if dist ht.nentries i k ≤ (ht.entries (k % ht.nentries)).nColijns then some i else none := by
  have hhome : k % ht.nentries < ht.nentries := Nat.mod_lt _ h.pos
  have huniq : ∀ j < ht.nentries, (ht.entries j).key = k → j = i := fun j hj hjk =>
    h.inj j hj i hi (hjk.trans hkey.symm) (hjk ▸ hk)
  have hd := dist_eq (k := k) hi
  unfold lookupEntry
  by_cases hfirst : (ht.entries (k % ht.nentries)).key = k
  · have hsame : k % ht.nentries = i := huniq _ hhome hfirst
    rw [if_pos hfirst, hd, hsame, if_pos le_rfl, Nat.sub_self, if_pos (Nat.zero_le _)]
  · have hne : i ≠ k % ht.nentries := fun e => hfirst (e ▸ hkey)
    have hdpos : 0 < dist ht.nentries i k := by
      rw [hd]
      split <;> omega
    have hmem := mem_probes h hi hne
    rw [if_neg hfirst]
    by_cases hreach : dist ht.nentries i k ≤ (ht.entries (k % ht.nentries)).nColijns
    · rw [if_pos hreach, if_pos (by omega)]
      obtain ⟨x, hx⟩ := Option.isSome_iff_exists.1 ((List.find?_isSome
        (p := fun j => decide ((ht.entries j).key = k))).2
          ⟨i, hmem.2 hreach, decide_eq_true hkey⟩)
      have hxk := List.find?_some hx
      have hxn := probes_lt h hhome (List.mem_of_find?_eq_some hx)
      rw [hx, huniq x hxn (of_decide_eq_true hxk)]
    · rw [if_neg hreach]
      split
      · rw [List.find?_eq_none]
        intro x hx hxk
        have hxi := huniq x (probes_lt h hhome hx) (of_decide_eq_true hxk)
        exact hreach (hmem.1 (hxi ▸ hx))
      · rfl

/-- A search for another key finds nothing. -/
theorem lookupEntry_absent (h : Ok w K ht) {k : Nat}
    (habs : ∀ i < ht.nentries, (ht.entries i).key ≠ k) :
    lookupEntry ht.nentries ht.entries k = none := by
  have hhome : k % ht.nentries < ht.nentries := Nat.mod_lt _ h.pos
  unfold lookupEntry
  rw [if_neg (habs _ hhome)]
  split
  · rw [List.find?_eq_none]
    intro x hx hxk
    exact habs x (probes_lt h hhome hx) (of_decide_eq_true hxk)
  · rfl

/-! ## Rehashing -/

/-- In a table with a slot for every key a new key goes to its own. -/
theorem lookupInsertEntry_wide (h : Ok w K ht) {key : Nat} (hK : key ≤ K) (hw : K < ht.nentries)
    (habs : ∀ i < ht.nentries, (ht.entries i).key ≠ key) :
    ht.lookupInsertEntry key = some (key, 0) := by
  have hmod : key % ht.nentries = key := Nat.mod_eq_of_lt (by omega)
  have hfree : (ht.entries key).key = 0 := by
    by_contra hne
    exact habs key (by omega) (h.home hw key (by omega) hne)
  unfold lookupInsertEntry
  simp only [hmod, hfree, or_true, decide_true, if_true]

theorem expand_entries (key : Nat) : ∀ (fuel : Nat) (ht : Ahash),
    (expand key fuel ht).entries = ht.entries ∧ (expand key fuel ht).nentries = ht.nentries
  | 0, _ => ⟨rfl, rfl⟩
  | fuel + 1, ht => by
      rw [expand]
      split
      · exact ⟨rfl, rfl⟩
      · dsimp only
        split
        · exact ⟨rfl, rfl⟩
        · exact expand_entries key fuel _

/-- What an insertion does: the table may grow, and it holds the key besides what it held. -/
structure Inserted (w : Width) (K : Nat) (ht ht' : Ahash) (key val : Nat) : Prop where
  ok : Ok w K ht'
  grows : ht.nentries ≤ ht'.nentries
  holds : ∀ k v, k ≠ 0 → (Holds ht' k v ↔ Holds ht k v ∨ (k = key ∧ v = val))

/-- The old entries enter a larger table slot by slot: after `j` slots it holds what they hold. -/
theorem moved_spec (h : Ok w K ht) {new : Ahash} {f : Nat → Nat → Ahash → Option Ahash}
    (hnew : Ok w K new) (hempty : ∀ k v, k ≠ 0 → ¬ Holds new k v)
    (hins : ∀ key val acc, Ok w K acc → key ≠ 0 → key ≤ K → val < 256 ^ w.val →
      (∀ i < acc.nentries, (acc.entries i).key ≠ key) → new.nentries ≤ acc.nentries →
      ∃ acc', f key val acc = some acc' ∧ Inserted w K acc acc' key val) :
    ∀ j ≤ ht.nentries, ∃ acc, (List.range j).foldlM
        (fun acc i => let e := ht.entries i
          if e.key = 0 then some acc else f e.key e.val acc) new = some acc ∧
      Ok w K acc ∧ new.nentries ≤ acc.nentries ∧
      ∀ k v, k ≠ 0 → (Holds acc k v ↔ ∃ i < j, (ht.entries i).key = k ∧ (ht.entries i).val = v)
  | 0, _ => by
      refine ⟨new, rfl, hnew, le_rfl, fun k v hk => iff_of_false (hempty k v hk) ?_⟩
      rintro ⟨i, hi, -⟩
      omega
  | j + 1, hj => by
      obtain ⟨acc, hacc, hok, hle, hholds⟩ := moved_spec h hnew hempty hins j (by omega)
      have hstep : ∀ k v, (∃ i < j + 1, (ht.entries i).key = k ∧ (ht.entries i).val = v) ↔
          (∃ i < j, (ht.entries i).key = k ∧ (ht.entries i).val = v) ∨
            ((ht.entries j).key = k ∧ (ht.entries j).val = v) := by
        intro k v
        constructor
        · rintro ⟨i, hi, he⟩
          rcases Nat.lt_succ_iff_lt_or_eq.1 hi with hlt | rfl
          · exact .inl ⟨i, hlt, he⟩
          · exact .inr he
        · rintro (⟨i, hi, he⟩ | he)
          · exact ⟨i, by omega, he⟩
          · exact ⟨j, by omega, he⟩
      rw [List.range_succ, List.foldlM_append, hacc]
      by_cases hz : (ht.entries j).key = 0
      · refine ⟨acc, by simp [hz], hok, hle, fun k v hk => ?_⟩
        rw [hholds k v hk, hstep]
        exact ⟨.inl, fun e => e.resolve_right fun e => hk (e.1.symm.trans hz)⟩
      · have habs : ∀ i < acc.nentries, (acc.entries i).key ≠ (ht.entries j).key := by
          intro i hi he
          obtain ⟨i', hi', hk', -⟩ := (hholds _ _ hz).1 ⟨i, hi, he, rfl⟩
          have := h.inj i' (by omega) j (by omega) hk' (hk' ▸ hz)
          omega
        obtain ⟨acc', ha, hin⟩ := hins _ _ acc hok hz (h.keys j (by omega)) (h.vals j (by omega))
          habs hle
        refine ⟨acc', by simp [hz, ha], hin.ok, hle.trans hin.grows, fun k v hk => ?_⟩
        rw [hin.holds k v hk, hholds k v hk, hstep]
        exact or_congr_right (and_congr eq_comm eq_comm)

/-- With enough fuel an insertion ends. -/
theorem insert_spec : ∀ (fuel key val lvl : Nat) (ht : Ahash), Ok w K ht → key ≠ 0 → key ≤ K →
    val < 256 ^ w.val → (∀ i < ht.nentries, (ht.entries i).key ≠ key) →
    K + 2 ≤ ht.nentries + fuel → 0 < fuel →
    ∃ ht', insert w fuel key val lvl ht = some ht' ∧ Inserted w K ht ht' key val
  | fuel + 1, key, val, lvl, ht, h, h0, hK, hv, habs, hfuel, _ => by
      rw [insert, if_neg h0]
      cases hl : ht.lookupInsertEntry key with
      | some p =>
          obtain ⟨slot, d⟩ := p
          obtain ⟨hs, hfree, rfl⟩ := lookupInsertEntry_spec h.pos habs hl
          refine ⟨_, rfl, ?_, le_rfl, fun k v hk => enter_holds hs hfree hk⟩
          refine h.enter hs hfree h0 hK hv habs fun hw => ?_
          rw [lookupInsertEntry_wide h hK hw habs] at hl
          exact (congrArg Prod.fst (Option.some.inj hl)).symm
      | none =>
          -- no slot, so there are keys without a slot of their own, and the table must grow
          have hn : ht.nentries ≤ K := by
            by_contra hw
            rw [lookupInsertEntry_wide h hK (by omega) habs] at hl
            cases hl
          dsimp only
          generalize hex : (if lvl > 1 then expand key (ht.nentries + 2) ht else ht) = hx
          have hes : hx.entries = ht.entries ∧ hx.nentries = ht.nentries := by
            rw [← hex]
            split
            · exact expand_entries key _ ht
            · exact ⟨rfl, rfl⟩
          have hgn : hx.grown.nentries = ht.nentries + max 2 (ht.nentries / 4) := by
            rw [grown, hes.2]
          have hnew : Ok w K hx.grown :=
            ok_empty (by rw [hes.2]; omega) (by rw [hes.2]; omega)
          obtain ⟨acc, hacc, hok, hle, hholds⟩ := moved_spec h
            (f := fun k v acc => insert w fuel k v (lvl + 1) acc) hnew
            (fun k v hk ⟨i, _, hi, _⟩ => hk hi.symm)
            (fun k v acc hok hk hkK hv habs hle =>
              insert_spec fuel k v (lvl + 1) acc hok hk hkK hv habs (by omega) (by omega))
            ht.nentries le_rfl
          have hsame : ∀ k v, k ≠ 0 → (Holds acc k v ↔ Holds ht k v) := hholds
          have habs' : ∀ i < acc.nentries, (acc.entries i).key ≠ key := by
            intro i hi he
            obtain ⟨i', hi', hk', -⟩ := (hsame _ _ h0).1 ⟨i, hi, he, rfl⟩
            exact habs i' hi' hk'
          obtain ⟨ht', hins, hin⟩ := insert_spec fuel key val lvl acc hok h0 hK hv habs' (by omega)
            (by omega)
          refine ⟨ht', ?_, hin.ok, by have := hin.grows; omega, fun k v hk => ?_⟩
          · rw [hes.1, hes.2, hacc]
            exact hins
          · rw [hin.holds k v hk, hsame k v hk]

end Ahash

end AlchemyDB.Format
