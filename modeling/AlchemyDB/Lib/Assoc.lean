/-
# Association lists in key order — what a search tree reads

A search tree is followed by its reading: a list of entries in the order of their
keys, in which a key may occur more than once.  `put` enters behind the entries
with smaller or equal keys, `del` removes the first entry of a key and `set`
rewrites it.  The laws below need no order: they say what is found afterwards,
and that `put` and `del` add and remove one entry.
-/
import Mathlib.Data.List.Perm.Basic
import Mathlib.Tactic.Ring

namespace Assoc

variable {K V : Type} [DecidableEq K]

def get? (l : List (K × V)) (k : K) : Option V := (l.find? (fun e => e.1 = k)).map (·.2)

def del (k : K) : List (K × V) → List (K × V)
  | [] => []
  | e :: l => if e.1 = k then l else e :: del k l

def set (k : K) (v : V) : List (K × V) → List (K × V)
  | [] => []
  | e :: l => if e.1 = k then (k, v) :: l else e :: set k v l

def put [LT K] [DecidableLT K] (k : K) (v : V) : List (K × V) → List (K × V)
  | [] => [(k, v)]
  | e :: l => if k < e.1 then (k, v) :: e :: l else e :: put k v l

section Found

variable {l : List (K × V)} {k j : K} {v w : V}

@[simp] theorem get?_nil : get? ([] : List (K × V)) k = none := rfl

theorem get?_cons (e : K × V) : get? (e :: l) k = if e.1 = k then some e.2 else get? l k := by
  unfold get?
  rw [List.find?_cons]
  by_cases h : e.1 = k <;> simp [h]

theorem mem_of_get? : ∀ {l : List (K × V)}, get? l k = some v → (k, v) ∈ l
  | e :: l, h => by
      rw [get?_cons] at h
      split at h
      · rename_i he
        cases h
        rw [← he]
        exact List.mem_cons_self
      · exact List.mem_cons_of_mem _ (mem_of_get? h)

theorem get?_eq_none : ∀ {l : List (K × V)}, get? l k = none ↔ ∀ e ∈ l, e.1 ≠ k
  | [] => by simp
  | e :: l => by
      rw [get?_cons]
      by_cases h : e.1 = k
      · simp [h]
      · simp [h, get?_eq_none]

/-- An entry that is found can be taken out. -/
theorem perm_del : ∀ {l : List (K × V)}, get? l k = some v → l.Perm ((k, v) :: del k l)
  | e :: l, h => by
      rw [get?_cons] at h
      unfold del
      by_cases he : e.1 = k
      · rw [if_pos he] at h ⊢
        cases h
        rw [← he]
      · rw [if_neg he] at h ⊢
        exact ((perm_del h).cons e).trans (List.Perm.swap _ _ _)

theorem perm_set : ∀ {l : List (K × V)}, get? l k = some v → (set k w l).Perm ((k, w) :: del k l)
  | e :: l, h => by
      rw [get?_cons] at h
      unfold set del
      by_cases he : e.1 = k
      · rw [if_pos he, if_pos he]
      · rw [if_neg he] at h ⊢
        rw [if_neg he]
        exact ((perm_set h).cons e).trans (List.Perm.swap _ _ _)

theorem del_absent : ∀ {l : List (K × V)}, get? l k = none → del k l = l
  | [], _ => rfl
  | e :: l, h => by
      rw [get?_cons] at h
      unfold del
      by_cases he : e.1 = k
      · simp [he] at h
      · rw [if_neg he] at h ⊢
        rw [del_absent h]

theorem mem_of_mem_del {e : K × V} : ∀ {l : List (K × V)}, e ∈ del k l → e ∈ l
  | a :: l, h => by
      unfold del at h
      split at h
      · exact List.mem_cons_of_mem _ h
      · rcases List.mem_cons.1 h with rfl | h
        · exact List.mem_cons_self
        · exact List.mem_cons_of_mem _ (mem_of_mem_del h)

theorem set_same : ∀ {l : List (K × V)}, get? l k = some v → set k v l = l
  | e :: l, h => by
      rw [get?_cons] at h
      unfold set
      by_cases he : e.1 = k
      · rw [if_pos he] at h ⊢
        cases h
        rw [← he]
      · rw [if_neg he] at h ⊢
        rw [set_same h]

theorem set_set (k : K) (v w : V) : ∀ l : List (K × V), set k w (set k v l) = set k w l
  | [] => rfl
  | e :: l => by
      by_cases he : e.1 = k
      · simp [set, he]
      · simp [set, he, set_set k v w l]

theorem del_set (k : K) (v : V) : ∀ l : List (K × V), del k (set k v l) = del k l
  | [] => rfl
  | e :: l => by
      unfold set
      by_cases he : e.1 = k
      · rw [if_pos he]
        simp [del, he]
      · rw [if_neg he]
        simp only [del, if_neg he, del_set k v l]

theorem get?_set (h : get? l k = some v) : ∀ {j : K}, get? (set k w l) j =
    if j = k then some w else get? l j := by
  intro j
  induction l with
  | nil => simp at h
  | cons e l ih =>
      rw [get?_cons] at h
      unfold set
      by_cases he : e.1 = k
      · rw [if_pos he, get?_cons, get?_cons]
        by_cases hj : j = k
        · simp [hj]
        · have : k ≠ j := Ne.symm hj
          simp [hj, this, he]
      · rw [if_neg he] at h ⊢
        rw [get?_cons, get?_cons, ih h]
        by_cases hj : j = k
        · have : e.1 ≠ j := fun h' => he (h'.trans hj)
          simp [hj, he]
        · simp [hj]

theorem length_del (h : get? l k = some v) : (del k l).length + 1 = l.length := by
  have := (perm_del h).length_eq
  simpa using this.symm

theorem length_set (h : get? l k = some v) : (set k w l).length = l.length := by
  have h1 := (perm_set (w := w) h).length_eq
  have h2 := (perm_del h).length_eq
  simp only [List.length_cons] at h1 h2
  omega

end Found

section Put

variable [LT K] [DecidableLT K] {l : List (K × V)} {k j : K} {v w : V}

omit [DecidableEq K] in
theorem perm_put : ∀ {l : List (K × V)}, (put k v l).Perm ((k, v) :: l)
  | [] => .refl _
  | e :: l => by
      unfold put
      split
      · exact .refl _
      · exact (perm_put.cons e).trans (List.Perm.swap _ _ _)

omit [DecidableEq K] in
@[simp] theorem length_put : (put k v l).length = l.length + 1 := by
  simpa using (perm_put (k := k) (v := v) (l := l)).length_eq

/-- A new key and no other is found. -/
theorem get?_put (h : get? l k = none) : get? (put k v l) j = if j = k then some v else get? l j := by
  induction l with
  | nil =>
      unfold put
      rw [get?_cons]
      by_cases hj : j = k
      · simp [hj]
      · have : k ≠ j := Ne.symm hj
        simp [hj, this]
  | cons e l ih =>
      have hn := h
      rw [get?_cons] at h
      by_cases he : e.1 = k
      · simp [he] at h
      rw [if_neg he] at h
      unfold put
      split
      · rw [get?_cons]
        by_cases hj : j = k
        · simp [hj]
        · have : k ≠ j := Ne.symm hj
          simp [hj, this]
      · rw [get?_cons, get?_cons, ih h]
        by_cases hj : j = k
        · have : e.1 ≠ j := fun h' => he (h'.trans hj)
          simp [hj, he]
        · simp [hj]

/-- What has just been entered under a new key is taken out again. -/
theorem del_put : ∀ {l : List (K × V)}, get? l k = none → del k (put k v l) = l
  | [], _ => by simp [put, del]
  | e :: l, h => by
      rw [get?_cons] at h
      by_cases he : e.1 = k
      · simp [he] at h
      rw [if_neg he] at h
      unfold put
      split
      · simp [del]
      · simp only [del, if_neg he, del_put h]

theorem set_put : ∀ {l : List (K × V)}, get? l k = none → set k w (put k v l) = put k w l
  | [], _ => by simp [put, set]
  | e :: l, h => by
      rw [get?_cons] at h
      by_cases he : e.1 = k
      · simp [he] at h
      rw [if_neg he] at h
      unfold put
      split
      · simp [set]
      · simp only [set, if_neg he, set_put h]

omit [DecidableEq K] in
/-- `put` keeps the key order. -/
theorem pairwise_put (irr : ∀ a : K, ¬ a < a) (trans : ∀ a b c : K, a < b → b < c → a < c) :
    ∀ {l : List (K × V)}, l.Pairwise (fun e e' => ¬ e'.1 < e.1) →
      (put k v l).Pairwise (fun e e' => ¬ e'.1 < e.1)
  | [], _ => List.pairwise_singleton _ _
  | e :: l, hs => by
      obtain ⟨h1, h2⟩ := List.pairwise_cons.1 hs
      unfold put
      split
      · rename_i hlt
        refine List.pairwise_cons.2 ⟨fun a ha hak => ?_, hs⟩
        rcases List.mem_cons.1 ha with rfl | ha
        · exact irr _ (trans _ _ _ hak hlt)
        · exact h1 a ha (trans _ _ _ hak hlt)
      · rename_i hlt
        refine List.pairwise_cons.2 ⟨fun a ha => ?_, pairwise_put irr trans h2⟩
        rcases List.mem_cons.1 (perm_put.subset ha) with rfl | ha
        · exact hlt
        · exact h1 a ha

omit [LT K] [DecidableLT K] in
theorem pairwise_del {R : K × V → K × V → Prop} {l : List (K × V)} (h : l.Pairwise R) :
    (del k l).Pairwise R := by
  induction l with
  | nil => exact h
  | cons e l ih =>
      obtain ⟨h1, h2⟩ := List.pairwise_cons.1 h
      unfold del
      split
      · exact h2
      · exact List.pairwise_cons.2 ⟨fun a ha => h1 a (mem_of_mem_del ha), ih h2⟩

/-- In key order, `del` undoes `put` unless the key stands there with another value: then the new
entry goes behind the old one, and the old one is removed. -/
theorem del_put_iff (irr : ∀ a : K, ¬ a < a) (tri : ∀ a b : K, ¬ a < b → ¬ b < a → a = b) :
    ∀ {l : List (K × V)}, l.Pairwise (fun e e' => ¬ e'.1 < e.1) →
      (del k (put k v l) = l ↔ ∀ e ∈ l, e.1 = k → e.2 = v) := by
  have later : ∀ {e : K × V} {l : List (K × V)}, (e :: l).Pairwise (fun e e' => ¬ e'.1 < e.1) →
      k < e.1 → ∀ a ∈ e :: l, a.1 ≠ k := by
    intro e l hs hlt a ha heq
    rcases List.mem_cons.1 ha with rfl | ha
    · exact irr k (heq ▸ hlt)
    · exact (List.pairwise_cons.1 hs).1 a ha (heq ▸ hlt)
  -- behind an entry of the key: the block of the key is turned by one place
  have turn : ∀ {l : List (K × V)} {e : K × V}, e.1 = k →
      (e :: l).Pairwise (fun e e' => ¬ e'.1 < e.1) →
      (put k v l = e :: l ↔ ∀ a ∈ e :: l, a.1 = k → a.2 = v) := by
    intro l
    induction l with
    | nil =>
        intro e he _
        constructor
        · intro h a ha _
          rw [List.mem_singleton.1 ha, ← (List.cons.inj h).1]
        · intro h
          have hv := h e List.mem_cons_self he
          rw [← he, ← hv]
          rfl
    | cons b l ih =>
        intro e he hs
        have hs' := (List.pairwise_cons.1 hs).2
        by_cases hb : k < b.1
        · rw [put, if_pos hb]
          constructor
          · intro h a ha hak
            rcases List.mem_cons.1 ha with rfl | ha
            · rw [← (List.cons.inj h).1]
            · exact absurd hak (later hs' hb a ha)
          · intro h
            have hv := h e List.mem_cons_self he
            rw [← he, ← hv]
        · have hbk : b.1 = k :=
            tri _ _ (he ▸ (List.pairwise_cons.1 hs).1 b List.mem_cons_self) hb
          rw [put, if_neg hb]
          constructor
          · intro h
            obtain ⟨h1, h2⟩ := List.cons.inj h
            have hall := (ih hbk hs').1 h2
            intro a ha hak
            rcases List.mem_cons.1 ha with rfl | ha
            · rw [← h1]
              exact hall b List.mem_cons_self hbk
            · exact hall a ha hak
          · intro h
            have hev := h e List.mem_cons_self he
            have hbv := h b (List.mem_cons_of_mem _ List.mem_cons_self) hbk
            have heb : b = e := Prod.ext (hbk.trans he.symm) (hbv.trans hev.symm)
            rw [(ih hbk hs').2 (fun a ha => h a (List.mem_cons_of_mem _ ha)), heb]
  intro l
  induction l with
  | nil => simp [put, del]
  | cons e l ih =>
      intro hs
      by_cases hlt : k < e.1
      · rw [put, if_pos hlt]
        refine ⟨fun _ a ha hak => absurd hak (later hs hlt a ha), fun _ => ?_⟩
        simp [del]
      · rw [put, if_neg hlt]
        by_cases hek : e.1 = k
        · rw [del, if_pos hek]
          exact turn hek hs
        · rw [del, if_neg hek]
          have := ih (List.pairwise_cons.1 hs).2
          constructor
          · intro h a ha hak
            rcases List.mem_cons.1 ha with rfl | ha
            · exact absurd hak hek
            · exact this.1 (List.cons.inj h).2 a ha hak
          · intro h
            rw [this.2 (fun a ha => h a (List.mem_cons_of_mem _ ha))]

end Put

end Assoc
