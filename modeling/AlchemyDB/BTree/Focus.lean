/-
# `AlchemyDB.BTree.Focus` — running a program on a few nodes

A balancing step works on two or three nodes, any of which may be moved to
another block on the way.  `Edit s s' R R' x x' p pi` says that between two
states only the nodes at the addresses `R` changed, that they are now at the
addresses `R'`, and that the topmost of them, which was at `x`, is now at `x'`,
with the place `(p, pi)` it hangs from patched.  A whole subtree is edited the
same way as a single node, so the runs of the recursive functions have the same
form.

`Focus` is the state of a run in terms of roles: the node that plays the role
`r` is at the address `ad r` and has the contents `ct r`.  One lemma for each
command of `Node.lean` and `Dirty.lean` says what it does to `ad` and `ct`.
-/
import Mathlib.Data.Set.Insert
import AlchemyDB.BTree.View

namespace AlchemyDB

open Store

variable {α : Type}

/-! ## Edits -/

/-- The part of the tree no command below a `bt_insert` or a `bt_delete` changes. -/
def Bt.rest (s : Bt α) : (α → α → Int) × Int × Nat × Nat × Bts :=
  (s.cmp, s.numkeys, s.t, s.nbits, s.s)

/-- The part of the tree no balancing step changes. -/
def Bt.globals (s : Bt α) : Nat × Option (KData α) × Option α :=
  (s.dirtyLeft, s.case2cPtr, s.delBuf)

/-- The tree with a block allocated. -/
def Bt.withNode (s : Bt α) (nd : BtN α) : Bt α :=
  { s with heap := upd s.heap s.next (some nd), next := s.next + 1 }

/-- The run from `s` to `s'` has replaced the nodes `R`, with `x` on top, by the nodes
`R'`, with `x'` on top: elsewhere only the pointer to `x` has changed, and of the nodes `R` and
those allocated meanwhile only `R'` are left. -/
structure Edit (s s' : Bt α) (R R' : Set Nat) (x x' p pi : Nat) : Prop where
  away : ∀ b, b < s.next → b ∉ R → s'.heap b =
    if x ≠ s.root ∧ b = p then (s.heap b).map (fun nd => nd.setKid pi x') else s.heap b
  fresh : ∀ b ∈ R', b ∈ R ∨ s.next ≤ b
  kept : ∀ b, s'.heap b ≠ none → b ∈ R' ∨ b < s.next ∧ b ∉ R
  root : s'.root = if x = s.root then x' else s.root
  next : s.next ≤ s'.next
  bound : ∀ b, s'.heap b ≠ none → b < s'.next
  rest : s'.rest = s.rest

/-- The nodes `R`, with `x` on top, hang from the place `(p, pi)` or from the root
pointer. -/
structure Link (s : Bt α) (R : Set Nat) (x p pi : Nat) : Prop where
  bound : ∀ b, s.heap b ≠ none → b < s.next
  root : s.heap s.root ≠ none
  top : s.root ∈ R → x = s.root
  place : x ≠ s.root → p ∉ R ∧ ∃ nd, s.heap p = some nd ∧ nd.leaf = false ∧ nd.nodes pi = x

section Edit

variable {s s₁ s₂ : Bt α} {R R₁ R₂ : Set Nat} {x x₁ x₂ p pi : Nat}

theorem Link.place_lt (L : Link s R x p pi) (h : x ≠ s.root) : p < s.next := by
  obtain ⟨_, nd, hp, _⟩ := L.place h
  exact L.bound p (by simp [hp])

theorem Link.mono (L : Link s R x p pi) (h : R₁ ⊆ R) : Link s R₁ x p pi :=
  ⟨L.bound, L.root, fun hr => L.top (h hr),
    fun hx => ⟨fun hp => (L.place hx).1 (h hp), (L.place hx).2⟩⟩

theorem Link.kept (L : Link s R x p pi) {b : Nat} (h : s.heap b ≠ none) : b ∈ R ∨ b < s.next ∧ b ∉ R := by
  by_cases hb : b ∈ R
  · exact Or.inl hb
  · exact Or.inr ⟨L.bound b h, hb⟩

theorem Edit.refl (L : Link s R x p pi) : Edit s s R R x x p pi := by
  refine ⟨fun b _ _ => ?_, fun b hb => Or.inl hb, fun b hb => L.kept hb, ?_, Nat.le_refl _, L.bound, rfl⟩
  · split_ifs with h
    · obtain ⟨_, nd, hp, _, hn⟩ := L.place h.1
      rw [h.2, hp, Option.map_some, BtN.setKid_self _ _ _ hn]
    · rfl
  · split_ifs with h
    · exact h.symm
    · rfl

/-- What is outside is untouched, so it stays outside. -/
theorem Edit.notin (E : Edit s s₁ R R₁ x x₁ p pi) {b : Nat} (h : b < s.next) (hb : b ∉ R) :
    b ∉ R₁ := by
  intro h'
  rcases E.fresh b h' with h1 | h1
  · exact hb h1
  · omega

/-- What is live outside afterwards was live before. -/
theorem Edit.live_before (E : Edit s s₁ R R₁ x x₁ p pi) {b : Nat} (hb : b < s.next) (hR : b ∉ R)
    (h : s₁.heap b ≠ none) : s.heap b ≠ none := by
  rw [E.away b hb hR] at h
  split_ifs at h
  · exact fun e => h (by rw [e]; rfl)
  · exact h

/-- The top node is the root before iff it is afterwards. -/
theorem Edit.top_root (E : Edit s s₁ R R₁ x x₁ p pi) (L : Link s R x p pi) (hx : x₁ ∈ R₁) :
    x₁ = s₁.root ↔ x = s.root := by
  rw [E.root]
  constructor
  · intro h
    by_contra hne
    rw [if_neg hne] at h
    rw [h] at hx
    exact E.notin (L.bound _ L.root) (fun hr => hne (L.top hr)) hx
  · intro h
    rw [if_pos h]

theorem Edit.link (E : Edit s s₁ R R₁ x x₁ p pi) (L : Link s R x p pi) (hx : x₁ ∈ R₁)
    (hl : s₁.heap x₁ ≠ none) : Link s₁ R₁ x₁ p pi := by
  refine ⟨E.bound, ?_, ?_, ?_⟩
  · by_cases h : x = s.root
    · rw [E.root, if_pos h]
      exact hl
    · have hr := L.bound _ L.root
      rw [E.root, if_neg h, E.away _ hr (fun hr' => h (L.top hr'))]
      split_ifs
      · simpa using L.root
      · exact L.root
  · intro hr
    rw [E.top_root L hx]
    by_contra h
    rw [E.root, if_neg h] at hr
    exact E.notin (L.bound _ L.root) (fun hr' => h (L.top hr')) hr
  · intro hne
    have h : x ≠ s.root := fun h => hne ((E.top_root L hx).2 h)
    obtain ⟨hp, nd, hnd, hlf, _⟩ := L.place h
    have hlt := L.place_lt h
    refine ⟨E.notin hlt hp, nd.setKid pi x₁, ?_, hlf, by simp⟩
    rw [E.away p hlt hp, if_pos ⟨h, rfl⟩, hnd]
    rfl

theorem Edit.trans (E : Edit s s₁ R R₁ x x₁ p pi) (E' : Edit s₁ s₂ R₁ R₂ x₁ x₂ p pi)
    (L : Link s R x p pi) (hx : x₁ ∈ R₁) : Edit s s₂ R R₂ x x₂ p pi := by
  have hr := E.top_root L hx
  refine ⟨?_, ?_, ?_, ?_, Nat.le_trans E.next E'.next, E'.bound, E'.rest.trans E.rest⟩
  · intro b hb hbR
    rw [E'.away b (Nat.lt_of_lt_of_le hb E.next) (E.notin hb hbR), E.away b hb hbR]
    by_cases h : x = s.root
    · simp [h, hr.2 h]
    · have h' : x₁ ≠ s₁.root := fun e => h (hr.1 e)
      by_cases hp : b = p
      · simp only [ne_eq, h, not_false_eq_true, h', hp, and_self, if_true, Option.map_map]
        congr 1
        funext nd
        simp
      · simp [hp]
  · intro b hb
    have hn := E.next
    rcases E'.fresh b hb with h | h
    · exact E.fresh b h
    · exact Or.inr (by omega)
  · intro b hb
    rcases E'.kept b hb with h | ⟨h1, h2⟩
    · exact Or.inl h
    · exact Or.inr ((E.kept b (E'.live_before h1 h2 hb)).resolve_left h2)
  · rw [E'.root]
    by_cases h : x = s.root
    · rw [if_pos (hr.2 h), if_pos h]
    · rw [if_neg (fun e => h (hr.1 e)), if_neg h, E.root, if_neg h]

/-- Writing to one of the nodes. -/
theorem Edit.write (L : Link s R x p pi) {b : Nat} (hb : b ∈ R) (hl : s.heap b ≠ none)
    (v : Option (BtN α)) : Edit s (s.setHeap b v) R R x x p pi := by
  have E := Edit.refl L
  refine ⟨?_, E.fresh, ?_, E.root, E.next, ?_, rfl⟩
  · intro c hc hcR
    have : c ≠ b := fun e => hcR (e ▸ hb)
    rw [Bt.setHeap_heap, upd_ne _ _ this]
    exact E.away c hc hcR
  · intro c hc
    by_cases h : c = b
    · exact Or.inl (h ▸ hb)
    · rw [Bt.setHeap_heap, upd_ne _ _ h] at hc
      exact E.kept c hc
  · intro c hc
    by_cases h : c = b
    · rw [h]
      exact L.bound b hl
    · rw [Bt.setHeap_heap, upd_ne _ _ h] at hc
      exact L.bound c hc

/-- One of the nodes is freed. -/
theorem Edit.free {b : Nat} (E : Edit s s₁ R (insert b R₁) x x₁ p pi) (hb : b ∈ R) :
    Edit s (s₁.setHeap b none) R R₁ x x₁ p pi := by
  -- what is live is another node
  have hlive : ∀ c, (s₁.setHeap b none).heap c ≠ none → c ≠ b ∧ s₁.heap c ≠ none := by
    intro c hc
    by_cases e : c = b
    · rw [e, Bt.setHeap_heap, upd_same] at hc
      exact absurd rfl hc
    · rw [Bt.setHeap_heap, upd_ne _ _ e] at hc
      exact ⟨e, hc⟩
  refine ⟨?_, fun c hc => E.fresh c (Or.inr hc), ?_, E.root, E.next, fun c hc => E.bound c (hlive c hc).2,
    E.rest⟩
  · intro c hc hcR
    have hne : c ≠ b := fun e => hcR (e ▸ hb)
    rw [Bt.setHeap_heap, upd_ne _ _ hne]
    exact E.away c hc hcR
  · intro c hc
    obtain ⟨hne, hc⟩ := hlive c hc
    exact (E.kept c hc).imp_left fun h => h.resolve_left hne

/-- A block is allocated. -/
theorem Edit.malloc (L : Link s R x p pi) (nd : BtN α) :
    Edit s (s.withNode nd) R (insert s.next R) x x p pi := by
  have E := Edit.refl L
  refine ⟨?_, ?_, ?_, E.root, Nat.le_succ _, ?_, rfl⟩
  · intro b hb hbR
    show upd s.heap s.next (some nd) b = _
    rw [upd_ne _ _ (Nat.ne_of_lt hb)]
    exact E.away b hb hbR
  · rintro b (rfl | hb)
    · exact Or.inr (Nat.le_refl _)
    · exact Or.inl hb
  · intro b hb
    by_cases h : b = s.next
    · exact Or.inl (Or.inl h)
    · have hb' : s.heap b ≠ none := by simpa [Bt.withNode, h] using hb
      exact (E.kept b hb').imp_left Or.inr
  · intro b hb
    show b < s.next + 1
    by_cases h : b = s.next
    · omega
    · have hb' : s.heap b ≠ none := by simpa [Bt.withNode, h] using hb
      have := L.bound b hb'
      omega

/-- An edit of some of the nodes. -/
theorem Edit.widen (E : Edit s s₁ R R₁ x x₁ p pi) {S S₁ : Set Nat} (h : R ⊆ S)
    (h₁ : ∀ b ∈ S₁, b ∈ S ∨ s.next ≤ b) (h₂ : ∀ b ∈ R₁, b ∈ S₁)
    (h₃ : ∀ b ∈ S, b ∉ R → b ∈ S₁) : Edit s s₁ S S₁ x x₁ p pi := by
  refine ⟨fun b hb hbS => E.away b hb (fun hb' => hbS (h hb')), h₁, fun b hb => ?_, E.root, E.next,
    E.bound, E.rest⟩
  rcases E.kept b hb with hb' | ⟨h4, h5⟩
  · exact Or.inl (h₂ b hb')
  · by_cases hS : b ∈ S
    · exact Or.inl (h₃ b hS h5)
    · exact Or.inr ⟨h4, hS⟩

/-- An edit of nodes below `y`, in slot `i`, is an edit of `y` and these nodes. -/
theorem Edit.lift {y i : Nat} (E : Edit s s₁ R R₁ x x₁ y i) (hx : x ≠ s.root)
    (L : Link s (insert y R) y p pi) : Edit s s₁ (insert y R) (insert y R₁) y y p pi := by
  refine ⟨?_, ?_, ?_, ?_, E.next, E.bound, E.rest⟩
  · intro b hb hbR
    have h1 : b ≠ y := fun e => hbR (Or.inl e)
    have h2 : b ∉ R := fun e => hbR (Or.inr e)
    rw [E.away b hb h2, if_neg (by simp [h1])]
    split_ifs with h
    · obtain ⟨_, nd, hp, _, hn⟩ := L.place h.1
      rw [h.2, hp, Option.map_some, BtN.setKid_self _ _ _ hn]
    · rfl
  · intro b hb
    rcases hb with rfl | hb
    · exact Or.inl (Or.inl rfl)
    · rcases E.fresh b hb with h | h
      · exact Or.inl (Or.inr h)
      · exact Or.inr h
  · intro b hb
    by_cases h : b = y
    · exact Or.inl (Or.inl h)
    · rcases E.kept b hb with h1 | ⟨h1, h2⟩
      · exact Or.inl (Or.inr h1)
      · exact Or.inr ⟨h1, fun h' => h'.elim h h2⟩
  · rw [E.root, if_neg hx]
    split_ifs with h
    · exact h.symm
    · rfl

end Edit

/-! ## Commands on one node -/

section Run

variable {s : Bt α} {x : Nat} {nd : BtN α}

theorem getN_run (h : s.heap x = some nd) : getN x s = some (nd, s) := by
  simp [getN, h]

theorem setN_run (h : s.heap x = some nd) (nd' : BtN α) :
    setN x nd' s = some ((), s.setHeap x (some nd')) := by
  simp [setN, h]

theorem modN_run (h : s.heap x = some nd) (f : BtN α → BtN α) :
    modN x f s = some ((), s.setHeap x (some (f nd))) := by
  rw [modN, run_bind (getN_run h), setN_run h]

theorem incrScion_run (h : s.heap x = some nd) (m : Int) :
    incrScion x m s = some ((), s.setHeap x (some (nd.addSc m))) := modN_run h _

theorem decrScion_run (h : s.heap x = some nd) (m : Int) :
    decrScion x m s = some ((), s.setHeap x (some (nd.addSc (-m)))) := modN_run h _

theorem addN_run (h : s.heap x = some nd) (m : Nat) :
    modN x (fun nd => { nd with n := nd.n + m }) s =
      some ((), s.setHeap x (some (nd.addN m))) := modN_run h _

theorem withSc_run (h : s.heap x = some nd) (m : Int) :
    modN x (fun nd => { nd with scion := m }) s =
      some ((), s.setHeap x (some (nd.withSc m))) := modN_run h _

theorem withN_run (h : s.heap x = some nd) (m : Nat) :
    modN x (fun nd => { nd with n := m }) s =
      some ((), s.setHeap x (some (nd.withN m))) := modN_run h _

theorem subN_run (h : s.heap x = some nd) (m : Nat) :
    modN x (fun nd => { nd with n := nd.n - m }) s =
      some ((), s.setHeap x (some (nd.withN (nd.n - m)))) := modN_run h _

theorem freeN_run (h : s.heap x = some nd) : freeN x s = some ((), s.setHeap x none) := by
  simp [freeN, h]

theorem getNode_run (h : s.heap x = some nd) (hl : nd.leaf = false) (i : Nat) :
    getNode x i s = some (nd.nodes i, s) := by
  rw [getNode, run_bind (getN_run h), hl]
  rfl

theorem setNode_run (h : s.heap x = some nd) (hl : nd.leaf = false) (i y : Nat) :
    setNode x i y s = some ((), s.setHeap x (some (nd.setKid i y))) := by
  simp only [setNode, run_bind (getN_run h), hl, Bool.false_eq_true, if_false]
  rw [setN_run h, BtN.setKid, hl]

theorem getDR_run (h : s.heap x = some nd) (i : Nat) : getDR x i s = some (nd.dr i, s) := by
  rw [getDR, run_bind (getN_run h)]
  rfl

theorem setDRRaw_run (h : s.heap x = some nd) (hd : ¬ nd.dirty ≤ 0) (i v : Nat) :
    setDRRaw x i v s = some ((), s.setHeap x (some (nd.setDRRaw s.t i v))) := by
  rw [setDRRaw, run_bind (run_get s), run_bind (getN_run h), if_neg hd]
  exact setN_run h _

theorem zeroDR_run (h : s.heap x = some nd) (i : Nat) :
    zeroDR x i s = some (x, s.setHeap x (some (nd.zDR s.t i))) := by
  rw [zeroDR, run_bind (getN_run h), BtN.zDR]
  split_ifs with hd
  · rw [run_pure, Bt.setHeap, ← h, upd_self]
  · rw [run_bind (setDRRaw_run h hd i 0)]
    rfl

/-- On a node that has a stream, or with nothing to set, `setDR` stays in place. -/
theorem setDR_run (h : s.heap x = some nd) {i v : Nat} (hd : v ≠ 0 → ¬ nd.dirty ≤ 0)
    (p pi : Nat) :
    setDR x i v p pi s = some (x, s.setHeap x (some (nd.stDR s.t i v))) := by
  rw [setDR, BtN.stDR]
  split_ifs with hv
  · rw [run_pure, Bt.setHeap, ← h, upd_self]
  · exact absurd ‹_› (hd hv)
  · simp only [run_bind (getN_run h), if_neg (hd hv), run_bind (run_pure x s),
      run_bind (setDRRaw_run h (hd hv) i v)]
    rfl

theorem overwriteDR_run (h : s.heap x = some nd) {i v : Nat} (hd : v ≠ 0 → ¬ nd.dirty ≤ 0)
    (p pi : Nat) :
    overwriteDR x i v p pi s = some (x, s.setHeap x (some (nd.owDR s.t i v))) := by
  rw [overwriteDR, BtN.owDR]
  split_ifs with hv
  · exact setDR_run h hd p pi
  · exact zeroDR_run h i

/-- `addDStoBTN`, as the heap shows it afterwards. -/
theorem addDStoBTN_run {q j : Nat} (h : s.heap x = some nd) (hx : x ≠ s.next)
    (hq : x ≠ s.root → q ≠ x ∧ q ≠ s.next ∧ ∃ nq, s.heap q = some nq ∧ nq.leaf = false) :
    ∃ s', addDStoBTN x q j 1 s = some (s.next, s') ∧ s'.next = s.next + 1 ∧
      s'.root = (if x = s.root then s.next else s.root) ∧ s'.rest = s.rest ∧
      s'.globals = s.globals ∧ s'.heap s.next = some nd.addDS ∧ s'.heap x = none ∧
      ∀ b, b ≠ s.next → b ≠ x → s'.heap b =
        if x ≠ s.root ∧ b = q then (s.heap b).map (fun nq => nq.setKid j s.next)
        else s.heap b := by
  by_cases hr : x = s.root
  · refine ⟨{ s with heap := upd (upd s.heap s.next (some nd.addDS)) x none, next := s.next + 1,
                     dirty := true, root := s.next }, ?_, rfl, by simp [hr], rfl, rfl, ?_,
      by simp, ?_⟩
    · simp only [addDStoBTN, run_bind (getN_run h)]
      simp [mallocN, freeN, Bt.setHeap, BtN.addDS, hr ▸ hx, hr ▸ h, hr, bind, StateT.bind,
        modify, modifyGet, MonadStateOf.modifyGet, StateT.modifyGet, get, getThe,
        MonadStateOf.get, StateT.get]
    · simp [hx.symm]
    · intro b h1 h2
      simp only [hr, ne_eq, not_true_eq_false, false_and, if_false]
      rw [upd_ne _ _ (hr ▸ h2), upd_ne _ _ h1]
  · obtain ⟨h1, h2, nq, h3, h4⟩ := hq hr
    refine ⟨{ s with heap := upd (upd (upd s.heap s.next (some nd.addDS)) q
                        (some (nq.setKid j s.next))) x none,
                     next := s.next + 1, dirty := true }, ?_, rfl, by simp [hr], rfl, rfl, ?_,
      by simp, ?_⟩
    · simp only [addDStoBTN, run_bind (getN_run h)]
      simp [mallocN, freeN, setNode, getN, setN, Bt.setHeap, BtN.addDS, BtN.setKid, hx, h2,
        h1.symm, h, hr, h3, h4, bind, StateT.bind, modify, modifyGet, MonadStateOf.modifyGet,
        StateT.modifyGet, get, getThe, MonadStateOf.get, StateT.get]
    · simp [hx.symm, h2.symm]
    · intro b h5 h6
      simp only [ne_eq, hr, not_false_eq_true, true_and]
      split_ifs with h7
      · simp [h7, h1, h3]
      · simp [h5, h6, h7]

theorem KEYS_run (h : s.heap x = some nd) (i : Nat) :
    KEYS x i s = some (if s.s.narrow then .val (nd.keys i) else .slot x i, s) := by
  simp only [KEYS, run_bind (getN_run h), run_bind (run_get s)]
  split_ifs <;> rfl

theorem setBTKeyRaw_run (h : s.heap x = some nd) {i : Nat} {src : KData α} {k : α}
    (hk : s.deref src = some k) :
    setBTKeyRaw x i src s = some ((), s.setHeap x (some (nd.setKey i k))) := by
  simp only [setBTKeyRaw, run_bind (run_get s), hk]
  exact modN_run h _

/-- A key is copied, whether `KEYS` hands out the entry or a pointer to its slot. -/
theorem deref_KEYS (h : s.heap x = some nd) (i : Nat) :
    s.deref (if s.s.narrow then .val (nd.keys i) else .slot x i) = some (nd.keys i) := by
  split_ifs
  · rfl
  · simp [Bt.deref, h]

/-- One round of `mvXKeys` within a node. -/
theorem mvXKeysStep_in (h : s.heap x = some nd) (di si p pi : Nat) :
    mvXKeysStep true di si p pi x x s =
      some ((x, x), s.setHeap x (some (nd.mvIn s.t di si))) := by
  -- the copy of the key, once the DRs have moved
  have hkeys : ∀ {nd' : BtN α}, nd'.keys = nd.keys →
      (do
        let nds ← getN x
        modN x (fun m => { m with keys := upd m.keys di (nds.keys si) })
        pure (x, x) : BtM α (Nat × Nat)) (s.setHeap x (some nd')) =
        some ((x, x), s.setHeap x (some (nd'.setKey di (nd.keys si)))) := by
    intro nd' hk
    have h' : (s.setHeap x (some nd')).heap x = some nd' := by simp
    rw [run_bind (getN_run h'), run_bind (modN_run h' _), run_pure, Bt.setHeap_setHeap, hk]
    simp only [BtN.setKey, hk]
  simp only [mvXKeysStep, run_bind (getDR_run h si), run_bind (getDR_run h di), BtN.mvIn]
  split_ifs with h1 h2
  · have hs := setDR_run h (i := di) (v := nd.dr si) (fun _ => BtN.dirty_of_dr h1) p pi
    have h' : (s.setHeap x (some (nd.stDR s.t di (nd.dr si)))).heap x =
        some (nd.stDR s.t di (nd.dr si)) := by simp
    simp only [pure_bind, run_bind hs, run_bind (zeroDR_run h' si), Bt.setHeap_setHeap,
      Bt.setHeap_t]
    exact hkeys (by simp)
  · simp only [pure_bind, run_bind (zeroDR_run h di)]
    exact hkeys (by simp)
  · have hs : s.setHeap x (some nd) = s := by rw [Bt.setHeap, ← h, upd_self]
    simp only [pure_bind]
    have := hkeys (Eq.refl nd.keys)
    rwa [hs] at this

/-- `mvXKeys` within a node stays in place. -/
theorem mvXKeys_in (h : s.heap x = some nd) (di si num p pi : Nat) :
    mvXKeys x di x si num p pi s = some ((x, x), s.setHeap x (some
      ((mvXKeysOrder di si num).foldl (fun nd i => nd.mvIn s.t (di + i) (si + i)) nd))) := by
  have key : ∀ (l : List Nat) (s' : Bt α) (nd' : BtN α), s'.heap x = some nd' →
      l.foldlM (fun ds i => mvXKeysStep (x == x) (di + i) (si + i) p pi ds.1 ds.2) (x, x) s' =
        some ((x, x), s'.setHeap x (some
          (l.foldl (fun nd i => nd.mvIn s'.t (di + i) (si + i)) nd'))) := by
    intro l
    induction l with
    | nil =>
        intro s' nd' h'
        simp [Bt.setHeap, ← h']
    | cons i l ih =>
        intro s' nd' h'
        have hx : (s'.setHeap x (some (nd'.mvIn s'.t (di + i) (si + i)))).heap x =
            some (nd'.mvIn s'.t (di + i) (si + i)) := by simp
        simp only [List.foldlM_cons, beq_self_eq_true, List.foldl_cons] at ih ⊢
        rw [run_bind (mvXKeysStep_in h' (di + i) (si + i) p pi), ih _ _ hx]
        simp
  exact key _ s nd h

/-- `setBTKey` within a node stays in place. -/
theorem setBTKey_in (h : s.heap x = some nd) (di si p pi : Nat) :
    setBTKey x di x si true p pi s = some (x, s.setHeap x (some (nd.cpIn s.t di si))) := by
  have ho := overwriteDR_run h (i := di) (v := nd.dr si) BtN.dirty_of_dr p pi
  have h₁ : (s.setHeap x (some (nd.owDR s.t di (nd.dr si)))).heap x =
      some (nd.owDR s.t di (nd.dr si)) := by simp
  have hz := zeroDR_run h₁ si
  rw [Bt.setHeap_setHeap, Bt.setHeap_t] at hz
  have h₂ : (s.setHeap x (some ((nd.owDR s.t di (nd.dr si)).zDR s.t si))).heap x =
      some ((nd.owDR s.t di (nd.dr si)).zDR s.t si) := by simp
  simp only [setBTKey, if_true, pure_bind, run_bind (getDR_run h si), run_bind ho,
    run_bind hz, run_bind (KEYS_run h₂ si), run_bind (setBTKeyRaw_run h₂ (deref_KEYS h₂ si))]
  simp [BtN.cpIn]

theorem trimBTN_run (h : s.heap x = some nd) (drt : Bool) :
    trimBTN x drt s = some (x, s.setHeap x (some (nd.trim s.t drt))) := by
  simp only [trimBTN, run_bind (getN_run h), BtN.trim]
  cases drt with
  | false =>
      simp only [Bool.false_eq_true, if_false, pure_bind, run_bind (modN_run h _)]
      rfl
  | true =>
      have h₁ : (s.setHeap x (some (nd.zDR s.t nd.n))).heap x = some (nd.zDR s.t nd.n) := by simp
      simp only [if_true, run_bind (zeroDR_run h nd.n), run_bind (modN_run h₁ _)]
      simp

theorem mvXNodes_run {z : Nat} {nz : BtN α} (h : s.heap x = some nd) (hz : s.heap z = some nz)
    (hl : nd.leaf = false) (hlz : nz.leaf = false) (xo zo num : Nat) :
    mvXNodes x xo z zo num s =
      some ((), s.setHeap x (some (nd.mvKids nz.nodes xo zo num))) := by
  simp only [mvXNodes, run_bind (getN_run hz), run_bind (getN_run h), hl, hlz, Bool.or_self,
    Bool.false_eq_true, if_false]
  rw [setN_run h, BtN.mvKids, hl]

theorem shiftKids_run (h : s.heap x = some nd) {lf : Bool} (hl : nd.leaf = lf) (xo zo num : Nat) :
    unlessLeaf lf (mvXNodes x xo x zo num) s = some ((), s.setHeap x
      (some (if lf then nd else nd.mvKids nd.nodes xo zo num))) := by
  cases lf with
  | true => simp [unlessLeaf, Bt.setHeap, ← h]
  | false => simpa [unlessLeaf] using mvXNodes_run h h hl hl xo zo num

/-- `get_scion_range` counts each key with its DR. -/
theorem getScionRange_run (h : s.heap x = some nd) (m : Nat) :
    getScionRange x 0 m s =
      some (((List.range m).map (fun j => 1 + (nd.dr j : Int))).sum, s) := by
  simp only [getScionRange, run_bind (getN_run h)]
  split_ifs with hd
  · have hz : ∀ j, nd.dr j = 0 := fun j => by simp [BtN.dr, hd]
    simp [hz]
  · rw [Nat.sub_zero, ← List.range_eq_range']
    rfl

/-- `move_scion` reads the scions of nodes that it does not change. -/
theorem moveScion_run {y : Nat} {nz : BtN α} {f : Nat → Int} (hx : s.heap x = some nz)
    (hl : nz.leaf = false) (hy : s.heap y = some nd) (hxy : x ≠ y) {m : Nat}
    (hc : ∀ j < m, ∃ c, s.heap (nz.nodes j) = some c ∧ c.scion = f j ∧ nz.nodes j ≠ y) :
    moveScion y x m s = some ((), s.setHeap y (some (nd.addSc ((List.range m).map f).sum))) := by
  have key : ∀ (l : List Nat), (∀ j ∈ l, j < m) → ∀ (nd' : BtN α) (s' : Bt α),
      s'.heap y = some nd' → (∀ b, b ≠ y → s'.heap b = s.heap b) →
      (l.forM fun i => do
        let c ← getNode x i
        let nd ← getN c
        incrScion y nd.scion : BtM α Unit) s' =
          some ((), s'.setHeap y (some (nd'.addSc (l.map f).sum))) := by
    intro l
    induction l with
    | nil =>
        intro _ nd' s' h' _
        simp [Bt.setHeap, BtN.addSc, ← h']
    | cons j l ih =>
        intro hj nd' s' h' hs
        obtain ⟨c, h1, h2, h3⟩ := hc j (hj j (by simp))
        have hx' : s'.heap x = some nz := by rw [hs x hxy, hx]
        have hc' : s'.heap (nz.nodes j) = some c := by rw [hs _ h3, h1]
        have hy' : (s'.setHeap y (some (nd'.addSc c.scion))).heap y =
            some (nd'.addSc c.scion) := by simp
        simp only [List.forM, bind_assoc, run_bind (getNode_run hx' hl j),
          run_bind (getN_run hc'), run_bind (incrScion_run h' _)]
        rw [ih (fun i hi => hj i (by simp [hi])) _ _ hy' (fun b hb => by simp [hb, hs b hb])]
        simp [BtN.addSc, Int.add_assoc, h2]
  exact key _ (fun j hj => List.mem_range.1 hj) nd s hy (fun _ _ => rfl)

end Run

/-! ## Roles -/

/-- Where a run started: the state, the addresses of the nodes it may edit, and the
place the topmost of them hangs from. -/
structure Job (ι α : Type) where
  s : Bt α
  ad : ι → Nat
  p : Nat
  pi : Nat

structure Focus {ι : Type} (J : Job ι α) (top : ι) (s : Bt α) (ad : ι → Nat)
    (ct : ι → BtN α) : Prop where
  live : ∀ r, s.heap (ad r) = some (ct r)
  inj : ∀ r q, ad r = ad q → r = q
  own : ∀ r, ad r = J.ad r ∨ J.s.next ≤ ad r
  start : Link J.s (Set.range J.ad) (J.ad top) J.p J.pi
  edit : Edit J.s s (Set.range J.ad) (Set.range ad) (J.ad top) (ad top) J.p J.pi
  quiet : s.globals = J.s.globals

/-- The contents once the node in role `r`, a kid in slot `j` of the top node unless
it is the top node itself, has moved to `a`. -/
def hang {ι : Type} [DecidableEq ι] (top : ι) (ct : ι → BtN α) (r : ι) (j a : Nat) : ι → BtN α :=
  if r = top then ct else upd ct top ((ct top).setKid j a)

/-- The place `(q, j)` the node in role `r` hangs from. -/
def Hangs {ι : Type} (J : Job ι α) (top : ι) (ad : ι → Nat) (ct : ι → BtN α) (r : ι)
    (q j : Nat) : Prop :=
  (r = top ∧ q = J.p ∧ j = J.pi) ∨
    (r ≠ top ∧ q = ad top ∧ (ct top).leaf = false ∧ (ct top).nodes j = ad r)

namespace Focus

variable {ι : Type} {J : Job ι α} {top : ι} {s : Bt α} {ad : ι → Nat} {ct : ι → BtN α}

theorem link (F : Focus J top s ad ct) : Link s (Set.range ad) (ad top) J.p J.pi :=
  F.edit.link F.start ⟨top, rfl⟩ (by simp [F.live])

theorem t (F : Focus J top s ad ct) : s.t = J.s.t := by
  have h := F.edit.rest
  simp only [Bt.rest, Prod.mk.injEq] at h
  exact h.2.2.1

/-- A run on the nodes in the roles starts. -/
theorem start' (hl : ∀ r, s.heap (ad r) = some (ct r)) (hi : ∀ r q, ad r = ad q → r = q)
    {p pi : Nat} (L : Link s (Set.range ad) (ad top) p pi) :
    Focus ⟨s, ad, p, pi⟩ top s ad ct :=
  ⟨hl, hi, fun _ => Or.inl rfl, L, Edit.refl L, rfl⟩

theorem get (F : Focus J top s ad ct) (r : ι) : getN (ad r) s = some (ct r, s) :=
  getN_run (F.live r)

/-- One more edit within the focus. -/
theorem step (F : Focus J top s ad ct) {s' : Bt α} {ad' : ι → Nat} {ct' : ι → BtN α}
    (hl : ∀ r, s'.heap (ad' r) = some (ct' r)) (hi : ∀ r q, ad' r = ad' q → r = q)
    (ho : ∀ r, ad' r = ad r ∨ s.next ≤ ad' r)
    (E : Edit s s' (Set.range ad) (Set.range ad') (ad top) (ad' top) J.p J.pi)
    (hg : s'.globals = s.globals) : Focus J top s' ad' ct' := by
  refine ⟨hl, hi, fun r => ?_, F.start, F.edit.trans E F.start ⟨top, rfl⟩, hg.trans F.quiet⟩
  rcases ho r with h | h
  · rw [h]
    exact F.own r
  · exact Or.inr (Nat.le_trans F.edit.next h)

variable [DecidableEq ι]

/-- Writing to a node of the focus. -/
theorem write (F : Focus J top s ad ct) (r : ι) (nd : BtN α) :
    Focus J top (s.setHeap (ad r) (some nd)) ad (upd ct r nd) := by
  refine F.step (fun q => ?_) F.inj (fun _ => Or.inl rfl) (Edit.write F.link ⟨r, rfl⟩ (by simp [F.live]) _) rfl
  by_cases h : q = r
  · simp [h]
  · have : ad q ≠ ad r := fun e => h (F.inj q r e)
    simp [h, this, F.live q]

theorem mod (F : Focus J top s ad ct) (r : ι) (f : BtN α → BtN α) :
    ∃ s', modN (ad r) f s = some ((), s') ∧ Focus J top s' ad (upd ct r (f (ct r))) :=
  ⟨_, modN_run (F.live r) f, F.write r _⟩

theorem zero (F : Focus J top s ad ct) (r : ι) (i : Nat) :
    ∃ s', zeroDR (ad r) i s = some (ad r, s') ∧
      Focus J top s' ad (upd ct r ((ct r).zDR J.s.t i)) := by
  refine ⟨_, zeroDR_run (F.live r) i, ?_⟩
  rw [F.t]
  exact F.write r _

/-- A node of the focus moves to a new block. -/
theorem addDS (F : Focus J top s ad ct) {r : ι} {q j : Nat} (H : Hangs J top ad ct r q j) :
    ∃ s', addDStoBTN (ad r) q j 1 s = some (s.next, s') ∧
      Focus J top s' (upd ad r s.next) (upd (hang top ct r j s.next) r (ct r).addDS) := by
  have hlt : ∀ q, ad q < s.next := fun q => F.link.bound _ (by simp [F.live])
  have htop : ad r = s.root → r = top :=
    fun h => F.inj _ _ (by rw [h, F.link.top ⟨r, h⟩])
  have hq : ad r ≠ s.root → q ≠ ad r ∧ q < s.next ∧
      ∃ nq, s.heap q = some nq ∧ nq.leaf = false := by
    intro hr
    rcases H with ⟨rfl, rfl, rfl⟩ | ⟨h1, rfl, h2, _⟩
    · obtain ⟨h1, nq, h2, h3, _⟩ := F.link.place hr
      exact ⟨fun e => h1 ⟨r, e.symm⟩, F.link.place_lt hr, nq, h2, h3⟩
    · exact ⟨fun e => h1 (F.inj _ _ e).symm, hlt top, _, F.live top, h2⟩
  obtain ⟨s', hrun, hnext, hroot, hrest, hglob, hnew, hold, hother⟩ :=
    addDStoBTN_run (q := q) (j := j) (F.live r) (by have := hlt r; omega)
      (fun hr => ⟨(hq hr).1, by have := (hq hr).2.1; omega, (hq hr).2.2⟩)
  -- what is live is the new block, or another node that was live
  have hlive : ∀ b, s'.heap b ≠ none → b = s.next ∨ b ≠ s.next ∧ b ≠ ad r ∧ s.heap b ≠ none := by
    intro b hb
    by_cases h1 : b = s.next
    · exact Or.inl h1
    · by_cases h2 : b = ad r
      · rw [h2] at hb
        exact absurd hold hb
      · refine Or.inr ⟨h1, h2, fun e => ?_⟩
        rw [hother b h1 h2, e] at hb
        simp at hb
  refine ⟨s', hrun, F.step ?_ ?_ ?_ ⟨?_, ?_, ?_, ?_, by omega, ?_, hrest⟩ hglob⟩
  · intro r'
    by_cases h : r' = r
    · simp [h, hnew]
    · have h1 := hlt r'
      rw [upd_ne _ _ h, upd_ne _ _ h,
        hother _ (by omega) (fun e => h (F.inj _ _ e)), F.live r']
      rcases H with ⟨rfl, rfl, rfl⟩ | ⟨h2, rfl, _, _⟩
      · rw [if_neg, hang, if_pos rfl]
        rintro ⟨h3, h4⟩
        exact (F.link.place h3).1 ⟨r', h4⟩
      · rw [hang, if_neg h2]
        by_cases h3 : r' = top
        · rw [if_pos ⟨fun e => h2 (htop e), by rw [h3]⟩, h3]
          simp
        · rw [if_neg (fun e => h3 (F.inj _ _ e.2)), upd_ne _ _ h3]
  · intro r₁ r₂ h
    have h1 := hlt r₁
    have h2 := hlt r₂
    simp only [upd_apply] at h
    split_ifs at h with h3 h4 h5
    · rw [h3, h4]
    · omega
    · omega
    · exact F.inj r₁ r₂ h
  · intro r'
    by_cases h : r' = r
    · exact Or.inr (by simp [h])
    · exact Or.inl (upd_ne _ _ h)
  · intro b hb hbR
    have h1 : b ≠ ad r := fun e => hbR ⟨r, e.symm⟩
    rw [hother b (by omega) h1]
    rcases H with ⟨rfl, rfl, rfl⟩ | ⟨h2, rfl, _, _⟩
    · simp
    · rw [if_neg (fun e => hbR ⟨top, e.2.symm⟩), upd_ne _ _ (Ne.symm h2)]
      exact (Edit.refl F.link).away b hb hbR
  · rintro b ⟨r', rfl⟩
    by_cases h : r' = r
    · exact Or.inr (by simp [h])
    · exact Or.inl ⟨r', by simp [h]⟩
  · intro b hb
    rcases hlive b hb with rfl | ⟨h1, h2, h3⟩
    · exact Or.inl ⟨r, upd_same _ _ _⟩
    · refine (F.link.kept h3).imp_left ?_
      rintro ⟨r', rfl⟩
      exact ⟨r', upd_ne _ _ fun e => h2 (by rw [e])⟩
  · rw [hroot]
    by_cases hr : ad r = s.root
    · rw [if_pos hr, ← htop hr, if_pos hr, upd_same]
    · rw [if_neg hr]
      split_ifs with h
      · have : r ≠ top := fun e => hr (by rw [e, h])
        rw [upd_ne _ _ (Ne.symm this), h]
      · rfl
  · intro b hb
    rw [hnext]
    rcases hlive b hb with h | ⟨_, _, h⟩
    · omega
    · have := F.link.bound b h
      omega

theorem hang_self {r : ι} {q j : Nat} (H : Hangs J top ad ct r q j) :
    hang top ct r j (ad r) = ct := by
  unfold hang
  split_ifs with h
  · rfl
  · rcases H with ⟨h', _⟩ | ⟨_, _, _, hn⟩
    · exact absurd h' h
    · rw [BtN.setKid_self _ _ _ hn, upd_self]

theorem setDR (F : Focus J top s ad ct) {r : ι} {q j : Nat} (H : Hangs J top ad ct r q j)
    (i v : Nat) :
    ∃ a s', AlchemyDB.setDR (ad r) i v q j s = some (a, s') ∧
      Focus J top s' (upd ad r a) (upd (hang top ct r j a) r ((ct r).stDR J.s.t i v)) := by
  by_cases hd : v ≠ 0 → ¬ (ct r).dirty ≤ 0
  · refine ⟨ad r, _, setDR_run (F.live r) hd q j, ?_⟩
    rw [upd_self, hang_self H, F.t]
    exact F.write r _
  · obtain ⟨hv, hd⟩ : v ≠ 0 ∧ (ct r).dirty ≤ 0 := by
      simpa using hd
    obtain ⟨s', hrun, F'⟩ := F.addDS H
    have hl : s'.heap s.next = some (ct r).addDS := by
      simpa using F'.live r
    have hset := setDRRaw_run hl (by simp [BtN.addDS]) i v
    refine ⟨s.next, s'.setHeap s.next (some ((ct r).addDS.setDRRaw s'.t i v)), ?_, ?_⟩
    · rw [AlchemyDB.setDR, if_neg hv]
      simp only [run_bind (F.get r), if_pos hd, run_bind hrun, run_bind hset]
      rfl
    · have := F'.write r ((ct r).addDS.setDRRaw s'.t i v)
      rw [upd_upd, upd_same, F'.t] at this
      rw [F'.t, BtN.stDR, if_neg hv, if_pos hd]
      exact this

theorem overwriteDR (F : Focus J top s ad ct) {r : ι} {q j : Nat} (H : Hangs J top ad ct r q j)
    (i v : Nat) :
    ∃ a s', AlchemyDB.overwriteDR (ad r) i v q j s = some (a, s') ∧
      Focus J top s' (upd ad r a) (upd (hang top ct r j a) r ((ct r).owDR J.s.t i v)) := by
  unfold AlchemyDB.overwriteDR BtN.owDR
  split_ifs
  · exact F.setDR H i v
  · obtain ⟨s', hrun, F'⟩ := F.zero r i
    refine ⟨ad r, s', hrun, ?_⟩
    rwa [upd_self, hang_self H]

theorem setKeyRaw (F : Focus J top s ad ct) (r : ι) (i : Nat) {src : KData α} {k : α}
    (hk : s.deref src = some k) :
    ∃ s', setBTKeyRaw (ad r) i src s = some ((), s') ∧
      Focus J top s' ad (upd ct r ((ct r).setKey i k)) :=
  ⟨_, setBTKeyRaw_run (F.live r) hk, F.write r _⟩

/-- The end of `setBTKey`: the source DR is zeroed and the key is copied. -/
theorem copyKey (F : Focus J top s ad ct) {r q : ι} (hrq : r ≠ q) (di si : Nat) :
    ∃ s', (do
        let _ ← zeroDR (ad q) si
        let k ← KEYS (ad q) si
        setBTKeyRaw (ad r) di k
        pure (ad r) : BtM α Nat) s = some (ad r, s') ∧
      Focus J top s' ad (upd (upd ct q ((ct q).zDR J.s.t si)) r
        ((ct r).setKey di ((ct q).keys si))) := by
  obtain ⟨s₁, hz, F₁⟩ := F.zero q si
  have hl := F₁.live q
  rw [upd_same] at hl
  obtain ⟨s₂, hs, F₂⟩ := F₁.setKeyRaw r di (deref_KEYS hl si)
  refine ⟨s₂, ?_, ?_⟩
  · simp only [run_bind hz, run_bind (KEYS_run hl si), run_bind hs]
    rfl
  · rwa [upd_ne _ _ hrq, BtN.zDR_keys] at F₂

/-- `setBTKey` from one node to another one. -/
theorem setBTKey (F : Focus J top s ad ct) {r q : ι} {p j : Nat} (H : Hangs J top ad ct r p j)
    (hrq : r ≠ q) (di si : Nat) (drt : Bool) :
    ∃ a s', AlchemyDB.setBTKey (ad r) di (ad q) si drt p j s = some (a, s') ∧
      Focus J top s' (upd ad r a)
        (upd (upd (hang top ct r j a) q ((hang top ct r j a q).zDR J.s.t si)) r
          ((ct r).cpDst J.s.t (ct q) di si drt)) := by
  cases drt with
  | false =>
      obtain ⟨s₁, hc, F₁⟩ := F.copyKey hrq di si
      refine ⟨ad r, s₁, ?_, ?_⟩
      · rw [← hc, AlchemyDB.setBTKey]
        simp only [Bool.false_eq_true, if_false, pure_bind]
      · rwa [upd_self, hang_self H, BtN.cpDst]
  | true =>
      obtain ⟨a, s₁, ho, F₁⟩ := F.overwriteDR H di ((ct q).dr si)
      obtain ⟨s₂, hc, F₂⟩ := F₁.copyKey hrq di si
      have hkq : (hang top ct r j a q).keys = (ct q).keys := by
        unfold hang
        split_ifs
        · rfl
        · by_cases h : q = top
          · simp [h]
          · simp [h]
      refine ⟨a, s₂, ?_, ?_⟩
      · rw [upd_same, upd_ne _ _ hrq.symm] at hc
        rw [← hc, AlchemyDB.setBTKey]
        simp only [if_true, pure_bind, run_bind (getDR_run (F.live q) si),
          run_bind ho]
      · rw [upd_same, upd_ne _ _ hrq.symm, upd_upd_upd, hkq] at F₂
        rwa [BtN.cpDst]

/-- `setBTKey` from one node to another one that stays where it is. -/
theorem setBTKey_stay (F : Focus J top s ad ct) {r q : ι} (hrq : r ≠ q) (di si : Nat)
    (hd : (ct q).dr si ≠ 0 → ¬ (ct r).dirty ≤ 0) (p j : Nat) :
    ∃ s', AlchemyDB.setBTKey (ad r) di (ad q) si true p j s = some (ad r, s') ∧
      Focus J top s' ad (upd (upd ct q ((ct q).zDR J.s.t si)) r
        ((ct r).cpDst J.s.t (ct q) di si true)) := by
  have ho := overwriteDR_run (F.live r) (i := di) hd p j
  have F₁ := F.write r ((ct r).owDR s.t di ((ct q).dr si))
  obtain ⟨s₂, hc, F₂⟩ := F₁.copyKey hrq di si
  refine ⟨s₂, ?_, ?_⟩
  · rw [← hc, AlchemyDB.setBTKey]
    simp only [if_true, pure_bind, run_bind (getDR_run (F.live q) si), run_bind ho]
  · rw [upd_same, upd_ne _ _ hrq.symm, upd_upd_upd, F.t] at F₂
    exact F₂

/-- One round of `mvXKeys` between two nodes. -/
theorem mvXKeysStep (F : Focus J top s ad ct) {r q : ι} {p j : Nat} (H : Hangs J top ad ct r p j)
    (hrq : r ≠ q) (hqt : q ≠ top) (di si : Nat) :
    ∃ a s', AlchemyDB.mvXKeysStep false di si p j (ad r) (ad q) s = some ((a, ad q), s') ∧
      Focus J top s' (upd ad r a) (upd (upd (hang top ct r j a) q ((ct q).mvSrc J.s.t si)) r
        ((ct r).mvDst J.s.t (ct q) di si)) := by
  have hq : ∀ a, hang top ct r j a q = ct q := by
    intro a
    unfold hang
    split_ifs
    · rfl
    · exact upd_ne _ _ hqt
  -- the copy of the key, once the DRs have moved
  have hkeys : ∀ {s' : Bt α} {ad' : ι → Nat} {ct' : ι → BtN α}, Focus J top s' ad' ct' →
      (ct' q).keys = (ct q).keys → ∃ s'', (do
        let nds ← getN (ad' q)
        modN (ad' r) (fun m => { m with keys := upd m.keys di (nds.keys si) })
        pure (ad' r, ad' q) : BtM α (Nat × Nat)) s' = some ((ad' r, ad' q), s'') ∧
        Focus J top s'' ad' (upd ct' r ((ct' r).setKey di ((ct q).keys si))) := by
    intro s' ad' ct' F' hk
    obtain ⟨s'', hm, F''⟩ := F'.mod r (fun m => { m with keys := upd m.keys di ((ct q).keys si) })
    refine ⟨s'', ?_, F''⟩
    rw [run_bind (F'.get q), hk, run_bind hm]
    rfl
  simp only [AlchemyDB.mvXKeysStep, run_bind (getDR_run (F.live q) si),
    run_bind (getDR_run (F.live r) di), BtN.mvDst, BtN.mvSrc, Bool.false_eq_true, if_false]
  split_ifs with h1 h2
  · obtain ⟨a, s₁, hs, F₁⟩ := F.setDR H di ((ct q).dr si)
    obtain ⟨s₂, hz, F₂⟩ := F₁.zero q si
    obtain ⟨s₃, hm, F₃⟩ := hkeys F₂ (by simp [hrq.symm, hq])
    rw [upd_same, upd_ne _ _ hrq.symm] at hm
    rw [upd_ne _ _ hrq.symm] at hz
    refine ⟨a, s₃, ?_, ?_⟩
    · simp only [pure_bind, run_bind hs, run_bind hz]
      exact hm
    · simpa [hrq, hrq.symm, upd_upd_upd, hq] using F₃
  · obtain ⟨s₁, hz, F₁⟩ := F.zero r di
    obtain ⟨s₂, hm, F₂⟩ := hkeys F₁ (by simp [hrq.symm])
    refine ⟨ad r, s₂, ?_, ?_⟩
    · simp only [pure_bind, run_bind hz]
      exact hm
    · rw [hang_self H]
      simpa using F₂
  · obtain ⟨s₁, hm, F₁⟩ := hkeys F rfl
    refine ⟨ad r, s₁, ?_, ?_⟩
    · simp only [pure_bind]
      exact hm
    · rw [hang_self H]
      simpa using F₁

/-- The node in role `r` hangs from its place again once it has moved there. -/
theorem hangs_moved {r : ι} {q j a : Nat} {ct' : ι → BtN α} (H : Hangs J top ad ct r q j)
    (h : r ≠ top → ct' top = (ct top).setKid j a) : Hangs J top (upd ad r a) ct' r q j := by
  rcases H with ⟨rfl, h1, h2⟩ | ⟨h1, h2, h3, _⟩
  · exact Or.inl ⟨rfl, h1, h2⟩
  · refine Or.inr ⟨h1, ?_, ?_, ?_⟩ <;> simp [h h1, h2, h3, Ne.symm h1]

theorem hang_ne {r : ι} (h : r ≠ top) (j a : Nat) :
    hang top ct r j a = upd ct top ((ct top).setKid j a) := if_neg h

theorem hang_hang {r q : ι} (hqt : q ≠ top) (j a a' : Nat) (u v u' v' : BtN α) :
    upd (upd (hang top (upd (upd (hang top ct r j a) q u) r v) r j a') q u') r v' =
      upd (upd (hang top ct r j a') q u') r v' := by
  by_cases h : r = top
  · funext m
    simp only [hang, if_pos h, upd_apply]
    split_ifs <;> rfl
  · funext m
    simp only [hang_ne h, upd_apply, if_neg (Ne.symm h), if_neg (Ne.symm hqt), if_true,
      BtN.setKid_setKid]
    split_ifs <;> rfl

/-- `mvXKeys` from one node to another one. -/
theorem mvXKeys {r q : ι} {p j : Nat} (hrq : r ≠ q) (hqt : q ≠ top) (F : Focus J top s ad ct)
    (H : Hangs J top ad ct r p j) (di si num : Nat) :
    ∃ a s', AlchemyDB.mvXKeys (ad r) di (ad q) si num p j s = some ((a, ad q), s') ∧
      Focus J top s' (upd ad r a)
        (upd (upd (hang top ct r j a) q ((mvXKeysOrder di si num).foldl
          (fun w i => BtN.mvAcross J.s.t w (di + i) (si + i)) (ct r, ct q)).2) r
          ((mvXKeysOrder di si num).foldl
            (fun w i => BtN.mvAcross J.s.t w (di + i) (si + i)) (ct r, ct q)).1) := by
  have hne : (ad r == ad q) = false := by
    simpa using fun e => hrq (F.inj _ _ e)
  unfold AlchemyDB.mvXKeys
  rw [hne]
  generalize mvXKeysOrder di si num = l
  clear hne
  induction l generalizing s ad ct with
  | nil =>
      refine ⟨ad r, s, rfl, ?_⟩
      rw [hang_self H]
      simpa using F
  | cons i l ih =>
      obtain ⟨a, s₁, hs, F₁⟩ := F.mvXKeysStep H hrq hqt (di + i) (si + i)
      have H₁ : Hangs J top (upd ad r a) (upd (upd (hang top ct r j a) q
          ((ct q).mvSrc J.s.t (si + i))) r ((ct r).mvDst J.s.t (ct q) (di + i) (si + i))) r p j :=
        hangs_moved H (fun h => by simp [hang_ne h, Ne.symm h, Ne.symm hqt])
      obtain ⟨a', s₂, hl, F₂⟩ := ih F₁ H₁
      simp only [upd_same, upd_ne _ _ hrq.symm, hang_hang hqt, upd_upd] at hl F₂
      refine ⟨a', s₂, ?_, F₂⟩
      rw [List.foldlM_cons, run_bind hs]
      exact hl

end Focus

end AlchemyDB
