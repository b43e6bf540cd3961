/-
# `AlchemyDB.BTree.Back` — descending scans

A descending iterator stands where an ascending one stands: its nodes are the same path
of the tree.  What differs is the list before it, which is the entry that it stands at and
then what is read in front of that, backwards.  Moving up (`toparentrecurserev`) goes to
the last key in front of the node, moving down to the last key of a subtree.
-/
import AlchemyDB.BTree.Seek

namespace AlchemyDB

open Store Weave

variable {α β κ : Type} {V : View α β} {d D : Nat}

/-! ## What a descending iterator has before it -/

/-- The frame stands at a key of the tree; the list is read from that key back. -/
def Facing (V : View α β) (T₀ : Sub α (D + 1)) (f : BtLlN) (up : List BtLlN) (L : List β) : Prop :=
  ∃ c B A, L = c :: B ∧ T₀.flat V = B.reverse ++ c :: A ∧ Stand V T₀ f up (c :: A)

/-- The descending iterator has the list before it: it stands at the first entry, or it is
finished. -/
structure Back (V : View α β) (T₀ : Sub α (D + 1)) (it : BtIterator) (L : List β) : Prop where
  room : it.up.length < it.numNodes
  cap : it.numNodes ≤ maxBtreeDepth
  spot : (it.finished = false ∧ Facing V T₀ it.bln it.up L) ∨
    (it.finished = true ∧ L = [] ∧
      ∃ i < T₀.size, it.bln.self = T₀.addr ∧ it.bln.ik = (i : Int) ∧ it.up = [])

section Facing

variable {T₀ : Sub α (D + 1)} {T : Sub α (d + 1)} {up : List BtLlN} {R P : List β} {f : BtLlN}
  {it : BtIterator} {L : List β} {j : Nat}

/-- The list is what is read in front of the kid behind the key. -/
theorem Trail.facing (t : Trail V T₀ T up R) (hj : j < T.size)
    (hP : T₀.flat V = P ++ ((T.kid (j + 1)).flat V ++ (T.post V (j + 1) ++ R)))
    (hs : f.self = T.addr) (hik : f.ik = j) (hN : d ≠ 0 → f.iN = j) :
    Facing V T₀ f up P.reverse := by
  obtain ⟨P₀, hP₀⟩ := t.reads
  have hfocus : T₀.flat V = P₀ ++ T.pre V (j + 1) ++
      ((T.kid (j + 1)).flat V ++ (T.post V (j + 1) ++ R)) := by
    rw [hP₀, T.flat_focus V hj]
    simp only [List.append_assoc]
  have hpre : P = P₀ ++ T.pre V (j + 1) := List.append_cancel_right (hP.symm.trans hfocus)
  refine ⟨V.entry T.top j, (P₀ ++ (T.pre V j ++ (T.kid j).flat V)).reverse,
    (T.kid (j + 1)).flat V ++ T.post V (j + 1) ++ R, ?_, ?_, d, T, R, j, t, hs, hik, hj, hN, ?_⟩
  · rw [hpre, T.pre_succ]
    simp
  · rw [hfocus, T.pre_succ]
    simp
  · rw [T.post_at hj]
    rfl

/-- What is read in front of the key that the frame stands at ends with the kid before the key. -/
theorem Trail.before (t : Trail V T₀ T up R) (hj : j < T.size)
    (hP : T₀.flat V = P ++ (T.post V j ++ R)) :
    ∃ P₀, P = P₀ ++ (T.kid j).flat V ∧
      T₀.flat V = P₀ ++ ((T.kid j).flat V ++ (T.post V j ++ R)) := by
  obtain ⟨P₀, hP₀⟩ := t.reads
  have hfocus : T₀.flat V = P₀ ++ T.pre V j ++ ((T.kid j).flat V ++ (T.post V j ++ R)) := by
    rw [hP₀, T.flat_focus V hj.le]
    simp only [List.append_assoc]
  refine ⟨P₀ ++ T.pre V j, List.append_cancel_right (hP.symm.trans ?_), hfocus⟩
  rw [hfocus]
  simp only [List.append_assoc]

theorem Facing.stand {x : β} (h : Facing V T₀ f up (x :: L)) :
    ∃ d, ∃ T : Sub α (d + 1), ∃ R j, Standing V T₀ f up (T.post V j ++ R) T R j ∧
      x = V.entry T.top j ∧ T₀.flat V = L.reverse ++ (T.post V j ++ R) := by
  obtain ⟨c, B, A, hL, hflat, d, T, R, j, H⟩ := h
  obtain ⟨rfl, rfl⟩ := List.cons.inj hL
  have hread := H.read
  refine ⟨d, T, R, j, ⟨H.trail, H.self, H.ik, H.lt, H.iN, rfl⟩, ?_, by rw [hflat, hread]⟩
  rw [T.post_at H.lt] at hread
  exact (List.cons.inj hread).1

/-- The list is what is read in front of the node, and in it up to the key. -/
theorem Facing.reads (h : Facing V T₀ f up L) : ∃ d, ∃ T : Sub α (d + 1), ∃ R j P,
    Standing V T₀ f up (T.post V j ++ R) T R j ∧ T₀.flat V = P ++ (T.flat V ++ R) ∧
      L = (P ++ T.pre V (j + 1)).reverse := by
  obtain ⟨c, B, A, rfl, -⟩ := id h
  obtain ⟨d, T, R, j, H, rfl, hflat⟩ := h.stand
  obtain ⟨P, hP⟩ := H.trail.reads
  refine ⟨d, T, R, j, P, H, hP, ?_⟩
  have hfocus : T₀.flat V = P ++ T.pre V j ++ (T.kid j).flat V ++ (T.post V j ++ R) := by
    rw [hP, T.flat_focus V H.lt.le]
    simp only [List.append_assoc]
  rw [T.pre_succ, ← List.append_assoc, ← List.append_assoc,
    ← List.append_cancel_right (hflat.symm.trans hfocus)]
  simp

theorem Trail.faces (t : Trail V T₀ T up R) (hj : j < T.size)
    (hP : T₀.flat V = P ++ (T.flat V ++ R)) (hs : f.self = T.addr) (hik : f.ik = j)
    (hN : d ≠ 0 → f.iN = j) : Facing V T₀ f up (P ++ T.pre V (j + 1)).reverse := by
  refine t.facing hj ?_ hs hik hN
  rw [hP, T.flat_focus V hj]
  simp only [List.append_assoc]

theorem Back.stand {x : β} (A : Back V T₀ it (x :: L)) :
    it.finished = false ∧ Facing V T₀ it.bln it.up (x :: L) := by
  rcases A.spot with h | ⟨_, h, _⟩
  · exact h
  · cases h

theorem Back.finished (A : Back V T₀ it []) : it.finished = true := by
  rcases A.spot with ⟨_, c, B, A, h, _⟩ | ⟨h, _⟩
  · cases h
  · exact h

end Facing

/-! ## Moving up -/

section Scanned

variable [LinearOrder κ] {key : α → κ} {K : β → κ} {b : Bt α} {T₀ : Sub α (D + 1)}
  {T : Sub α (d + 1)} {up : List BtLlN} {R P L : List β} {f : BtLlN} {it : BtIterator} {i j : Nat}

/-- Where `toparentrecurserev` ends: at the last key in front of the node, or finished at the
root. -/
def ClimbedBack (V : View α β) (T₀ : Sub α (D + 1)) (L : List β)
    (r : BtLlN × List BtLlN × Bool) : Prop :=
  (r.2.2 = false ∧ Facing V T₀ r.1 r.2.1 L) ∨
    (r.2.2 = true ∧ L = [] ∧ ∃ i < T₀.size, r.1.self = T₀.addr ∧ r.1.ik = (i : Int) ∧ r.2.1 = [])

/-- The last line of `toparentrecurserev`: `in` is not left behind the last key. -/
def inNode (b : Bt α) (r : BtLlN × List BtLlN × Bool) : Option (BtLlN × List BtLlN × Bool) := do
  let z ← b.heap r.1.self
  if r.1.iN = z.n then some ({ r.1 with iN := r.1.iN - 1 }, r.2) else some r

theorem ClimbedBack.inNode (S : Scanned V key K b T₀) {r : BtLlN × List BtLlN × Bool}
    (h : ClimbedBack V T₀ L r) :
    ∃ r', AlchemyDB.inNode b r = some r' ∧ ClimbedBack V T₀ L r' ∧ r'.2.1 = r.2.1 := by
  obtain ⟨z, hz⟩ : ∃ z, b.heap r.1.self = some z := by
    rcases h with ⟨-, c, B, A, -, -, d, T, R, j, H⟩ | ⟨-, -, i, -, hs, -⟩
    · exact ⟨T.top, H.self ▸ S.heap H.trail⟩
    · exact ⟨T₀.top, hs ▸ S.heap .root⟩
  by_cases hn : r.1.iN = (z.n : Int)
  · refine ⟨({ r.1 with iN := r.1.iN - 1 }, r.2), ?_, ?_, rfl⟩
    · simp only [AlchemyDB.inNode, hz, Option.bind_eq_bind, Option.bind_some, if_pos hn]
    · rcases h with ⟨hf, c, B, A, hL, hflat, d, T, R, j, H⟩ | ⟨hf, hL, i, hi, hs, hik, hup⟩
      · refine .inl ⟨hf, c, B, A, hL, hflat, d, T, R, j, H.trail, H.self, H.ik, H.lt, ?_, H.read⟩
        intro hd
        have hlt := H.lt
        have hsz := T.size_top
        have hN := H.iN hd
        have htop : z = T.top := Option.some.inj (hz.symm.trans (H.self ▸ S.heap H.trail))
        rw [htop] at hn
        omega
      · exact .inr ⟨hf, hL, i, hi, hs, hik, hup⟩
  · refine ⟨r, ?_, h, rfl⟩
    simp only [AlchemyDB.inNode, hz, Option.bind_eq_bind, Option.bind_some, if_neg hn]

theorem Scanned.climbBack (S : Scanned V key K b T₀) (t : Trail V T₀ T up R) :
    ∀ {f : BtLlN} {i : Nat} {P : List β}, f.self = T.addr → f.ik = i → i < T.size →
      T₀.flat V = P ++ (T.flat V ++ R) →
      ∃ r, toparentrecurserev b f up = some r ∧ ClimbedBack V T₀ P.reverse r ∧
        r.2.1.length ≤ up.length := by
  induction t with
  | root =>
      intro f i P hs hi hlt hP
      have hnil : P = [] := by
        have := congrArg List.length hP
        simp only [List.length_append, List.length_nil] at this
        exact List.length_eq_zero_iff.1 (by omega)
      exact ⟨(f, [], true), rfl, .inr ⟨rfl, by rw [hnil]; rfl, i, hlt, hs, hi, rfl⟩, le_rfl⟩
  | @kid d T up R p j t hj B ih =>
      intro f i P hs hi hlt hP
      have hx : b.heap f.self = some (T.kid j).top := by
        rw [hs]
        exact S.heap (Trail.kid t hj B)
      have hc : b.slot (T.kid j).top f.ik = some ((T.kid j).top.keys i) := by
        rw [hi]
        exact S.slot (Trail.kid t hj B) hlt
      have hsz := T.size_top
      cases B with
      | left hps hpi hpn hlt' =>
          -- the node hangs before the key of the frame above
          have hcmp : b.cmp ((T.kid j).top.keys i) (T.top.keys j) < 0 :=
            (S.setting.cmp.lt _ _).2 (S.kid_before t hlt' hlt)
          rcases Nat.eq_zero_or_pos j with rfl | hj0
          · -- there is no key in front of it: up again
            have h0 : ¬ p.ik ≠ 0 := by simp [hpi]
            have h1 : ¬ p.iN ≠ 0 := by simp [hpn]
            obtain ⟨r, hr, hC, hlen⟩ := ih (f := p) (i := 0) (P := P) hps hpi hlt'
              (by rw [hP, T.flat_first]; simp only [List.append_assoc])
            obtain ⟨r', hr', hC', hup⟩ := hC.inNode S
            refine ⟨r', ?_, hC', by rw [hup, List.length_cons]; omega⟩
            simp only [toparentrecurserev, hx, hc, hps, hpi, S.heap t, S.slot t hlt',
              Option.bind_eq_bind, Option.bind_some, if_pos hcmp]
            rw [hpi] at h0
            rw [if_neg h0, if_neg h1, hr]
            exact hr'
          · obtain ⟨m, rfl⟩ : ∃ m, j = m + 1 := ⟨j - 1, by omega⟩
            have h0 : ((m + 1 : Nat) : Int) ≠ 0 := by omega
            have h1 : p.iN ≠ 0 := by omega
            have h2 : ¬ p.iN - 1 = (T.top.n : Int) := by omega
            refine ⟨({ p with ik := ((m + 1 : Nat) : Int) - 1, iN := p.iN - 1 }, up, false), ?_,
              .inl ⟨rfl, t.facing (j := m) (by omega) hP hps (by simp) fun _ => by simp [hpn]⟩, by simp⟩
            simp only [toparentrecurserev, hx, hc, hps, hpi, S.heap t, S.slot t hlt',
              Option.bind_eq_bind, Option.bind_some, if_pos hcmp, if_pos h0, if_pos h1, if_neg h2]
      | right hps hpi hpos hpn =>
          obtain ⟨m, rfl⟩ : ∃ m, j = m + 1 := ⟨j - 1, by omega⟩
          have hpm : p.ik = m := by omega
          have hcmp : ¬ b.cmp ((T.kid (m + 1)).top.keys i) (T.top.keys m) < 0 := by
            rw [S.setting.cmp.lt]
            exact not_lt.2 (S.kid_behind t hj hlt).le
          -- the key before the node
          by_cases hn : p.iN = (T.top.n : Int)
          · have hN : p.iN - 1 = m := by omega
            refine ⟨({ p with iN := p.iN - 1 }, up, false), ?_, .inl ⟨rfl, t.facing (j := m) (by omega)
              hP hps hpm fun _ => hN⟩, by simp⟩
            simp only [toparentrecurserev, hx, hc, hps, hpm, S.heap t, S.slot t (show m < T.size by omega),
              Option.bind_eq_bind, Option.bind_some, if_neg hcmp, if_pos hn]
          · have hN : p.iN = m := by omega
            refine ⟨(p, up, false), ?_, .inl ⟨rfl, t.facing (j := m) (by omega)
              hP hps hpm fun _ => hN⟩, by simp⟩
            simp only [toparentrecurserev, hx, hc, hps, hpm, S.heap t, S.slot t (show m < T.size by omega),
              Option.bind_eq_bind, Option.bind_some, if_neg hcmp, if_neg hn]

/-! ## Single steps -/

/-- `toParent` goes to the last key in front of the node. -/
theorem Scanned.toParentBack {I : BtIterator} (S : Scanned V key K b T₀) (t : Trail V T₀ T I.up R)
    (hs : I.bln.self = T.addr) (hi : I.bln.ik = i) (hlt : i < T.size)
    (hP : T₀.flat V = P ++ (T.flat V ++ R)) (hroom : I.up.length < I.numNodes)
    (hcap : I.numNodes ≤ maxBtreeDepth) (hfin : I.finished = false) :
    ∃ it', AlchemyDB.toParent b false I = some it' ∧ Back V T₀ it' P.reverse ∧
      it'.data = I.data := by
  obtain ⟨⟨f, up', fin⟩, hr, hC, hlen⟩ := S.climbBack t hs hi hlt hP
  refine ⟨{ I with bln := f, up := up', finished := I.finished || fin }, ?_, ?_, rfl⟩
  · simp only [AlchemyDB.toParent, Bool.false_eq_true, if_false, hr, Option.map_some]
  · refine ⟨lt_of_le_of_lt hlen hroom, hcap, ?_⟩
    rcases hC with ⟨h1, h2⟩ | ⟨h1, h2, h3⟩
    · exact .inl ⟨by simp only [hfin, Bool.false_or]; exact h1, h2⟩
    · exact .inr ⟨by simp only [hfin, Bool.false_or]; exact h1, h2, h3⟩

/-- Down to the last key of a subtree. -/
theorem Scanned.downBack (S : Scanned V key K b T₀) : ∀ {d : Nat} {T : Sub α (d + 1)} {R P : List β}
    {i : BtIterator} {f : Nat}, d < f → Trail V T₀ T (i.bln :: i.up) R → 0 < T.size →
    T₀.flat V = P ++ (T.flat V ++ R) → i.up.length + 1 < i.numNodes →
    i.numNodes ≤ maxBtreeDepth → i.finished = false →
    ∃ it', tochildrecurse b false f i T.addr = some it' ∧
      Back V T₀ it' (P ++ T.flat V).reverse ∧ it'.data = i.data
  | d, T, R, P, i, 0, hf, _, _, _, _, _, _ => absurd hf (Nat.not_lt_zero d)
  | 0, T, R, P, i, f + 1, _, t, hpos, hP, hroom, hcap, hfin => by
      have hleaf : T.top.leaf = true := (t.good S.good).top_leaf.2 rfl
      have hsz := T.size_top
      obtain ⟨m, hm⟩ : ∃ m, T.size = m + 1 := ⟨T.size - 1, by omega⟩
      refine ⟨{ i with bln := ⟨T.addr, (T.top.n : Int) - 1, T.top.n⟩, up := i.bln :: i.up }, ?_, ?_, rfl⟩
      · simp only [tochildrecurse, toChild, S.heap t, Option.bind_eq_bind, Option.bind_some, hleaf,
          if_true, Bool.false_eq_true, if_false]
      · refine ⟨by simpa using hroom, hcap, .inl ⟨hfin, ?_⟩⟩
        refine t.facing (j := m) (by omega) ?_ rfl (by simp only; omega) fun h => absurd rfl h
        rw [hP, T.kid_leaf, ← hm, T.post_size]
        simp only [List.nil_append, List.append_assoc]
  | d + 1, T, R, P, i, f + 1, hf, t, hpos, hP, hroom, hcap, hfin => by
      have hleaf : T.top.leaf = false := by
        cases h : T.top.leaf with
        | false => rfl
        | true => exact absurd ((t.good S.good).top_leaf.1 h) (by omega)
      have hsz := T.size_top
      have hdep := t.depth
      have hmax := S.depth
      let it₁ : BtIterator :=
        { i with bln := ⟨T.addr, (T.top.n : Int) - 1, T.top.n⟩, up := i.bln :: i.up }
      obtain ⟨m, hm, hm1, hm2⟩ := getNewChild_run (i := it₁) (by simpa [it₁] using hroom) hcap
        (by simp only [it₁]; omega)
      have hc : b.child T.top (T.top.n : Int) = some (T.kid T.size).addr := by
        rw [← hsz]
        exact S.child t le_rfl
      have t' : Trail V T₀ (T.kid T.size) (it₁.bln :: it₁.up) (T.post V T.size ++ R) :=
        .kid t le_rfl (.right rfl (by simp only [it₁]; omega) hpos (.inr ⟨by simp only [it₁]; omega, rfl⟩))
      have hP' : T₀.flat V = P ++ T.pre V T.size ++
          ((T.kid T.size).flat V ++ (T.post V T.size ++ R)) := by
        rw [hP, T.flat_focus V le_rfl]
        simp only [List.append_assoc]
      obtain ⟨it', hrun, A, hd'⟩ := S.downBack (i := { it₁ with numNodes := m }) (f := f)
        (by omega) t' ((t.good S.good).kid_pos le_rfl) hP' hm1 hm2 hfin
      refine ⟨it', ?_, ?_, hd'⟩
      · simp only [tochildrecurse, toChild, S.heap t, Option.bind_eq_bind, Option.bind_some, hleaf,
          Bool.false_eq_true, if_false]
        rw [show getNewChild { i with
          bln := ⟨T.addr, (T.top.n : Int) - 1, T.top.n⟩
          up := i.bln :: i.up } = _ from hm]
        simp only [Option.bind_some, it₁, hc]
        exact hrun
      · rw [T.flat_focus V le_rfl, T.post_size, List.append_nil, ← List.append_assoc]
        exact A

/-- `descend` goes to the last key of the kid in front of the key. -/
theorem Scanned.descendBack {i : BtIterator} (S : Scanned V key K b T₀) {T : Sub α (d + 1 + 1)}
    (t : Trail V T₀ T i.up R) (hj : j < T.size) (hs : i.bln.self = T.addr) (hik : i.bln.ik = j)
    (hN : i.bln.iN = j) (hP : T₀.flat V = P ++ ((T.kid j).flat V ++ (T.post V j ++ R)))
    (hroom : i.up.length < i.numNodes) (hcap : i.numNodes ≤ maxBtreeDepth)
    (hfin : i.finished = false) :
    ∃ it', AlchemyDB.descend b false T.top i = some it' ∧
      Back V T₀ it' (P ++ (T.kid j).flat V).reverse ∧ it'.data = i.data := by
  have hdep := t.depth
  have hmax := S.depth
  have hnext := S.whole.depth
  obtain ⟨m, hm, hm1, hm2⟩ := getNewChild_run hroom hcap (by omega)
  obtain ⟨it', hrun, A, hd'⟩ := S.downBack (i := { i with numNodes := m }) (f := b.next)
    (by omega) (.kid t hj.le (.left hs hik hN hj)) ((t.good S.good).kid_pos hj.le) hP hm1 hm2 hfin
  refine ⟨it', ?_, A, hd'⟩
  simp only [AlchemyDB.descend, hm, Option.bind_eq_bind, Option.bind_some, hN, S.child t hj.le]
  exact hrun

/-- One step: the iterator moves from the first entry to the next. -/
theorem Scanned.stepBack (S : Scanned V key K b T₀) {x : β} (A : Back V T₀ it (x :: L)) :
    ∃ nd, ∃ i : Nat, i < nd.n ∧ ∃ it', b.heap it.bln.self = some nd ∧ it.bln.ik = (i : Int) ∧
      V.entry nd i = x ∧ b.slot nd i = some (nd.keys i) ∧
      (if nd.leaf then iterLeafRev b it else iterNodeRev b nd it) = some it' ∧ Back V T₀ it' L ∧
      it'.data = it.data := by
  obtain ⟨hfin, hF⟩ := A.stand
  obtain ⟨d, T, R, j, H, rfl, hflat⟩ := hF.stand
  have hsz := T.size_top
  have hlt := H.lt
  have hroom := A.room
  have hcap := A.cap
  refine ⟨T.top, j, by omega, ?_⟩
  rw [H.self]
  cases d with
  | zero =>
      have hleaf : T.top.leaf = true := (H.trail.good S.good).top_leaf.2 rfl
      by_cases hj : j = 0
      · subst hj
        have h0 : ¬ it.bln.ik ≠ 0 := by simp [H.ik]
        obtain ⟨it', hrun, A', hd'⟩ := S.toParentBack H.trail H.self H.ik hlt (P := L.reverse)
          (by rw [hflat, T.flat_first, T.kid_leaf, List.nil_append]) hroom hcap hfin
        rw [List.reverse_reverse] at A'
        refine ⟨it', S.heap H.trail, H.ik, rfl, S.slot H.trail hlt, ?_, A', hd'⟩
        rw [if_pos hleaf, iterLeafRev, if_neg h0]
        exact hrun
      · obtain ⟨m, rfl⟩ : ∃ m, j = m + 1 := ⟨j - 1, by omega⟩
        have hik := H.ik
        have h0 : it.bln.ik ≠ 0 := by omega
        have hF' : Facing V T₀ (it.at (it.bln.ik - 1) it.bln.iN).bln it.up L := by
          have := H.trail.facing (f := (it.at (it.bln.ik - 1) it.bln.iN).bln) (j := m)
            (P := L.reverse) (by omega) (by rw [hflat, T.kid_leaf, List.nil_append]) H.self
            (by simp only [BtIterator.at]; omega) fun h => absurd rfl h
          rwa [List.reverse_reverse] at this
        refine ⟨it.at (it.bln.ik - 1) it.bln.iN, S.heap H.trail, H.ik, rfl, S.slot H.trail hlt, ?_,
          ⟨hroom, hcap, .inl ⟨hfin, hF'⟩⟩, rfl⟩
        rw [if_pos hleaf, iterLeafRev, if_pos h0]
  | succ d =>
      have hleaf : T.top.leaf = false := by
        cases h : T.top.leaf with
        | false => rfl
        | true => exact absurd ((H.trail.good S.good).top_leaf.1 h) (by omega)
      obtain ⟨P, hP, hP'⟩ := H.trail.before hlt hflat
      obtain ⟨it', hrun, A', hd'⟩ := S.descendBack H.trail hlt H.self H.ik (H.iN (by omega)) hP'
        hroom hcap hfin
      rw [← hP, List.reverse_reverse] at A'
      refine ⟨it', S.heap H.trail, H.ik, rfl, S.slot H.trail hlt, ?_, A', hd'⟩
      rw [if_neg (by simp [hleaf]), iterNodeRev]
      exact hrun

end Scanned

end AlchemyDB
