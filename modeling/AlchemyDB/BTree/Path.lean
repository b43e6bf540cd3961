/-
# `AlchemyDB.BTree.Path` — a subtree on the way down

`Under V T K l A B`: the subtree `K` is reached from `T` along the trail `l`, the list of
the nodes passed with the slots taken, last one first, as `plist` has it.  `A` and `B` are
read before and behind `K`.  A run on `K` is a run on `T` whose other parts stay; and a
`deletekey` is, down to the leaf or the inner node that has the key, a run that keeps the
reading, followed by a `deletekey` on the node it has come to.
-/
import AlchemyDB.BTree.Erase

namespace AlchemyDB

open Store Weave

variable {α β κ : Type} {d e : Nat} {V : View α β} {s s₁ : Bt α} {p pi : Nat}

/-- The subtree at the end of a trail. -/
inductive Under (V : View α β) : {d e : Nat} → Sub α (d + 1) → Sub α (e + 1) → List (Nat × Nat) →
    List β → List β → Prop
  | here {d : Nat} (T : Sub α (d + 1)) : Under V T T [] [] []
  | kid {d e : Nat} {T : Sub α (d + 2)} {K : Sub α (e + 1)} {l : List (Nat × Nat)} {A B : List β}
      (i : Nat) (hi : i ≤ T.size) (h : Under V (T.kid i) K l A B) :
      Under V T K (l ++ [(T.addr, i)]) (T.pre V i ++ A) (B ++ T.post V i)

/-- The place that the end of a trail hangs from. -/
def placeOf (l : List (Nat × Nat)) (p pi : Nat) : Nat × Nat := l.headD (p, pi)

@[simp] theorem placeOf_nil (p pi : Nat) : placeOf [] p pi = (p, pi) := rfl

@[simp] theorem placeOf_snoc (l : List (Nat × Nat)) (x i p pi : Nat) :
    placeOf (l ++ [(x, i)]) p pi = placeOf l x i := by
  cases l <;> rfl

namespace Under

variable {T : Sub α (d + 1)} {K : Sub α (e + 1)} {l : List (Nat × Nat)} {A B : List β}

theorem flat (U : Under V T K l A B) : T.flat V = A ++ (K.flat V ++ B) := by
  induction U with
  | here T => simp
  | kid i hi h ih => rw [Sub.flat_focus V _ hi, ih]; simp

theorem good (U : Under V T K l A B) {h : Nat → Option (BtN α)} (g : Good V h T) : Good V h K := by
  induction U with
  | here T => exact g
  | kid i hi h ih => exact ih (g.kid hi)

theorem addrs (U : Under V T K l A B) : ∀ b ∈ K.addrs, b ∈ T.addrs := by
  induction U with
  | here T => exact fun b hb => hb
  | @kid d e T K l A B i hi h ih =>
      intro b hb
      obtain ⟨x, nd, kid, rfl⟩ := exists_node T
      exact Sub.kid_mem hi (ih b hb)

theorem link (U : Under V T K l A B) (g : Good V s.heap T) : ∀ {p pi : Nat},
    Link s T.addrs T.addr p pi → Link s K.addrs K.addr (placeOf l p pi).1 (placeOf l p pi).2 := by
  induction U with
  | here T => exact fun L => L
  | @kid d e T K l A B i hi h ih =>
      intro p pi L
      rw [placeOf_snoc]
      refine ih (g.kid hi) ?_
      obtain ⟨x, nd, kid, rfl⟩ := exists_node T
      exact L.toKid g hi

theorem trans (U : Under V T K l A B) {f : Nat} {H : Sub α (f + 1)} {l' : List (Nat × Nat)}
    {A' B' : List β} (U' : Under V K H l' A' B') : Under V T H (l' ++ l) (A ++ A') (B' ++ B) := by
  induction U with
  | here T => simpa using U'
  | kid i hi h ih =>
      have h' := Under.kid i hi (ih U')
      simpa using h'

/-- A run on the subtree is a run on the tree. -/
theorem put (U : Under V T K l A B) : ∀ {p pi : Nat} {K' : Sub α (e + 1)}, Good V s.heap T →
    Link s T.addrs T.addr p pi → Out V 0 s s₁ K K' (placeOf l p pi).1 (placeOf l p pi).2 →
    (l ≠ [] → V.t - 1 ≤ K'.size) → (V.counts → K'.weight V = K.weight V) →
    ∃ T', Out V 0 s s₁ T T' p pi ∧ Under V T' K' l A B ∧ (l = [] → T'.size = K'.size) ∧
      (l ≠ [] → T'.addr = T.addr ∧ T'.size = T.size) := by
  induction U with
  | here T =>
      intro p pi K' _ _ o _ _
      exact ⟨K', o, .here K', fun _ => rfl, fun h => absurd rfl h⟩
  | @kid d e T K l A B i hi h ih =>
      intro p pi K' g L o hlow hw
      obtain ⟨x, nd, kid, rfl⟩ := exists_node T
      rw [placeOf_snoc] at o
      obtain ⟨H, oH, UH, hH, hH'⟩ := ih (g.kids i hi) (L.toKid g hi) o (fun _ => hlow (by simp)) hw
      have hsize : V.t - 1 ≤ H.size := by
        by_cases hl : l = []
        · rw [hH hl]
          exact hlow (by simp)
        · rw [(hH' hl).2]
          exact g.node.low (by omega) i hi
      have hwt : V.counts → (0 : Int) + (kid i).weight V = 0 + H.weight V := by
        intro hc
        have h1 : (kid i).flat V = _ := h.flat
        have h2 := hw hc
        rw [Sub.weight, Sub.weight, h1, UH.flat]
        simp only [sum_wt_append]
        rw [Sub.weight, Sub.weight] at h2
        rw [h2]
      obtain ⟨oT, -⟩ := oH.lift_same g L hi hsize hwt
      refine ⟨_, oT, ?_, fun h => absurd h (by simp), fun _ => ⟨rfl, rfl⟩⟩
      have hpre : (Sub.node x (nd.setKid i H.addr) (splice i 0 0 (fun _ => H) kid)).pre V i =
          (Sub.node x nd kid).pre V i := splice_pre (Nat.le_refl i) fun _ _ => rfl
      have hpost : (Sub.node x (nd.setKid i H.addr) (splice i 0 0 (fun _ => H) kid)).post V i =
          (Sub.node x nd kid).post V i := splice_post (Nat.le_refl i) rfl fun _ _ _ => rfl
      have hk : (Sub.node x (nd.setKid i H.addr) (splice i 0 0 (fun _ => H) kid)).kid i = H := by
        show splice i 0 0 (fun _ => H) kid i = H
        rw [splice_at]
      have U' := Under.kid (V := V) (T := Sub.node x (nd.setKid i H.addr) (splice i 0 0 (fun _ => H) kid))
        i hi (hk.symm ▸ UH)
      rw [hpre, hpost] at U'
      exact U'

end Under

end AlchemyDB
