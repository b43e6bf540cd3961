/-
# `AlchemyDB.BTree.Still` — trees without DRs

Under a view that accepts only nodes without DRs the conditions on the way of an
insertion or a delete hold of themselves: no stream is released, none is
allocated, and nothing comes back from behind the keys.
-/
import AlchemyDB.BTree.Access

namespace AlchemyDB

open Store Weave

variable {α β κ : Type} [LinearOrder κ] {d : Nat} {V : View α β} {key : α → κ} {K : β → κ}
  {s : Bt α} {p pi : Nat} {k : α}

/-- The view accepts no DR but 0. -/
def View.Still (V : View α β) : Prop := ∀ {nd : BtN α}, V.P nd → ∀ j, nd.dr j = 0

theorem View.Still.blind (hv : V.Still) : V.Blind := fun k j h => by rw [hv h j]

theorem splitSafe_of_still (hv : V.Still) {b : Bt α} (S : Setting V key K b) {P : Prop} :
    ∀ {d : Nat} {T : Sub α d}, Good V b.heap T → Ordered K (T.flat V) → SplitSafe b k T P
  | _, .nil, _, _ => trivial
  | _, .node a nd kid, g, ho => by
      have h0 := hv g.node.disc
      obtain ⟨m, hm, F⟩ := g.found S.cmp S.log S.t S.keyed ho k
      have hkid : ∀ {Q : Prop}, SplitSafe b k (kid (slotOf b nd k)) Q := by
        rw [show slotOf b nd k = m from F.slotOf]
        exact splitSafe_of_still hv S (g.kids m hm) (ho.kid hm)
      rw [SplitSafe]
      split_ifs
      · exact ⟨Or.inr fun j _ _ => h0 j, Or.inl (h0 _), hkid⟩
      · exact ⟨Or.inr fun j _ _ => h0 j, Or.inl (h0 _), hkid⟩
      · exact hkid

/-- `deletekey` goes on with one of the kids. -/
theorem wayOf_le {T : Sub α (d + 1)} {owe : Int} (S : Setting V key K s) (g : Owing V s.heap owe T)
    (ho : Ordered K (T.flat V)) (dk : DK) : wayOf s T.top k dk ≤ T.size := by
  cases dk with
  | none =>
      obtain ⟨m, hm, F⟩ := g.found S.cmp S.log S.t S.keyed ho k
      exact (show wayOf s T.top k .none = m from F.slotOf) ▸ hm
  | a2 => simp [wayOf, deletePos, T.size_top]
  | b2 => simp [wayOf, deletePos]

/-- Only the search for a key ends in an inner node. -/
theorem searched_of_hit {T : Sub α (d + 2)} {owe : Int} (g : Owing V s.heap owe T) {dk : DK}
    (hr : (deletePos s T.top k dk).2 = 0) : dk = .none := by
  obtain ⟨x, nd, kid, rfl⟩ := exists_node T
  have hl := g.inner
  cases dk with
  | none => rfl
  | a2 => simp [deletePos, hl] at hr
  | b2 => simp [deletePos, hl] at hr

theorem clear_of_still (hv : V.Still) (hok : ∀ b, V.ok b) (drt : Bool) : ∀ {d : Nat} {s : Bt α}
    {T : Sub α (d + 1)} {p pi : Nat} {dk : DK}, Setting V key K s → Good V s.heap T →
    Link s T.addrs T.addr p pi → Ordered K (T.flat V) → Clear V k drt dk s T p pi
  | 0, s, T, p, pi, dk, S, g, L, ho => fun _ _ _ => hv g.top_disc _
  | d + 1, s, T, p, pi, dk, S, g, L, ho => by
      have o := g.paid drt L
      have L₁ := o.link L
      have S₁ := S.congr o.edit.rest
      have hdr := hv g.top_disc
      have hbelow : ∀ {s' : Bt α} {T' : Sub α (d + 2)} {j : Nat}, Setting V key K s' →
          Owing V s'.heap (debt drt) T' → Link s' T'.addrs T'.addr p pi → j ≤ T'.size →
          Ordered K (T'.flat V) → ∀ dk, Clear V k drt dk s' (T'.kid j) T'.addr j := by
        intro s' T' j S' g' L' hj ho' dk
        refine clear_of_still hv hok drt S' (g'.kid hj) ?_ (ho'.kid hj)
        obtain ⟨x, nd, kid, rfl⟩ := exists_node T'
        exact L'.toKid g' hj
      by_cases hr : (deletePos s T.top k dk).2 = 0
      · obtain rfl := searched_of_hit g hr
        obtain ⟨i, hi, -, hway, hkey⟩ := hit_inner S g ho hr
        have hkid : ∀ {j : Nat} {dk : DK}, j ≤ T.size →
            Clear V k drt dk (s.paid drt T) (T.kid j) T.addr j := by
          intro j dk hj
          have hj' : j ≤ (Sub.paid drt T).size := by rwa [Sub.paid_size]
          have h := hbelow S₁ o.good L₁ hj' (by rwa [Sub.paid_flat]) dk
          rwa [Sub.paid_kid, Sub.paid_addr] at h
        rw [Clear, if_pos hr, hway, Nat.add_sub_cancel]
        split_ifs with hg hy hz
        · exact absurd (hdr _) hg.2
        · exact hkid (Nat.le_of_lt hi)
        · exact hkid hi
        · have hK := hv (g.kid (Nat.le_of_lt hi)).top_disc
          have hd2 : drAfter2c T.top (T.kid i).top i = 0 := by
            rw [drAfter2c, if_pos (hdr _), hK]
          refine ⟨hok _, fun _ => by rw [hd2, hdr], fun s' T' F => ?_⟩
          have hsz : T'.size + 1 = T.size := by
            have := F.size
            rwa [Sub.paid_size] at this
          have hle : i ≤ T'.size := by omega
          have hT' : T'.flat V = T.pre V i ++ ((T.kid i).flat V ++ V.see k 0 ::
              ((T.kid (i + 1)).flat V ++ T.post V (i + 1))) := by
            have h1 := F.flat
            have h2 := F.pre
            have h3 := F.post
            simp only [Sub.paid_kid, Sub.paid_pre, Sub.paid_post] at h1 h2 h3
            rw [T'.flat_focus V hle, h1, h2, h3]
            have hd3 : drAfter2c (Sub.paid drt T).top (T.kid i).top i = 0 := by
              rw [drAfter2c, Sub.paid_dr, hdr, if_pos rfl, hK]
            rw [hd3]
            simp
          have hT : T.flat V = T.pre V i ++ ((T.kid i).flat V ++ V.entry T.top i ::
              ((T.kid (i + 1)).flat V ++ T.post V (i + 1))) := by
            rw [T.flat_focus V (Nat.le_of_lt hi), T.post_succ V hi]
          have ho' : Ordered K (T'.flat V) := by
            refine Ordered.of_map ho ?_
            rw [hT', hT]
            simp only [List.map_append, List.map_cons, S.keyed.see, S.keyed.entry, hkey]
          have S' : Setting V key K s' := S.congr (F.out.edit.rest.trans o.edit.rest)
          have Lm : Link ((s.paid drt T).mark2c (s.keyPtr T.addr T.top i)) (Sub.paid drt T).addrs
              (Sub.paid drt T).addr p pi := ⟨L₁.bound, L₁.root, L₁.top, L₁.place⟩
          exact hbelow S' F.out.good (F.out.link Lm) hle ho' _
      · rw [Clear, if_neg hr]
        have hle := wayOf_le (k := k) S g ho dk
        refine ⟨fun _ => keeps_of_blind hv.blind g hle, fun i' s' T' _ R => ?_⟩
        have hflat : T'.flat V = T.flat V := by
          rw [R.grown.flat (by rwa [Sub.paid_size]) R.fits, Sub.paid_flat]
        exact hbelow (S₁.congr R.out.edit.rest) R.out.good (R.out.link L₁) R.fits (hflat ▸ ho) dk

end AlchemyDB
