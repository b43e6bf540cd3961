/-
# `AlchemyDB.BTree.Fate` — the way of a delete, read off the tree

The functions of this file follow `deletekey` over the pages of a tree as it is before the
delete.  `Page.Spared` says that no key on the way forgets its DR: a delete (`drt = 0`)
zeroes the DRs of the keys that cases 3a and 3b move through the parent, and the key that
comes down takes the DR that the slot behind the keys happens to hold.  `Page.fate` says
where the way ends, and `Page.Fresh` that case 2c does not give the key such a leftover.
-/
import Mathlib.Data.Nat.Count
import AlchemyDB.BTree.Path
import AlchemyDB.BTree.Dirtied

namespace AlchemyDB

open Store Weave

variable {α κ : Type} [LinearOrder κ] {d : Nat}

/-- Where `deletekey` ends: in a leaf, at a slot whose DR is `dr`; in an inner node whose key
becomes a ghost; or in one whose key is replaced by a neighbour. -/
inductive Fate where
  | leaf (slot dr : Nat)
  | ghost
  | swapped
deriving DecidableEq, Repr

namespace Page

/-- How many keys are not behind `kk`. -/
def upto (key : α → κ) (kk : κ) (P : Page α d) : Nat := Nat.count (fun j => key (P.keys j) ≤ kk) P.n

/-- The page has the key. -/
def Has (key : α → κ) (kk : κ) (P : Page α d) : Prop :=
  0 < P.upto key kk ∧ key (P.keys (P.upto key kk - 1)) = kk

instance (key : α → κ) (kk : κ) (P : Page α d) : Decidable (P.Has key kk) :=
  inferInstanceAs (Decidable (_ ∧ _))

/-- The kid that `deletekey` goes on with. -/
def way (key : α → κ) (kk : κ) (P : Page α d) : DK → Nat
  | .none => P.upto key kk
  | .a2 => P.n
  | .b2 => 0

/-- The DRs that a delete drops when it enters kid `i` are 0, and those that it leaves to a slot
are what the slot holds. -/
def Spares (t : Nat) (P : Page α (d + 1)) (i : Nat) : Prop :=
  (P.kid i).n = t - 1 →
    if 0 < i ∧ t ≤ (P.kid (i - 1)).n then
      P.drs (i - 1) = 0 ∧ (P.kid (i - 1)).drs ((P.kid (i - 1)).n - 1) = 0
    else if i < P.n ∧ t ≤ (P.kid (i + 1)).n then
      (P.kid i).drs (P.kid i).n = P.drs i ∧ (P.kid (i + 1)).drs 0 = 0
    else if 0 < i then (P.kid (i - 1)).drs (P.kid (i - 1)).n = P.drs (i - 1)
    else (P.kid i).drs (P.kid i).n = P.drs i

/-- The DR that case 2c gives key `l`: `setDR` does not write a zero. -/
def leftDR (P : Page α (d + 1)) (l : Nat) : Nat :=
  if P.drs l = 0 then (P.kid l).drs (P.kid l).n else P.drs l

/-- The node that case 2c makes of the kids around key `l`. -/
def pushed (k : α) (P : Page α (d + 1)) (l : Nat) : Page α d :=
  join (P.kid l) (P.kid (l + 1)) k (P.leftDR l) 0 ((P.kid l).n + 1 + (P.kid (l + 1)).n)

/-- No key but `k` has another DR after the way of a delete. -/
def Spared (t : Nat) (key : α → κ) (k : α) : {d : Nat} → DK → Page α d → Prop
  | 0, _, _ => True
  | _ + 1, dk, P =>
    let w := P.way key (key k) dk
    if dk = .none ∧ P.Has key (key k) then
      if P.drs (w - 1) ≠ 0 then True
      else if t ≤ (P.kid (w - 1)).n then Spared t key k .a2 (P.kid (w - 1))
      else if t ≤ (P.kid w).n then Spared t key k .b2 (P.kid w)
      else Spared t key k dk (P.pushed k (w - 1))
    else P.Spares t w ∧ Spared t key k dk (P.entered t w)

/-- Where a delete of `k` ends. -/
def fate (t : Nat) (key : α → κ) (k : α) : {d : Nat} → Page α d → Fate
  | 0, P => .leaf (P.upto key (key k) - 1) (P.drs (P.upto key (key k) - 1))
  | _ + 1, P =>
    let w := P.upto key (key k)
    if P.Has key (key k) then
      if P.drs (w - 1) ≠ 0 then .ghost
      else if t ≤ (P.kid (w - 1)).n ∨ t ≤ (P.kid w).n then .swapped
      else fate t key k (P.pushed k (w - 1))
    else fate t key k (P.entered t w)

/-- Case 2c leaves `k` the DR it has. -/
def Fresh (t : Nat) (key : α → κ) (k : α) : {d : Nat} → Page α d → Prop
  | 0, _ => True
  | _ + 1, P =>
    let w := P.upto key (key k)
    if P.Has key (key k) then
      if t ≤ (P.kid (w - 1)).n ∨ t ≤ (P.kid w).n then True
      else P.leftDR (w - 1) = P.drs (w - 1) ∧ Fresh t key k (P.pushed k (w - 1))
    else Fresh t key k (P.entered t w)

end Page

/-! ## Nodes in memory and their pages -/

variable {key : α → κ} {s : Bt α} {p pi : Nat} {k : α}

/-- The search in a node, on its page. -/
theorem Found.upto {nd : BtN α} {i r : Int} {m : Nat} (F : Found key nd k i r m) {P : Page α d}
    (hn : P.n = nd.n) (hk : ∀ j < nd.n, P.keys j = nd.keys j) : P.upto key (key k) = m := by
  have hm := F.fits
  obtain ⟨c, hc⟩ : ∃ c, P.n = m + c := ⟨nd.n - m, by omega⟩
  have hlow : Nat.count (fun j => key (P.keys j) ≤ key k) m = m :=
    Nat.count_of_forall fun {j} hj => by
      rw [hk j (by omega)]
      exact F.below j hj
  have hhigh : Nat.count (fun j => key (P.keys (m + j)) ≤ key k) c = 0 :=
    Nat.count_of_forall_not fun {j} hj => by
      rw [hk _ (by omega)]
      exact not_le.2 (F.above _ (Nat.le_add_right m j) (by omega))
  rw [Page.upto, hc, Nat.count_add, hlow, hhigh, Nat.add_zero]

theorem Found.has {nd : BtN α} {i r : Int} {m : Nat} (F : Found key nd k i r m) {P : Page α d}
    (hn : P.n = nd.n) (hk : ∀ j < nd.n, P.keys j = nd.keys j) : r = 0 ↔ P.Has key (key k) := by
  rw [F.hit, Page.Has, F.upto hn hk]
  refine and_congr_right fun h0 => ?_
  have hm := F.fits
  rw [hk _ (by omega)]

namespace Page

/-- The pages agree on their entries and kids. -/
structure Same (P P' : Page α d) : Prop where
  n : P.n = P'.n
  keys : ∀ j < P.n, P.keys j = P'.keys j
  drs : ∀ j < P.n, P.drs j = P'.drs j
  kids : ∀ j ≤ P.n, P.kids j = P'.kids j

variable {t i : Nat} {P P' : Page α (d + 1)}

omit [LinearOrder κ] in
theorem Same.kid (h : Same P P') (hi : i ≤ P.n) : P.kid i = P'.kid i := by rw [Page.kid, h.kids i hi, Page.kid]

omit [LinearOrder κ] in
/-- What is around kid `i`. -/
theorem Same.around (h : Same P P') (hi : i ≤ P.n) (h0 : 0 < P.n) :
    P.entered t i = P'.entered t i ∧ (P.Spares t i ↔ P'.Spares t i) := by
  have hk := h.kid hi
  have hn := h.n
  by_cases hl : 0 < i
  · have hkl := h.kid (i := i - 1) (by omega)
    have hkey := h.keys (i - 1) (by omega)
    have hdr := h.drs (i - 1) (by omega)
    by_cases hr : i < P.n
    · have hkr := h.kid (i := i + 1) hr
      simp only [entered, Spares, hk, hkl, hkey, hdr, hkr, h.keys i hr, h.drs i hr, ← hn, and_self]
    · simp only [entered, Spares, hk, hkl, hkey, hdr, ← hn, hr, hl, false_and, if_false, if_true,
        and_self]
  · have hr : i < P.n := by omega
    have hkr := h.kid (i := i + 1) hr
    simp only [entered, Spares, hk, hl, hkr, h.keys i hr, h.drs i hr, ← hn, false_and, if_false,
      and_self]

omit [LinearOrder κ] in
theorem Same.left (h : Same P P') (hi : i < P.n) : P.leftDR i = P'.leftDR i := by
  rw [leftDR, leftDR, h.drs i hi, h.kid hi.le]

omit [LinearOrder κ] in
theorem Same.push (h : Same P P') (hi : i < P.n) (k : α) : P.pushed k i = P'.pushed k i := by
  rw [pushed, pushed, h.left hi, h.kid hi.le, h.kid (i := i + 1) hi]

end Page

section Dirty

variable {t : Nat} {h2 : 2 ≤ t} {c : Prop} {Q : α × Nat → Prop} {T : Sub α (d + 1)} {P : Page α d}

omit [LinearOrder κ] in
/-- A page of a node of the tree with its DRs agrees with the node. -/
theorem Shows.same (h : Shows (drView t h2 c Q) T P) : T.page.Same P := by
  have hn := h.size
  refine ⟨T.page_n.trans hn, fun j hj => ?_, fun j hj => ?_, fun j hj => ?_⟩
  · rw [T.page_keys]
    exact congrArg Prod.fst (h.ent j (by rwa [T.page_n, hn] at hj))
  · rw [T.page_drs]
    exact congrArg Prod.snd (h.ent j (by rwa [T.page_n, hn] at hj))
  · rw [T.page_kids]
    exact h.kid j (by rwa [T.page_n, hn] at hj)

omit [LinearOrder κ] in
theorem keeps_iff {T : Sub α (d + 2)} {i : Nat} : Keeps (drView t h2 c Q) T i ↔ T.page.Spares t i := by
  have hkid : ∀ j, T.page.kid j = (T.kid j).page := fun j => by rw [Page.kid, T.page_kids]
  have h0 : ∀ v : Nat, 0 = v ↔ v = 0 := fun _ => eq_comm
  have hsee : ∀ (e : α) (v : Nat) (nd : BtN α) (j : Nat), nd.keys j = e →
      ((drView t h2 c Q).see e v = (drView t h2 c Q).entry nd j ↔ v = nd.dr j) := by
    rintro _ v nd j rfl
    exact Prod.mk_right_inj
  simp only [Keeps, Page.Spares, hkid, Sub.page_n, T.page_drs, Sub.page_drs, hsee _ _ _ _ rfl, h0]
  exact Iff.rfl

/-- The stretch that case 2c makes shows its page. -/
theorem Folded.shows {owe : Int} {s' : Bt α} {T T' : Sub α (d + 2)} {i : Nat}
    (F : Folded (drView t h2 c Q) owe s s' T T' p pi i k) :
    Shows (drView t h2 c Q) (T'.kid i) (T.page.pushed k i) := by
  have hkid : ∀ j, T.page.kid j = (T.kid j).page := fun j => by rw [Page.kid, T.page_kids]
  have hleft : T.page.leftDR i = drAfter2c T.top (T.kid i).top i := by
    rw [Page.leftDR, hkid, T.page_drs, Sub.page_drs, Sub.page_n, Sub.size_top]
    rfl
  rw [Page.pushed, hkid, hkid, hleft, Sub.page_n, Sub.page_n]
  refine Spans.shows ⟨F.kidSize, fun j hj => ?_, fun j hj => ?_⟩
  · rw [Nat.zero_add]
    rcases Nat.lt_trichotomy j (T.kid i).size with h | h | h
    · rw [joinE_lt h]
      have he := F.lower.ent j h
      rwa [Nat.zero_add] at he
    · rw [h, joinE_at]
      exact F.sep
    · obtain ⟨m, rfl⟩ : ∃ m, j = (T.kid i).size + 1 + m := ⟨j - ((T.kid i).size + 1), by omega⟩
      rw [joinE_gt]
      exact F.upper.ent m (by omega)
  · rw [Nat.zero_add]
    by_cases h : j ≤ (T.kid i).size
    · rw [joinF_le h]
      have he := F.lower.kid j h
      rwa [Nat.zero_add] at he
    · obtain ⟨m, rfl⟩ : ∃ m, j = (T.kid i).size + 1 + m := ⟨j - ((T.kid i).size + 1), by omega⟩
      rw [joinF_gt]
      exact F.upper.kid m (by omega)

end Dirty

/-! ## A spared way is clear -/

section Clear

omit [LinearOrder κ] in
theorem Sub.paid_page (drt : Bool) : ∀ T : Sub α (d + 1), (T.paid drt).page = T.page
  | .node _ _ _ => by cases drt <;> rfl

omit [LinearOrder κ] in
/-- Case 2c keeps the keys, when `k` is the key it pushes down. -/
theorem Folded.map_flat {V : View α (α × Nat)} {K : α × Nat → κ} {owe : Int} {s' : Bt α}
    {T T' : Sub α (d + 2)} {i : Nat} (F : Folded V owe s s' T T' p pi i k) (H : Keyed V key K)
    (hi : i < T.size) (hk : key (T.top.keys i) = key k) :
    (T'.flat V).map K = (T.flat V).map K := by
  have hle : i ≤ T'.size := by
    have := F.size
    omega
  rw [T'.flat_focus V hle, F.flat, F.pre, F.post, T.flat_focus V hi.le, T.post_succ V hi]
  simp only [List.map_append, List.map_cons, H.see, H.entry, hk, List.append_assoc, List.cons_append]

variable {t : Nat} {h2 : 2 ≤ t} {Q : α × Nat → Prop}

/-- The search in a node of the tree, on a page of it. -/
theorem Shows.found {T : Sub α (d + 1)} {P : Page α d} {owe : Int} {c : Prop}
    (S : Setting (drView t h2 c Q) key (fun b => key b.1) s)
    (g : Owing (drView t h2 c Q) s.heap owe T) (ho : Ordered (fun b => key b.1) (T.flat (drView t h2 c Q)))
    (h : Shows (drView t h2 c Q) T P) (k : α) :
    P.upto key (key k) ≤ P.n ∧ slotOf s T.top k = P.upto key (key k) ∧
      ((findkindex s T.top k).2 = 0 ↔ P.Has key (key k)) := by
  obtain ⟨m, hm, F⟩ := g.found S.cmp S.log S.t S.keyed ho k
  have hs := h.same
  have hn : P.n = T.top.n := h.size.symm.trans T.size_top
  have hk : ∀ j < T.top.n, P.keys j = T.top.keys j := fun j hj => by
    rw [← hs.keys j (by rwa [T.page_n, T.size_top]), T.page_keys]
  have hu := F.upto hn hk
  exact ⟨hu.trans_le (h.size ▸ hm), F.slotOf.trans hu.symm, F.has hn hk⟩

omit [LinearOrder κ] in
/-- The node that case 2c makes has the key. -/
theorem Folded.has {V : View α (α × Nat)} {K : α × Nat → κ} {owe : Int} {s' : Bt α}
    {T T' : Sub α (d + 2)} {i : Nat} (F : Folded V owe s s' T T' p pi i k) (H : Keyed V key K) :
    ∃ b ∈ (T'.kid i).flat V, K b = key k := by
  refine ⟨V.see k (drAfter2c T.top (T.kid i).top i), ?_, H.see _ _⟩
  rw [F.flat]
  exact List.mem_append_right _ List.mem_cons_self

/-- No DR is lost on a spared way.  The induction is on the depth; the pages of the nodes that the
run comes to are those that `entered` and `pushed` make of the page it came from. -/
theorem clear_of_spared [RowStream α] : ∀ {d : Nat} {s : Bt α} {T : Sub α (d + 1)} {p pi : Nat} {dk : DK} {P : Page α d},
    Setting (drView t h2 False Q) key (fun b => key b.1) s → Good (drView t h2 False Q) s.heap T →
    Link s T.addrs T.addr p pi → Ordered (fun b => key b.1) (T.flat (drView t h2 False Q)) →
    Shows (drView t h2 False Q) T P → P.Spared t key k dk →
    (d ≠ 0 → 0 < T.size) → (dk = .none → (∃ b ∈ T.flat (drView t h2 False Q), key b.1 = key k) ∧
      ((∀ v, Q (k, v)) ∨ (P.Fresh t key k ∧ Q (k, 0))) ∧
      (s.s.inode = true → ∀ i v, P.fate t key k = .leaf i v → v = 0)) →
    Clear (drView t h2 False Q) k false dk s T p pi
  | 0, s, T, p, pi, dk, P, S, g, L, ho, hP, hsp, _, hnone => by
      intro hdk _ hin
      subst hdk
      obtain ⟨hmem, -, hi⟩ := hnone rfl
      obtain ⟨i, hlt, hpos, hslot, hkey, -⟩ := hit_leaf S g ho hmem
      obtain ⟨hle, hu, -⟩ := hP.found S g ho k
      have hup : P.upto key (key k) = i + 1 := hu.symm.trans hslot
      have hz := hi (hin.resolve_left id) _ _ rfl
      rw [hup, Nat.add_sub_cancel] at hz
      rw [show wayOf s T.top k .none = i + 1 from hslot, Nat.add_sub_cancel]
      have hd := hP.same.drs i (by rwa [T.page_n])
      rw [T.page_drs] at hd
      exact hd.trans hz
  | d + 1, s, T, p, pi, dk, P, S, g, L, ho, hP, hsp, h0, hnone => by
      have o := g.paid false L
      have L₁ := o.link L
      have S₁ := S.congr o.edit.rest
      have hsame := hP.same
      have hPn : P.n = T.size := hP.size.symm
      have hkid : ∀ j ≤ T.size, P.kid j = (T.kid j).page := fun j hj => by
        rw [← hsame.kid (by rwa [T.page_n]), Page.kid, T.page_kids]
      -- a kid that is entered as it is
      have hstay : ∀ {j : Nat} {dk : DK}, dk ≠ .none → j ≤ T.size → t ≤ (T.kid j).size →
          (T.kid j).page.Spared t key k dk →
          Clear (drView t h2 False Q) k false dk (s.paid false T) (T.kid j) T.addr j := by
        intro j dk hdk hj hrich hs
        have hj' : j ≤ (Sub.paid false T).size := by rwa [Sub.paid_size]
        have hk : Link (s.paid false T) (T.kid j).addrs (T.kid j).addr T.addr j := by
          obtain ⟨x, nd, kid, rfl⟩ := exists_node T
          exact L₁.toKid o.good hj
        have g' : Good (drView t h2 False Q) (s.paid false T).heap (T.kid j) := by
          have := o.good.kid hj'
          rwa [Sub.paid_kid] at this
        exact clear_of_spared S₁ g' hk (ho.kid hj) (Shows.rfl' _ _) hs (fun _ => by omega)
          fun h => absurd h hdk
      obtain ⟨hule, hslot, hhit⟩ := hP.found S g ho k
      by_cases hr : (deletePos s T.top k dk).2 = 0
      · obtain rfl := searched_of_hit g hr
        obtain ⟨i, hi, -, hway, hkey⟩ := hit_inner S g ho hr
        have hu : P.upto key (key k) = i + 1 := hslot.symm.trans hway
        have hhas : P.Has key (key k) := hhit.1 hr
        have hdr : P.drs i = T.top.dr i := by
          rw [← hsame.drs i (by rwa [T.page_n]), T.page_drs]
        obtain ⟨-, hQ, hi0⟩ := hnone rfl
        rw [Page.Spared] at hsp
        simp only [Page.way, hu, Nat.add_sub_cancel, hhas, and_self, if_true, hdr,
          hkid i hi.le, hkid (i + 1) hi, Sub.page_n] at hsp
        rw [Clear, if_pos hr, hway, Nat.add_sub_cancel]
        by_cases hg : T.top.dr i ≠ 0
        · rw [if_pos ⟨rfl, hg⟩]
          exact id
        rw [if_neg hg] at hsp
        rw [if_neg fun h => hg h.2]
        by_cases hy : (drView t h2 False Q).t ≤ (T.kid i).size
        · rw [if_pos hy]
          rw [if_pos (show t ≤ _ from hy)] at hsp
          exact hstay (by simp) hi.le hy hsp
        rw [if_neg (show ¬ t ≤ _ from hy)] at hsp
        rw [if_neg hy]
        by_cases hz : (drView t h2 False Q).t ≤ (T.kid (i + 1)).size
        · rw [if_pos hz]
          rw [if_pos (show t ≤ _ from hz)] at hsp
          exact hstay (by simp) hi hz hsp
        rw [if_neg (show ¬ t ≤ _ from hz)] at hsp
        rw [if_neg hz]
        -- case 2c
        have hpush : T.page.pushed k i = P.pushed k i := hsame.push (by rwa [T.page_n]) k
        have hleft : P.leftDR i = drAfter2c T.top (T.kid i).top i := by
          rw [← hsame.left (by rwa [T.page_n]), Page.leftDR, Page.kid, T.page_drs, T.page_kids,
            Sub.page_drs, Sub.page_n, Sub.size_top]
          rfl
        have hnot : ¬ (t ≤ (P.kid (P.upto key (key k) - 1)).n ∨ t ≤ (P.kid (P.upto key (key k))).n) := by
          rw [hu, Nat.add_sub_cancel, hkid i hi.le, hkid (i + 1) hi, Sub.page_n, Sub.page_n]
          exact not_or.2 ⟨hy, hz⟩
        have hfresh : P.Fresh t key k → P.leftDR i = T.top.dr i ∧ (P.pushed k i).Fresh t key k := by
          intro hf
          rw [Page.Fresh] at hf
          simp only [if_pos hhas, if_neg hnot] at hf
          rwa [hu, Nat.add_sub_cancel, hdr] at hf
        have hfate : P.fate t key k = (P.pushed k i).fate t key k := by
          have hg' : ¬ P.drs (P.upto key (key k) - 1) ≠ 0 := by rwa [hu, Nat.add_sub_cancel, hdr]
          rw [Page.fate]
          simp only [if_pos hhas, if_neg hnot, if_neg hg']
          rw [hu, Nat.add_sub_cancel]
        refine ⟨?_, fun h => absurd h id, fun s' T' F => ?_⟩
        · show Q (k, _)
          rw [← hleft]
          rcases hQ with hQ | ⟨hf, hQ⟩
          · exact hQ _
          · rwa [(hfresh hf).1, not_not.1 hg]
        have hle : i ≤ T'.size := by
          have := F.size
          rw [Sub.paid_size] at this
          omega
        have hkT : key ((T.paid false).top.keys i) = key k := by rwa [T.paid_keys]
        have hmap := F.map_flat S.keyed (by rwa [Sub.paid_size]) hkT
        rw [Sub.paid_flat] at hmap
        have ho' := Ordered.of_map ho hmap
        have hkidn := F.kidSize
        simp only [Sub.paid_kid] at hkidn
        refine clear_of_spared (S.congr (F.out.edit.rest.trans o.edit.rest)) (F.out.good.kid hle) ?_
          (ho'.kid hle) (hpush ▸ (T.paid_page false ▸ F.shows)) hsp (fun _ => by omega)
          fun _ => ⟨?_, hQ.imp_right fun h => ⟨(hfresh h.1).2, h.2⟩, fun hin => ?_⟩
        · have Lm : Link ((s.paid false T).mark2c (s.keyPtr T.addr T.top i)) (Sub.paid false T).addrs
              (Sub.paid false T).addr p pi := ⟨L₁.bound, L₁.root, L₁.top, L₁.place⟩
          have Lf := F.out.link Lm
          have gf := F.out.good
          obtain ⟨x, nd, kid, rfl⟩ := exists_node T'
          exact Lf.toKid gf hle
        · exact F.has S.keyed
        · have hs' : s'.s = s.s := congrArg (fun r => r.2.2.2.2) (F.out.edit.rest.trans o.edit.rest)
          rw [← hfate]
          exact hi0 (hs' ▸ hin)
      · have hne : ¬ (dk = .none ∧ P.Has key (key k)) := by
          rintro ⟨rfl, hh⟩
          exact hr (hhit.2 hh)
        have hway : wayOf s T.top k dk = P.way key (key k) dk := by
          cases dk with
          | none => exact hslot
          | a2 => simp [wayOf, deletePos, Page.way, hPn, T.size_top]
          | b2 => simp [wayOf, deletePos, Page.way]
        have hle : wayOf s T.top k dk ≤ T.size := by
          rw [hway]
          cases dk with
          | none => exact hPn ▸ hule
          | a2 => exact hPn.le
          | b2 => exact Nat.zero_le _
        rw [Page.Spared] at hsp
        simp only [if_neg hne, ← hway] at hsp
        rw [Clear, if_neg hr]
        have hpos : 0 < T.size := h0 (by omega)
        obtain ⟨hent, hspare⟩ := hsame.around (t := t) (i := wayOf s T.top k dk) (by rwa [T.page_n])
          (by rwa [T.page_n])
        refine ⟨fun _ => keeps_iff.2 (hspare.2 hsp.1), fun i' s' T' _ R => ?_⟩
        have hflat : T'.flat (drView t h2 False Q) = T.flat (drView t h2 False Q) := by
          rw [R.grown.flat (by rwa [Sub.paid_size]) R.fits, Sub.paid_flat]
        have ho' : Ordered (fun b => key b.1) (T'.flat (drView t h2 False Q)) := hflat ▸ ho
        have hshow : Shows (drView t h2 False Q) (T'.kid i') (P.entered t (wayOf s T.top k dk)) := by
          have h := R.entered
          rwa [T.paid_page, drView_t, hent] at h
        have hrich := R.rich
        refine clear_of_spared (S₁.congr R.out.edit.rest) (R.out.good.kid R.fits) ?_ (ho'.kid R.fits)
          hshow hsp.2 (fun _ => by rw [drView_t] at hrich; omega) fun hdk => ?_
        · have Lf := R.out.link L₁
          have gf := R.out.good
          have hfit := R.fits
          obtain ⟨x, nd, kid, rfl⟩ := exists_node T'
          exact Lf.toKid gf hfit
        · subst hdk
          obtain ⟨⟨b, hb, hbk⟩, hQ, hi0⟩ := hnone rfl
          have hnh : ¬ P.Has key (key k) := fun h => hne ⟨rfl, h⟩
          rw [show wayOf s T.top k .none = P.upto key (key k) from hslot]
          refine ⟨⟨b, ?_, hbk⟩, hQ.imp_right fun h => ⟨?_, h.2⟩, fun hin i v hf => ?_⟩
          · obtain ⟨m, hm, F⟩ := g.found S.cmp S.log S.t S.keyed ho k
            have hb' := F.mem_kid S.keyed ho hr hb hbk
            obtain ⟨A, B, -, -, hK⟩ := R.grown
            rw [Sub.paid_kid, show wayOf s T.top k .none = m from F.slotOf] at hK
            rw [hK]
            simp [hb']
          · have hf := h.1
            rw [Page.Fresh] at hf
            simpa only [if_neg hnh] using hf
          · have hs' : s'.s = s.s :=
              congrArg (fun r => r.2.2.2.2) (R.out.edit.rest.trans o.edit.rest)
            refine hi0 (hs' ▸ hin) i v ?_
            rw [Page.fate]
            simpa only [if_neg hnh] using hf

end Clear

end AlchemyDB
