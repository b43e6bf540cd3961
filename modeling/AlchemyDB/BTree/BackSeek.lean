/-
# `AlchemyDB.BTree.BackSeek` — descending ranges

`setIter` walks down to the high key as it does for an ascending range.  When the key is
there a descending scan begins with it.  When it is not, the walk ends in a leaf: behind a
key, which `setIter` then skips, or in front of the first one, at which the scan begins
although it lies above the range; and behind the last key of the tree there is no scan.
-/
import AlchemyDB.BTree.Back
import Mathlib.Data.List.TakeWhile

namespace AlchemyDB

open Store Weave

variable {α κ : Type} [LinearOrder κ] [RowStream α] {d D : Nat} {K : RangeKeys α κ} {tr : Trans}
  {b : Bt α} {T₀ : Sub α (D + 1)} {L : List (α × Nat)}

/-! ## Scans -/

/-- The entries that a scan in a direction gets out of the list before it. -/
def takes (K : RangeKeys α κ) (asc : Bool) (far : κ) : List (α × Nat) → List α
  | [] => []
  | c :: l =>
      if K.isOver asc (K.key c.1) c.2 far then []
      else c.1 :: if K.exact (K.key c.1) far then [] else takes K asc far l

omit [LinearOrder κ] [RowStream α] in
theorem takes_true (far : κ) : ∀ l : List (α × Nat), takes K true far l = taken K far l
  | [] => rfl
  | c :: l => by rw [takes, taken, takes_true far l]

/-- The descending iterator has the list before it, and has met no miss. -/
structure GoingBack (tr : Trans) (T₀ : Sub α (D + 1)) (si : BtSIter α κ) (L : List (α × Nat)) :
    Prop where
  back : Back (tr.view α) T₀ si.x L
  empty : si.empty = false
  missed : si.missed = false
  nim : si.nim = false

theorem GoingBack.entry {si : BtSIter α κ} {c : α × Nat} (S : Searched K tr b T₀)
    (G : GoingBack tr T₀ si (c :: L)) : c.2 = 0 ∧ Sound K c.1 := by
  obtain ⟨-, d, T, R, j, H, hc, hflat⟩ := G.back.stand.imp_right Facing.stand
  refine S.entry ?_
  rw [hflat, hc]
  exact List.mem_append_right _ (List.mem_append_left _ (T.entry_mem_post H.lt))

/-- `btNext` returns the first entry before the iterator. -/
theorem GoingBack.next {si : BtSIter α κ} {c : α × Nat} (S : Searched K tr b T₀)
    (G : GoingBack tr T₀ si (c :: L)) :
    ∃ nd si', b.heap si.x.bln.self = some nd ∧ nd.dr si.x.bln.ik.toNat = 0 ∧
      btNext K b .step false si = some (some (c.1, si.x.bln.self, si.x.bln.ik), si') ∧
      GoingBack tr T₀ si' L ∧ si'.high = si.high ∧ si'.scan = si.scan := by
  obtain ⟨nd, i, hi, it', hheap, hik, hentry, hslot, hrun, A, -⟩ := S.scanned.stepBack G.back
  obtain ⟨hdr, hsound⟩ := G.entry S
  have hc : c = (nd.keys i, nd.dr i) := hentry.symm
  subst hc
  have h0 : nd.dr i = 0 := hdr
  refine ⟨nd, { si with nim := false, x := it' }, hheap, by rw [hik]; exact h0, ?_,
    ⟨A, G.empty, G.missed, rfl⟩, rfl, rfl⟩
  have hgo : (if nd.leaf then iLeaf b .step false nd si.x else iNode b .step false nd si.x) =
      some it' := hrun
  have hkn : K.null (nd.keys i) = false := hsound.null
  cases hl : nd.leaf <;> rw [hl] at hgo <;>
    simp only [Bool.false_eq_true, if_false, if_true] at hgo <;>
    simp only [btNext, G.back.stand.1, Bool.false_eq_true, if_false, hheap, hik, Option.bind_eq_bind,
      Option.bind_some, hslot, if_true, Int.toNat_natCast, h0, ne_eq, not_true_eq_false, decide_false,
      hl, hgo, RangeKeys.stream, hkn]

theorem GoingBack.yields (S : Searched K tr b T₀) : ∀ {L : List (α × Nat)} {si : BtSIter α κ},
    GoingBack tr T₀ si L → Yields K b false si (takes K false si.high L)
  | [], _, G => Yields.finished G.empty G.back.finished G.missed G.nim
  | c :: L, si, G => by
      obtain ⟨nd, si₁, hheap, hdr, hnext, G₁, hhigh, -⟩ := G.next S
      obtain ⟨h0, hsound⟩ := G.entry S
      have hg := hsound.ghost
      have hrun : btRangeNext K b false si =
          some (if K.isOver false (K.key c.1) c.2 si.high then none else some c.1, si₁.took K c.1) := by
        simp only [btRangeNext, G.empty, Bool.false_eq_true, if_false, hnext, Option.bind_eq_bind,
          Option.bind_some, rangeTest_run si₁ false hheap hg hdr G₁.nim, h0, hhigh]
      rw [takes]
      by_cases hover : K.isOver false (K.key c.1) c.2 si.high = true
      · rw [if_pos hover]
        refine ⟨_, by rw [hrun, if_pos hover], ?_⟩
        rw [BtSIter.took]
        split <;> exact G₁.missed
      · rw [if_neg hover]
        by_cases hex : K.exact (K.key c.1) si.high = true
        · have ht : si₁.took K c.1 =
              { si₁ with be := some (c.1, 0), x := { si₁.x with finished := true } } := by
            rw [BtSIter.took, hhigh, if_pos hex]
          rw [if_pos hex]
          refine ⟨si₁.took K c.1, by rw [hrun, if_neg hover], ?_⟩
          rw [ht]
          exact ⟨G₁.missed, rfl, Yields.finished G₁.empty rfl G₁.missed G₁.nim⟩
        · have ht : si₁.took K c.1 = { si₁ with be := some (c.1, 0) } := by
            rw [BtSIter.took, hhigh, if_neg hex]
          rw [if_neg hex]
          refine ⟨si₁.took K c.1, by rw [hrun, if_neg hover], ?_⟩
          rw [ht]
          have G₂ : GoingBack tr T₀ { si₁ with be := some (c.1, 0) } L :=
            ⟨G₁.back, G₁.empty, G₁.missed, G₁.nim⟩
          refine ⟨G₁.missed, rfl, ?_⟩
          rw [← hhigh]
          exact G₂.yields S

/-! ## Where a descending scan begins -/

/-- Whether the walk for a key ends in front of the first key of its leaf. -/
def endsInFront (b : Bt α) (k : α) : Nat → Nat → Bool
  | 0, _ => false
  | fuel + 1, x =>
      match b.heap x with
      | none => false
      | some nd =>
          let i := (findkindex b nd k).1
          if nd.leaf then decide (i < 0)
          else match b.child nd (i + 1) with
            | none => false
            | some c => endsInFront b k fuel c

/-- The entries below a key, backwards. -/
def below (K : RangeKeys α κ) (high : κ) (l : List (α × Nat)) : List (α × Nat) :=
  (l.takeWhile fun c => decide (K.key c.1 < high)).reverse

/-- What a descending scan reads from a high key on; `front` is where the walk for it ends. -/
def backFrom (K : RangeKeys α κ) (front : Bool) (high : κ) (l : List (α × Nat)) :
    List (α × Nat) :=
  match onwards K high l with
  | [] => []
  | c :: _ => if K.key c.1 = high ∨ front then c :: below K high l else (below K high l).tail

omit [RowStream α] in
/-- What is in front of the entries from a key on. -/
theorem below_of_onwards {high : κ} {l B A : List (α × Nat)} (hl : l = B.reverse ++ A)
    (hA : onwards K high l = A) : below K high l = B := by
  have hcut : l.takeWhile (fun c => decide (K.key c.1 < high)) ++ onwards K high l = l :=
    List.takeWhile_append_dropWhile
  rw [hA] at hcut
  rw [below, List.append_cancel_right (hcut.trans hl), List.reverse_reverse]

/-! ## The end of the walk -/

/-- Where a walk ends: at a slot that `findkindex` gives, in front of a leaf or not. -/
theorem initLoop_end {k : α} {q : Nat} : ∀ {fuel : Nat} {it it' : BtIterator} {only : Bool} {ret : Ii},
    AlchemyDB.initLoop b k q false fuel it only = some (ret, it') →
    ∃ nd, b.heap it'.bln.self = some nd ∧
      (nd.n ≠ 0 → it'.bln.ik = max (findkindex b nd k).1 0) ∧
      (ret = .ok → (findkindex b nd k).2 = 0) ∧
      (ret = .leafExit ∨ ret = .onlyRight →
        endsInFront b k fuel it.bln.self = decide ((findkindex b nd k).1 < 0))
  | 0, _, _, _, _, h => by cases h
  | fuel + 1, it, it', only, ret, h => by
      rw [AlchemyDB.initLoop] at h
      cases hx : b.heap it.bln.self with
      | none => simp [hx] at h
      | some nd =>
          simp only [hx, Option.bind_eq_bind, Option.bind_some] at h
          have hself : (if nd.n = 0 then it else it.at (max (findkindex b nd k).1 0)
              (max (findkindex b nd k).1 0)).bln.self = it.bln.self ∧ (nd.n ≠ 0 →
              (if nd.n = 0 then it else it.at (max (findkindex b nd k).1 0)
                (max (findkindex b nd k).1 0)).bln.ik = max (findkindex b nd k).1 0) := by
            split
            · exact ⟨rfl, fun h => absurd ‹_› h⟩
            · exact ⟨rfl, fun _ => rfl⟩
          generalize (if nd.n = 0 then it else it.at (max (findkindex b nd k).1 0)
            (max (findkindex b nd k).1 0)) = it₁ at h hself
          obtain ⟨hself, hik⟩ := hself
          have hx₁ : b.heap it₁.bln.self = some nd := by rw [hself, hx]
          by_cases h1 : 0 ≤ (findkindex b nd k).1 ∧ (findkindex b nd k).2 = 0
          · rw [if_pos h1] at h
            cases h
            exact ⟨nd, hx₁, hik, fun _ => h1.2, by simp⟩
          rw [if_neg h1] at h
          by_cases h2 : keyCoversMiss b nd (findkindex b nd k).1 q = true
          · rw [if_pos h2] at h
            cases h
            exact ⟨nd, hx₁, hik, by simp, by simp⟩
          rw [if_neg h2] at h
          by_cases h3 : nd.leaf = true
          · rw [if_pos h3] at h
            cases h
            refine ⟨nd, hx₁, hik, fun h => ?_, fun _ => ?_⟩
            · split at h <;> cases h
            · simp only [endsInFront, hx, if_pos h3]
          · rw [if_neg h3] at h
            obtain ⟨it₂, hnew, h⟩ := Option.bind_eq_some_iff.1 h
            obtain ⟨c, hc, h⟩ := Option.bind_eq_some_iff.1 h
            obtain ⟨it₃, hto, h⟩ := Option.bind_eq_some_iff.1 h
            obtain ⟨z, hz, hto⟩ := Option.bind_eq_some_iff.1 hto
            cases hto
            obtain ⟨nd', hheap, hik', hok, hend⟩ := initLoop_end h
            refine ⟨nd', hheap, hik', hok, fun hret => ?_⟩
            simp only [endsInFront, hx, if_neg h3, hc]
            exact hend hret

/-- Behind the last key of the tree the walk has only gone right. -/
theorem Scanned.initLoop_right {k : α} {q : Nat}
    (S : Scanned (tr.view α) K.key (fun c => K.key c.1) b T₀) :
    ∀ {fuel d : Nat} {T : Sub α (d + 1)} {R : List (α × Nat)} {it it' : BtIterator} {ret : Ii},
      Trail (tr.view α) T₀ T it.up R → it.bln.self = T.addr → 0 < T.size →
      (∀ c ∈ T.flat (tr.view α) ++ R, K.key c.1 < K.key k) →
      AlchemyDB.initLoop b k q false fuel it true = some (ret, it') → ret = .onlyRight := by
  intro fuel
  induction fuel with
  | zero => intro d T R it it' ret _ _ _ _ h; cases h
  | succ fuel ih =>
      intro d T R it it' ret t hs hpos hlt h
      have g := t.good S.good
      have hkey := S.setting.keyed
      have hord : Ordered (fun c : α × Nat => K.key c.1) (T.flat (tr.view α)) :=
        (List.pairwise_append.1 (S.ordered t)).1.imp fun h => h.le
      obtain ⟨m, hm, F⟩ := g.found S.setting.cmp S.setting.log S.setting.t hkey hord k
      have hsz := T.size_top
      have hn0 : T.top.n ≠ 0 := by omega
      have hmiss : ∀ i, keyCoversMiss b T.top i q = false := fun i =>
        keyCoversMiss_clean (Owing.top_disc g) i q
      have hi := F.slot
      -- all the keys of the node lie before the key
      have hbelow : ∀ j < T.size, K.key (T.top.keys j) < K.key k := fun j hj => by
        have := hlt _ (List.mem_append_left _ (T.entry_mem_flat hj))
        rwa [hkey.entry] at this
      have hmn : m = T.size := by
        by_contra hne
        exact absurd (F.above m le_rfl (by omega)) (hbelow m (by omega)).not_gt
      have hr : (findkindex b T.top k).2 ≠ 0 := fun h0 => by
        obtain ⟨hm0, he⟩ := F.hit.1 h0
        exact absurd he (hbelow (m - 1) (by omega)).ne
      have hr' : ¬ (findkindex b T.top k).2 < 0 := fun h0 => by
        have := findkindex_neg S.setting.cmp S.setting.log (by rw [S.setting.t, ← hsz]; exact g.top_fill)
          (by rw [← hsz]; exact hord.node hkey) h0
        omega
      simp only [AlchemyDB.initLoop, hs, S.heap t, Option.bind_eq_bind, Option.bind_some, if_neg hn0,
        hmiss, Bool.false_eq_true, if_false, hr, and_false, hr', not_false_eq_true, true_and,
        Bool.true_and, show (findkindex b T.top k).1 = (T.top.n : Int) - 1 by omega, decide_true,
        if_true] at h
      cases d with
      | zero =>
          rw [if_pos (g.top_leaf.2 rfl)] at h
          cases h
          rfl
      | succ d =>
          rw [if_neg fun hl => absurd (g.top_leaf.1 hl) (by omega)] at h
          obtain ⟨it₂, hnew, h⟩ := Option.bind_eq_some_iff.1 h
          obtain ⟨c, hc, h⟩ := Option.bind_eq_some_iff.1 h
          obtain ⟨it₃, hto, h⟩ := Option.bind_eq_some_iff.1 h
          obtain ⟨z, hz, hto⟩ := Option.bind_eq_some_iff.1 hto
          cases hto
          have hit₂ : it₂.bln = ⟨T.addr, (T.top.n : Int) - 1, (T.top.n : Int) - 1⟩ ∧ it₂.up = it.up := by
            rw [getNewIterChild] at hnew
            split at hnew
            · cases hnew
              refine ⟨?_, rfl⟩
              simp only [BtIterator.at, hs]
              rw [max_eq_left (by omega)]
            · cases hnew
          have hc' : c = (T.kid T.size).addr := by
            have := S.child t (le_refl T.size)
            rw [show (T.top.n : Int) - 1 + 1 = (T.size : Int) by omega, this] at hc
            exact (Option.some.inj hc).symm
          have B : Beside it₂.bln T T.size := by
            rw [hit₂.1]
            exact .right rfl (by simp only; omega) hpos (.inl rfl)
          refine ih (T := T.kid T.size) (R := T.post (tr.view α) T.size ++ R) ?_ hc' (g.kid_pos le_rfl)
            ?_ h
          · rw [hit₂.2]
            exact .kid t le_rfl B
          · intro c hc
            refine hlt c ?_
            rw [T.flat_focus _ le_rfl]
            simp only [List.mem_append] at hc ⊢
            tauto

/-- A key that is there is found. -/
theorem Scanned.initLoop_hit {k : α} {q : Nat}
    (S : Scanned (tr.view α) K.key (fun c => K.key c.1) b T₀) :
    ∀ {fuel d : Nat} {T : Sub α (d + 1)} {R : List (α × Nat)} {it it' : BtIterator} {only : Bool}
      {ret : Ii}, Trail (tr.view α) T₀ T it.up R → it.bln.self = T.addr → 0 < T.size →
      (∃ c ∈ T.flat (tr.view α), K.key c.1 = K.key k) →
      AlchemyDB.initLoop b k q false fuel it only = some (ret, it') → ret = .ok := by
  intro fuel
  induction fuel with
  | zero => intro d T R it it' only ret _ _ _ _ h; cases h
  | succ fuel ih =>
      intro d T R it it' only ret t hs hpos ⟨c, hc, hck⟩ h
      have g := t.good S.good
      have hkey := S.setting.keyed
      have hord : Ordered (fun c : α × Nat => K.key c.1) (T.flat (tr.view α)) :=
        (List.pairwise_append.1 (S.ordered t)).1.imp fun h => h.le
      obtain ⟨m, hm, F⟩ := g.found S.setting.cmp S.setting.log S.setting.t hkey hord k
      have hsz := T.size_top
      have hn0 : T.top.n ≠ 0 := by omega
      have hmiss : keyCoversMiss b T.top (findkindex b T.top k).1 q = false :=
        keyCoversMiss_clean (Owing.top_disc g) _ _
      have hi := F.slot
      simp only [AlchemyDB.initLoop, hs, S.heap t, Option.bind_eq_bind, Option.bind_some, if_neg hn0,
        hmiss, Bool.false_eq_true, if_false] at h
      by_cases hr : (findkindex b T.top k).2 = 0
      · have hm0 := (F.hit.1 hr).1
        rw [if_pos ⟨by omega, hr⟩] at h
        cases h
        rfl
      · rw [if_neg fun h => hr h.2] at h
        have hkid := F.mem_kid hkey hord hr hc hck
        cases d with
        | zero =>
            rw [T.kid_leaf] at hkid
            exact absurd hkid List.not_mem_nil
        | succ d =>
            rw [if_neg fun hl => absurd (g.top_leaf.1 hl) (by omega)] at h
            obtain ⟨it₂, hnew, h⟩ := Option.bind_eq_some_iff.1 h
            obtain ⟨x, hx, h⟩ := Option.bind_eq_some_iff.1 h
            obtain ⟨it₃, hto, h⟩ := Option.bind_eq_some_iff.1 h
            obtain ⟨z, hz, hto⟩ := Option.bind_eq_some_iff.1 hto
            cases hto
            have hit₂ : it₂.bln = ⟨T.addr, max (findkindex b T.top k).1 0,
                max (findkindex b T.top k).1 0⟩ ∧ it₂.up = it.up := by
              rw [getNewIterChild] at hnew
              split at hnew
              · cases hnew
                exact ⟨by simp only [BtIterator.at, hs], rfl⟩
              · cases hnew
            have hx' : x = (T.kid m).addr := by
              have := S.child t hm
              rw [show (findkindex b T.top k).1 + 1 = (m : Int) by omega, this] at hx
              exact (Option.some.inj hx).symm
            have B : Beside it₂.bln T m := by
              rw [hit₂.1]
              rcases Nat.eq_zero_or_pos m with rfl | hm0
              · exact .left rfl (by simp only; omega) (by simp only; omega) hpos
              · exact .right rfl (by simp only; omega) hm0 (.inl rfl)
            refine ih (T := T.kid m) (R := T.post (tr.view α) m ++ R) ?_ hx' (g.kid_pos hm)
              ⟨c, hkid, hck⟩ h
            rw [hit₂.2]
            exact .kid t hm B

/-! ## Setting a descending iterator -/

/-- What `setIter` makes of a new iterator: it is behind the last key, or goes back from the key. -/
inductive SeeksBack (K : RangeKeys α κ) (tr : Trans) (b : Bt α) (T₀ : Sub α (D + 1)) (far : κ)
    (scan : Bool) (L : List (α × Nat)) : Stream α × BtSIter α κ → Prop
  | off (si : BtSIter α κ) (nil : L = []) (empty : si.empty = true) (missed : si.missed = false) :
      SeeksBack K tr b T₀ far scan L (none, si)
  | at (e : α) (x : Nat) (i : Int) (nd : BtN α) (si : BtSIter α κ) (heap : b.heap x = some nd)
      (dr : nd.dr i.toNat = 0) (ghost : RowStream.isGhost e = false) (going : GoingBack tr T₀ si L)
      (hh : si.high = far) (hs : si.scan = scan) :
      SeeksBack K tr b T₀ far scan L (some (e, x, i), si)

/-- The key that the walk ends at: the one that is looked for, or the one behind it when the walk
ends in front of a leaf. -/
theorem Searched.ended (S : Searched K tr b T₀) {f : BtLlN} {up : List BtLlN} {c : α × Nat}
    {A : List (α × Nat)} (h : Stand (tr.view α) T₀ f up (c :: A)) {k : α} {nd : BtN α}
    (hnd : b.heap f.self = some nd) (hik : nd.n ≠ 0 → f.ik = max (findkindex b nd k).1 0) :
    ((findkindex b nd k).2 = 0 → K.key c.1 = K.key k) ∧
      ((findkindex b nd k).1 < 0 ↔ K.key k < K.key c.1) := by
  have hT := S.scanned
  have hkey := hT.setting.keyed
  obtain ⟨d, T, R, j, H⟩ := h
  have g := H.trail.good hT.good
  have hord : Ordered (fun c : α × Nat => K.key c.1) (T.flat (tr.view α)) :=
    (List.pairwise_append.1 (hT.ordered H.trail)).1.imp fun h => h.le
  obtain ⟨m, hm, F⟩ := g.found hT.setting.cmp hT.setting.log hT.setting.t hkey hord k
  have hread := H.read
  rw [T.post_at H.lt, List.cons_append] at hread
  obtain ⟨rfl, -⟩ := List.cons.inj hread
  have htop : nd = T.top := Option.some.inj (hnd.symm.trans (H.self ▸ hT.heap H.trail))
  subst htop
  have hlt := H.lt
  have hsz := T.size_top
  have hi := F.slot
  have hj := H.ik
  replace hik := hik (by omega)
  have hentry : K.key ((tr.view α).entry T.top j).1 = K.key (T.top.keys j) := hkey.entry ..
  rw [hentry]
  refine ⟨fun h0 => ?_, fun hneg => ?_, fun hbeh => ?_⟩
  · obtain ⟨hm0, he⟩ := F.hit.1 h0
    rwa [show j = m - 1 by omega]
  · exact F.above j (by omega) (by omega)
  · by_contra hpos
    exact absurd (F.below j (by omega)) (not_le.2 hbeh)

variable [DecidableEq κ] {far high : κ} {bkey : α} {scan : Bool}

theorem Searched.setIterBack {s : Bool} {f : κ} (S : Searched K tr b T₀) (hn : b.numkeys ≠ 0) (hb : K.key bkey = high)
    (q : κ) : ∃ r, AlchemyDB.setIter K b bkey (createIterator b f s) q false = some r ∧
      SeeksBack K tr b T₀ f s
        (backFrom K (endsInFront b bkey b.next b.root) high (T₀.flat (tr.view α))) r := by
  subst hb
  have hT := S.scanned
  have hpos := S.root_pos hn
  obtain ⟨ret, it, hrun, hroom, hcap, hfin, H⟩ := hT.initLoop (k := bkey) (q := K.num q)
    (T := T₀) (R := []) (L := []) (i := initIter b) (o := true) hT.whole.depth
    .root hT.whole.root hpos rfl rfl (by simp) (by simp) (by simp) fun _ => rfl
  have hinit : btInitIterator K b bkey (createIterator b f s).x q = some (ret, it) := by
    simp only [btInitIterator, checkMinMiss, S.left, if_true, Option.bind_eq_bind, Option.bind_some]
    exact hrun
  -- the iterator stands at an entry `c`, with `B` in front of it
  have hstand {c : α × Nat} {A : List (α × Nat)} (h : Stand (tr.view α) T₀ it.bln it.up (c :: A)) :
      ∃ B nd, T₀.flat (tr.view α) = B.reverse ++ c :: A ∧ Back (tr.view α) T₀ it (c :: B) ∧
        b.heap it.bln.self = some nd ∧ b.slot nd it.bln.ik = some c.1 ∧ nd.dr it.bln.ik.toNat = 0 ∧
        K.null c.1 = false ∧ RowStream.isGhost c.1 = false := by
    obtain ⟨l, hl⟩ := h.suffix
    have A' : Back (tr.view α) T₀ it (c :: l.reverse) :=
      ⟨hroom, hcap, .inl ⟨hfin, c, l.reverse, A, rfl, by rw [List.reverse_reverse]; exact hl, h⟩⟩
    obtain ⟨nd, i, hi, it', hheap, hik, hentry, hslot, -⟩ := hT.stepBack A'
    obtain ⟨h0, hsound⟩ := S.entry (c := c) (by rw [hl]; simp)
    subst hentry
    refine ⟨l.reverse, nd, by rw [List.reverse_reverse]; exact hl, A', hheap, by rw [hik]; exact hslot, ?_,
      hsound.null, hsound.ghost⟩
    rw [hik]
    exact h0
  obtain ⟨nd₀, hheap₀, hik₀, hok, hfront⟩ := initLoop_end hrun
  have hfront : ret = .leafExit ∨ ret = .onlyRight → endsInFront b bkey b.next b.root =
      decide ((findkindex b nd₀ bkey).1 < 0) := hfront
  have horder := S.scanned.order
  rcases H with ⟨rfl, h⟩ | ⟨hret, x, L', h, hcase⟩
  · -- the key is there
    obtain ⟨c, A, hA⟩ : ∃ c A, onwards K (K.key bkey) (T₀.flat (tr.view α)) = c :: A := by
      obtain ⟨d, T, R, j, h⟩ := h
      exact List.exists_cons_of_ne_nil h.ne_nil
    rw [hA] at h
    obtain ⟨B, nd, hB, A', hheap, hslot, hdr, hnull, hg⟩ := hstand h
    have hkey := (S.ended h hheap₀ hik₀).1 (hok rfl)
    have hback : backFrom K (endsInFront b bkey b.next b.root) (K.key bkey) (T₀.flat (tr.view α)) =
        c :: B := by
      simp only [backFrom, hA, hkey, true_or, if_true, below_of_onwards hB hA]
    rw [hback]
    refine ⟨_, ?_, .at c.1 it.bln.self it.bln.ik nd
      { createIterator b f s with x := it, empty := false } hheap hdr hg ⟨A', rfl, rfl, rfl⟩
      rfl rfl⟩
    simp only [AlchemyDB.setIter, hinit, Option.bind_eq_bind, Option.bind_some, hheap, hslot,
      RangeKeys.stream, hnull, Bool.false_eq_true, if_false]
  · obtain ⟨B, nd, hB, A', hheap, hslot, hdr, hnull, hg⟩ := hstand h
    have hside := (S.ended h hheap₀ hik₀).2
    have hfr := hfront hret
    rcases hcase with ⟨hlt, rfl, hL⟩ | ⟨hlt, hL, hright⟩
    · -- it would stand before this key
      have hback : backFrom K (endsInFront b bkey b.next b.root) (K.key bkey) (T₀.flat (tr.view α)) =
          x :: B := by
        have hf : endsInFront b bkey b.next b.root = true := by
          rw [hfr]
          exact decide_eq_true (hside.2 hlt)
        simp only [backFrom, hL, hf, or_true, if_true, below_of_onwards hB hL]
      have hcmp : ¬ b.cmp bkey x.1 > 0 := by
        rw [hT.setting.cmp.gt]
        exact not_lt.2 hlt.le
      rw [hback]
      refine ⟨_, ?_, .at x.1 it.bln.self it.bln.ik nd
        { createIterator b f s with x := it, empty := false } hheap hdr hg ⟨A', rfl, rfl, rfl⟩
        rfl rfl⟩
      simp only [AlchemyDB.setIter, hinit, Option.bind_eq_bind, Option.bind_some, hheap, hslot,
        if_neg hcmp, RangeKeys.stream, hnull, Bool.false_eq_true, if_false]
    · have hcmp : b.cmp bkey x.1 > 0 := (hT.setting.cmp.gt _ _).2 hlt
      have hf : endsInFront b bkey b.next b.root = false := by
        rw [hfr]
        exact decide_eq_false fun h => absurd (hside.1 h) hlt.not_gt
      have hbelow : below K (K.key bkey) (T₀.flat (tr.view α)) = x :: B :=
        below_of_onwards (A := L') (by rw [hB]; simp) hL
      rcases hret with rfl | rfl
      · -- it stands behind this key, which is skipped
        have hne : ∃ c A, L' = c :: A := by
          cases hA : L' with
          | cons c A => exact ⟨c, A, rfl⟩
          | nil =>
              rw [hA, onwards, List.dropWhile_eq_nil_iff] at hL
              have := hT.initLoop_right .root hT.whole.root hpos (fun c hc => by
                rw [List.append_nil] at hc
                simpa using hL c hc) hrun
              cases this
        obtain ⟨c, A, rfl⟩ := hne
        have hck : K.key c.1 ≠ K.key bkey := fun h => by
          have := hT.initLoop_hit .root hT.whole.root hpos ⟨c, by rw [hB]; simp, h⟩ hrun
          cases this
        have hback : backFrom K (endsInFront b bkey b.next b.root) (K.key bkey)
            (T₀.flat (tr.view α)) = B := by
          simp only [backFrom, hL, hf, hck, Bool.false_eq_true, or_self, if_false, hbelow, List.tail_cons]
        have G : GoingBack tr T₀ { createIterator b f s with x := it, empty := false } (x :: B) :=
          ⟨A', rfl, rfl, rfl⟩
        obtain ⟨nd', si', hheap', hdr', hnext, G', hh, hs⟩ := G.next S
        rw [hback]
        refine ⟨_, ?_, .at x.1 it.bln.self it.bln.ik nd si' hheap hdr hg G' hh hs⟩
        simp only [AlchemyDB.setIter, hinit, Option.bind_eq_bind, Option.bind_some, hheap, hslot,
          if_pos hcmp, reduceCtorEq, if_false]
        exact hnext
      · -- there is no key behind it
        have hback : backFrom K (endsInFront b bkey b.next b.root) (K.key bkey)
            (T₀.flat (tr.view α)) = [] := by
          simp only [backFrom, hright rfl]
        rw [hback]
        refine ⟨_, ?_, .off { createIterator b f s with x := it, empty := true } rfl rfl rfl⟩
        simp only [AlchemyDB.setIter, hinit, Option.bind_eq_bind, Option.bind_some, hheap, hslot,
          if_pos hcmp, if_true]

/-! ## `btGetRangeIter`, descending -/

variable {low : κ}

/-- A descending range gives what is read from the high key back, until the low key ends it. -/
theorem Searched.rangeBack (S : Searched K tr b T₀) (hb : K.bkey high = some bkey)
    (hk : K.key bkey = high) : ∃ g, btGetRangeIter K b low high false = some g ∧
      Delivers K b false (takes K false low
        (backFrom K (endsInFront b bkey b.next b.root) high (T₀.flat (tr.view α)))) g := by
  by_cases hn : b.numkeys = 0
  · refine ⟨.null, by simp [btGetRangeIter, hn], ?_⟩
    rw [S.cells_nil hn]
    rfl
  obtain ⟨r, hrun, hr⟩ := S.setIterBack (f := low) (s := false) hn hk high
  cases hr with
  | off si hnil he _ =>
      refine ⟨.leaked, by simp [btGetRangeIter, hn, hb, hrun], ?_⟩
      rw [hnil]
      rfl
  | «at» e x i nd si hheap hdr hg G hh _ =>
      refine ⟨.iter { si with be := some (e, nd.dr i.toNat) }, ?_, ?_⟩
      · simp [btGetRangeIter, hn, hb, hrun, streamToBTEntry_run _ hheap hg]
      · have G' : GoingBack tr T₀ { si with be := some (e, nd.dr i.toNat) } _ :=
          ⟨G.back, G.empty, G.missed, G.nim⟩
        rw [← hh]
        exact G'.yields S

end AlchemyDB
