/-
# `AlchemyDB.BTree.FullOffset` — the whole tree with an OFFSET

`btScionFind` knows that an OFFSET is too large only by what its last loop counts.  In the
root it takes the children off first, so that an OFFSET of as many keys as the tree has
ends behind the last child, and a slightly larger one leaves a rest that is looked for in
the root again.

What no one should read are the slots behind the keys of a node.  Two states of a tree that
differ there only are the same to a scan that does not read them.
-/
import AlchemyDB.BTree.BackFull
import AlchemyDB.BTree.Offset

namespace AlchemyDB

open Store Weave

variable {α κ : Type}

/-! ## The slots behind the keys -/

/-- The node has other things behind its keys. -/
def BtN.SameKeys (nd nd' : BtN α) : Prop :=
  nd' = { nd with keys := nd'.keys } ∧ ∀ i < nd.n, nd'.keys i = nd.keys i

/-- Two states of a tree that differ at most in the slots behind the keys of the nodes. -/
structure SameKeys (b b' : Bt α) : Prop where
  rest : b' = { b with heap := b'.heap }
  gone : ∀ x, b.heap x = none → b'.heap x = none
  node : ∀ x nd, b.heap x = some nd → ∃ nd', b'.heap x = some nd' ∧ nd.SameKeys nd'

/-- The subtree as another heap has it. -/
def Sub.reread (h : Nat → Option (BtN α)) : {d : Nat} → Sub α d → Sub α d
  | _, .nil => .nil
  | _, .node a nd kid => .node a ((h a).getD nd) fun j => (kid j).reread h

section Reread

variable {t : Nat} {l : 2 ≤ t} {b b' : Bt α}

theorem Sub.reread_addr (h : Nat → Option (BtN α)) : ∀ {d : Nat} (T : Sub α d),
    (T.reread h).addr = T.addr
  | _, .nil => rfl
  | _, .node _ _ _ => rfl

/-- What the other heap has for the node of a subtree. -/
theorem SameKeys.top (H : SameKeys b b') {d : Nat} {a : Nat} {nd : BtN α} {kid : Nat → Sub α d}
    (g : Good (cleanView α t l) b.heap (Sub.node a nd kid)) :
    ∃ ks, b'.heap a = some { nd with keys := ks } ∧ (∀ i < nd.n, ks i = nd.keys i) ∧
      (Sub.node a nd kid).reread b'.heap =
        .node a { nd with keys := ks } fun j => (kid j).reread b'.heap := by
  obtain ⟨nd', hnd', he, hk⟩ := H.node a nd g.node.live
  refine ⟨nd'.keys, by rw [hnd', ← he], hk, ?_⟩
  rw [Sub.reread, hnd', Option.getD_some, ← he]

theorem SameKeys.size (H : SameKeys b b') : ∀ {d : Nat} {T : Sub α d},
    Good (cleanView α t l) b.heap T → (T.reread b'.heap).size = T.size
  | _, .nil, _ => rfl
  | _, .node a nd kid, g => by
      obtain ⟨ks, -, -, he⟩ := H.top g
      rw [he]
      rfl

theorem SameKeys.flat (H : SameKeys b b') : ∀ {d : Nat} {T : Sub α d},
    Good (cleanView α t l) b.heap T →
      (T.reread b'.heap).flat (cleanView α t l) = T.flat (cleanView α t l)
  | _, .nil, _ => rfl
  | _, .node a nd kid, g => by
      obtain ⟨ks, -, hk, he⟩ := H.top g
      rw [he, Sub.flat_node, Sub.flat_node]
      refine weave_congr (fun j hj => ?_) fun j hj => H.flat (g.kids j hj)
      show (ks j, nd.dr j) = (nd.keys j, nd.dr j)
      rw [hk j hj]

theorem SameKeys.addrs (H : SameKeys b b') : ∀ {d : Nat} {T : Sub α d},
    Good (cleanView α t l) b.heap T → (T.reread b'.heap).addrs = T.addrs
  | _, .nil, _ => rfl
  | _, .node a nd kid, g => by
      obtain ⟨ks, -, -, he⟩ := H.top g
      ext x
      rw [he, Sub.mem_addrs_node, Sub.mem_addrs_node]
      refine or_congr Iff.rfl (exists_congr fun j => and_congr_right fun hj => ?_)
      rw [H.addrs (g.kids j hj)]

theorem SameKeys.good (H : SameKeys b b') : ∀ {d : Nat} {T : Sub α d},
    Good (cleanView α t l) b.heap T → Good (cleanView α t l) b'.heap (T.reread b'.heap)
  | _, .nil, _ => trivial
  | _, .node a nd kid, g => by
      have hw : ((Sub.node a nd kid).reread b'.heap).weight (cleanView α t l) =
          (Sub.node a nd kid).weight (cleanView α t l) := by
        rw [Sub.weight, Sub.weight, H.flat g]
      obtain ⟨ks, hheap, hk, he⟩ := H.top g
      rw [he] at hw ⊢
      have N := g.node
      refine ⟨⟨hheap, N.leaf, fun hd j hj => ?_, N.fill, fun hd j hj => ?_, N.disc, fun j hj => trivial,
        fun hc => (N.sci hc).trans hw.symm, fun j hj => ?_, fun i hi j hj hij => ?_⟩,
        fun j hj => H.good (g.kids j hj)⟩
      · rw [Sub.reread_addr]
        exact N.link hd j hj
      · rw [H.size (g.kids j hj)]
        exact N.low hd j hj
      · rw [H.addrs (g.kids j hj)]
        exact N.apart j hj
      · rw [H.addrs (g.kids i hi), H.addrs (g.kids j hj)]
        exact N.disj i hi j hj hij

end Reread

section Searched

variable [LinearOrder κ] [RowStream α] {K : RangeKeys α κ} {tr : Trans} {b b' : Bt α} {D : Nat}
  {T₀ : Sub α (D + 1)}

theorem SameKeys.searched (H : SameKeys b b') (S : Searched K tr b T₀) :
    Searched K tr b' (T₀.reread b'.heap) := by
  have C := S.clean
  have g := C.whole.good
  have hkeys : (T₀.reread b'.heap).keys = T₀.keys := by
    rw [keys_of_flat , keys_of_flat (r := tr), H.flat g]
  have hrest := H.rest
  refine ⟨⟨⟨H.good g, ?_, fun x hx => ?_, fun x hx => ?_, fun hd => ?_⟩, ?_, ?_, ?_, ?_⟩, ?_, ?_, ?_,
    ?_, S.depth⟩
  · rw [hrest, Sub.reread_addr]
    exact C.whole.root
  · rw [hrest]
    exact C.whole.bound x fun h => hx (H.gone x h)
  · rw [H.addrs g]
    exact C.whole.kept x fun h => hx (H.gone x h)
  · rw [H.size g]
    exact C.whole.inner hd
  · rw [hrest]
    exact C.cmp
  · rw [hrest]
    exact C.log
  · rw [hrest]
    exact C.t
  · rw [hkeys]
    exact C.order
  · rw [hkeys]
    exact S.strict
  · rw [hkeys, hrest]
    exact S.count
  · rw [hkeys]
    exact S.sound
  · rw [hrest]
    exact S.left

/-! ## An OFFSET of all the keys, or more -/

variable {d : Nat} {up : List BtLlN} {R : List (α × Nat)}

/-- Where the children of the root have been counted off. -/
def pastChildren (asc : Bool) (T : Sub α (d + 1 + 1)) (it : BtIterator) (rest : Nat) : ScionAt :=
  if rest = 0 then
    .here (if asc then { it with bln := aboveKid T T.size } else it.at (-1) (-1))
  else .fell (rest - 1)

omit [RowStream α] in
theorem Scanned.scionLoop_up (S : Scanned (tr.view α) K.key (fun c => K.key c.1) b T₀)
    {T : Sub α (d + 1 + 1)} {it : BtIterator} (t : Trail (tr.view α) T₀ T it.up R)
    (hs : it.bln.self = T.addr) (h0 : 0 < T.size) (hroom : it.up.length + 1 = it.numNodes) :
    ∀ {m j o r : Nat}, j + m = T.size →
      o = ((T.kid j).flat (tr.view α) ++ T.post (tr.view α) j).length + r →
      scionLoop b true T.top it (m + 1) j o = some (pastChildren true T it r)
  | 0, j, o, r, hj, ho => by
      obtain rfl : j = T.size := by omega
      rw [T.post_size, List.append_nil] at ho
      rw [S.scionLoop_step t hs h0 hroom le_rfl, if_neg (by omega)]
      by_cases hr : r = 0
      · rw [if_pos (by omega), pastChildren, if_pos hr]
        rfl
      · rw [if_neg (by omega), pastChildren, if_neg hr, scionLoop]
        congr 2
        omega
  | m + 1, j, o, r, hj, ho => by
      rw [T.post_at (show j < T.size by omega)] at ho
      simp only [List.length_append, List.length_cons] at ho
      have ih := S.scionLoop_up t hs h0 hroom (m := m) (j := j + 1)
        (o := o - (((T.kid j).flat (tr.view α)).length + 1)) (r := r) (by omega)
        (by simp only [List.length_append]; omega)
      rw [S.scionLoop_step t hs h0 hroom (by omega), if_neg (by omega), if_neg (by omega), ← ih]
      simp

omit [RowStream α] in
theorem Scanned.scionLoop_down (S : Scanned (tr.view α) K.key (fun c => K.key c.1) b T₀)
    {T : Sub α (d + 1 + 1)} {it : BtIterator} (t : Trail (tr.view α) T₀ T it.up R)
    (hs : it.bln.self = T.addr) (h0 : 0 < T.size) (hroom : it.up.length + 1 = it.numNodes) :
    ∀ {j o r : Nat}, j ≤ T.size →
      o = (T.pre (tr.view α) j ++ (T.kid j).flat (tr.view α)).length + r →
      scionLoop b false T.top it (j + 1) j o = some (pastChildren false T it r)
  | 0, o, r, hj, ho => by
      rw [T.pre_zero, List.nil_append] at ho
      rw [S.scionLoop_step t hs h0 hroom hj, if_neg (by omega)]
      by_cases hr : r = 0
      · rw [if_pos (by omega), pastChildren, if_pos hr]
        rfl
      · rw [if_neg (by omega), pastChildren, if_neg hr, scionLoop]
        congr 2
        omega
  | j + 1, o, r, hj, ho => by
      rw [T.pre_succ] at ho
      simp only [List.length_append, List.length_cons, List.length_nil] at ho
      have ih := S.scionLoop_down t hs h0 hroom (j := j)
        (o := o - (((T.kid (j + 1)).flat (tr.view α)).length + 1)) (r := r) (by omega)
        (by simp only [List.length_append]; omega)
      rw [S.scionLoop_step t hs h0 hroom hj, if_neg (by omega), if_neg (by omega), ← ih]
      simp

/-- How far an OFFSET behind the last key is taken for one in the root. -/
def pastRoot (b : Bt α) : Nat :=
  match b.heap b.root with
  | none => 0
  | some nd => if nd.leaf then 0 else nd.n + 1

theorem Searched.pastRoot_eq (S : Searched K tr b T₀) :
    pastRoot b = if T₀.top.leaf then 0 else T₀.size + 1 := by
  have hroot : b.root = T₀.addr := S.scanned.whole.root
  rw [pastRoot, hroot, S.scanned.heap .root, T₀.size_top]

/-- The iterator of `btScionFind` at a key behind the children of the root. -/
def behindLast (asc : Bool) (T : Sub α (d + 1)) (it : BtIterator) : BtIterator :=
  if asc then { it with bln := aboveKid T T.size } else it.at (-1) (-1)

/-- `btScionFind` with an OFFSET of all the keys, or more. -/
theorem Searched.scionFind_past (S : Searched K tr b T₀) {asc : Bool} {far : κ} {rest : Nat}
    (hpos : 0 < T₀.size) :
    btScionFind K b asc b.next b.root ((T₀.flat (tr.view α)).length + rest)
        (createIterator b far false) =
      if T₀.top.leaf = false ∧ rest = 0 then
        some (true, { createIterator b far false with x := behindLast asc T₀ (initIter b) })
      else AlchemyDB.slotFind K b asc T₀.addr
        (if T₀.top.leaf then T₀.size + rest else rest - 1) (createIterator b far false) := by
  have hT := S.scanned
  have hroot : b.root = T₀.addr := hT.whole.root
  have hheap := hT.heap .root
  have hnext := hT.whole.depth
  obtain ⟨fuel, hf⟩ : ∃ fuel, b.next = fuel + 1 := ⟨b.next - 1, by omega⟩
  rw [hf, hroot]
  cases D with
  | zero =>
      have hleaf : T₀.top.leaf = true := hT.good.top_leaf.2 rfl
      have hlen : (T₀.flat (tr.view α)).length = T₀.size := by
        rw [T₀.flat_first, T₀.kid_leaf, List.nil_append, leaf_post (Nat.zero_add _)]
        simp
      simp only [btScionFind, hheap, Option.bind_eq_bind, Option.bind_some, hleaf, if_true, hlen,
        Bool.true_eq_false, false_and, if_false]
  | succ D =>
      have hleaf : T₀.top.leaf = false := by
        cases h : T₀.top.leaf with
        | false => rfl
        | true => exact absurd (hT.good.top_leaf.1 h) (by omega)
      have hloop : AlchemyDB.scionLoop b asc T₀.top (initIter b) (T₀.top.n + 1)
          (if asc then 0 else (T₀.top.n : Int)) ((T₀.flat (tr.view α)).length + rest) =
            some (pastChildren asc T₀ (initIter b) rest) := by
        rw [← T₀.size_top]
        cases asc with
        | true =>
            refine hT.scionLoop_up (m := T₀.size) (j := 0) .root hroot hpos rfl (by omega) ?_
            rw [T₀.flat_first]
        | false =>
            refine hT.scionLoop_down (j := T₀.size) .root hroot hpos rfl le_rfl ?_
            rw [T₀.flat_focus _ le_rfl, T₀.post_size, List.append_nil]
      simp only [btScionFind, hheap, Option.bind_eq_bind, Option.bind_some, hleaf, Bool.false_eq_true,
        if_false, true_and]
      rw [show (createIterator b far false : BtSIter α κ).x = initIter b from rfl, hloop]
      by_cases hr : rest = 0
      · simp only [Option.bind_some, pastChildren, if_pos hr]
        rfl
      · simp only [Option.bind_some, pastChildren, if_neg hr]

omit [LinearOrder κ] in
/-- What `btNext` returns is the key of the slot. -/
theorem btNext_at {p : Pace} {asc : Bool} {si si' : BtSIter α κ} {nd : BtN α} {e : α} {st : Stream α}
    (hfin : si.x.finished = false) (hheap : b.heap si.x.bln.self = some nd)
    (hslot : b.slot nd si.x.bln.ik = some e) (hclean : nd.dr si.x.bln.ik.toNat = 0)
    (hnull : K.null e = false) (h : btNext K b p asc si = some (st, si')) :
    st = some (e, si.x.bln.self, si.x.bln.ik) ∧ si'.nim = false ∧ si'.high = si.high := by
  simp only [btNext, hfin, Bool.false_eq_true, if_false, hheap, Option.bind_eq_bind, Option.bind_some,
    hslot, RangeKeys.stream, hnull, hclean, ne_eq, not_true_eq_false, decide_false] at h
  split at h
  all_goals
    obtain ⟨x, -, h⟩ := Option.bind_eq_some_iff.1 h
    cases h
    refine ⟨rfl, rfl, ?_⟩
    cases asc <;> rfl

/-- An iterator at a slot of the root that is none, or that holds an entry of the range, gives
something or fails. -/
theorem Searched.strays (S : Searched K tr b T₀) {asc : Bool} {si : BtSIter α κ}
    (he : si.empty = false) (hfin : si.x.finished = false) (hself : si.x.bln.self = T₀.addr)
    (hslot : ∀ e, b.slot T₀.top si.x.bln.ik = some e →
      Sound K e ∧ K.isOver asc (K.key e) 0 si.high = false) : ¬ Yields K b asc si [] := by
  rintro ⟨si', hrun, -⟩
  have hheap : b.heap si.x.bln.self = some T₀.top := by rw [hself]; exact S.scanned.heap .root
  have hclean : T₀.top.dr si.x.bln.ik.toNat = 0 := BtN.dr_clean S.clean.whole.good.top_disc _
  simp only [btRangeNext, he, Bool.false_eq_true, if_false] at hrun
  obtain ⟨⟨st, si₁⟩, hnext, hrun⟩ := Option.bind_eq_some_iff.1 hrun
  cases hs : b.slot T₀.top si.x.bln.ik with
  | none => simp [btNext, hfin, hheap, hs] at hnext
  | some e =>
      obtain ⟨hsound, hover⟩ := hslot e hs
      obtain ⟨rfl, hnim, hhigh⟩ := btNext_at hfin hheap hs hclean hsound.null hnext
      simp only [rangeTest_run _ asc hheap hsound.ghost hclean hnim, hhigh, hover, Bool.false_eq_true,
        if_false] at hrun
      cases hrun

/-- The slots of the root that an OFFSET behind the last key leads to. -/
def Enticing (K : RangeKeys α κ) (b : Bt α) (asc : Bool) (far : κ) (T : Sub α (D + 1)) : Prop :=
  ∀ (i : Int) (e : α), -1 ≤ i → i ≤ T.size → b.slot T.top i = some e →
    Sound K e ∧ K.isOver asc (K.key e) 0 far = false

/-- An OFFSET behind the last key, but not far behind, is taken for one in the root. -/
theorem Searched.past_strays (S : Searched K tr b T₀) [DecidableEq κ] {a : Bool} {lo hi : κ} {o : Nat}
    (hpos : 0 < T₀.size) (hn : b.numkeys ≠ 0) (hedge : edgeKeys K b = some (some (lo, hi)))
    (hent : Enticing K b a (if a then hi else lo) T₀)
    (hge : (T₀.flat (tr.view α)).length ≤ o)
    (hle : o ≤ (T₀.flat (tr.view α)).length + pastRoot b) :
    ¬ Scans K b a (btGetFullXthIter K b o a) [] := by
  obtain ⟨rest, rfl⟩ : ∃ rest, o = (T₀.flat (tr.view α)).length + rest := ⟨_, (Nat.add_sub_of_le hge).symm⟩
  have hrest : rest ≤ pastRoot b := by omega
  rw [S.pastRoot_eq] at hrest
  have hroot : b.root = T₀.addr := S.scanned.whole.root
  have hsz := T₀.size_top
  rintro ⟨g, hrun, hg⟩
  simp only [btGetFullXthIter, if_neg hn, hedge, Option.bind_eq_bind, Option.bind_some,
    S.scionFind_past hpos] at hrun
  split at hrun
  · -- behind the children
    obtain rfl := Option.some.inj hrun
    refine S.strays rfl ?_ ?_ (fun e he => ?_) hg
    · cases a <;> rfl
    · cases a
      · exact hroot
      · rfl
    · refine hent _ e ?_ ?_ he
      all_goals cases a <;> simp only [behindLast, aboveKid, BtIterator.at, hsz, if_true,
        Bool.false_eq_true, if_false] <;> omega
  · next hno =>
    set rest' := if T₀.top.leaf then T₀.size + rest else rest - 1 with hr'
    have hle' : rest' ≤ T₀.size := by
      rw [hr']
      cases hl : T₀.top.leaf <;> rw [hl] at hrest <;> simp at hrest ⊢ <;> omega
    rw [S.slotFind_run .root hpos, if_neg (by omega), goSlot] at hrun
    have hi1 : -1 ≤ slotAfter a T₀.size rest' := by
      cases a <;> simp [slotAfter]; omega
    have hi2 : slotAfter a T₀.size rest' ≤ T₀.size := by
      cases a <;> simp [slotAfter] <;> omega
    cases hs : b.slot T₀.top (slotAfter a T₀.size rest') with
    | none => simp [hs] at hrun
    | some e =>
        have hsound := (hent _ e hi1 hi2 hs).1
        simp only [hs, Option.bind_some, hsound.null, Bool.false_eq_true, if_false,
          streamToBTEntry_run _ (S.scanned.heap .root) hsound.ghost, Option.map_some, if_true] at hrun
        obtain rfl := Option.some.inj hrun
        exact S.strays rfl rfl hroot (fun e' he' => hent _ e' hi1 hi2 he') hg

/-- An OFFSET far behind the last key is known to be too large. -/
theorem Searched.past_ends (S : Searched K tr b T₀) [DecidableEq κ] {a : Bool} {o : Nat}
    (hlt : (T₀.flat (tr.view α)).length + pastRoot b < o) :
    Scans K b a (btGetFullXthIter K b o a) [] := by
  by_cases hn : b.numkeys = 0
  · exact ⟨.null, by simp [btGetFullXthIter, hn], rfl⟩
  obtain ⟨c, l, c', -, -, hedge⟩ := S.edges hn
  obtain ⟨rest, rfl⟩ : ∃ rest, o = (T₀.flat (tr.view α)).length + rest :=
    ⟨_, (Nat.add_sub_of_le (by omega)).symm⟩
  have hrest : pastRoot b < rest := by omega
  rw [S.pastRoot_eq] at hrest
  have hpos := S.root_pos hn
  have hfalse : T₀.size < (if T₀.top.leaf then T₀.size + rest else rest - 1) := by
    cases hl : T₀.top.leaf <;> rw [hl] at hrest <;> simp at hrest ⊢ <;> omega
  have h0 : ¬ (T₀.top.leaf = false ∧ rest = 0) := fun h => by omega
  refine ⟨.iter (createIterator b (if a then K.key c'.1 else K.key c.1) false), ?_, ?_⟩
  · simp only [btGetFullXthIter, if_neg hn, hedge, Option.bind_eq_bind, Option.bind_some,
      S.scionFind_past hpos, if_neg h0, S.slotFind_run .root hpos, if_pos hfalse, Bool.false_eq_true,
      if_false]
  · exact ⟨createIterator b (if a then K.key c'.1 else K.key c.1) false,
      by simp [btRangeNext, createIterator], rfl⟩

/-! ## The scan of the whole tree, and the scan with an OFFSET -/

/-- No key up to a bound is beyond it. -/
structure Bounded (K : RangeKeys α κ) : Prop where
  up : ∀ k h, K.isOver true k 0 h = true → h < k
  down : ∀ k h, K.isOver false k 0 h = true → k < h

omit [RowStream α] in
theorem NumberKeys.bounded (N : NumberKeys K) : Bounded K :=
  ⟨fun k h => (N.up k h).1, fun k h => (N.down k h).1⟩

/-- Every key of the tree lies between the first and the last. -/
theorem Searched.between (S : Searched K tr b T₀) {c c' x : α × Nat} {l : List (α × Nat)}
    (hc : T₀.flat (tr.view α) = c :: l) (hlast : (T₀.flat (tr.view α)).getLast? = some c')
    (hx : x ∈ T₀.flat (tr.view α)) : K.key c.1 ≤ K.key x.1 ∧ K.key x.1 ≤ K.key c'.1 := by
  have horder := S.scanned.order
  obtain ⟨l', hl'⟩ := List.getLast?_eq_some_iff.1 hlast
  constructor
  · rw [hc] at hx horder
    rcases List.mem_cons.1 hx with rfl | hx
    · exact le_rfl
    · exact (List.rel_of_pairwise_cons horder hx).le
  · rw [hl'] at hx horder
    rcases List.mem_append.1 hx with hx | hx
    · exact ((List.pairwise_append.1 horder).2.2 x hx c' (List.mem_singleton_self _)).le
    · rw [List.mem_singleton.1 hx]

/-- The entries of a scan of the whole tree, in its direction. -/
def inDirection (asc : Bool) (l : List (α × Nat)) : List (α × Nat) := if asc then l else l.reverse

/-- The entry that a scan of the whole tree ends at. -/
def farEnd (asc : Bool) (l : List (α × Nat)) : Option (α × Nat) := if asc then l.getLast? else l.head?

theorem Searched.fullScan (S : Searched K tr b T₀) [DecidableEq κ] {asc : Bool} {c : α × Nat}
    (hfar : farEnd asc (T₀.flat (tr.view α)) = some c) :
    Scans K b asc (btGetFullRangeIter K b asc)
      (takes K asc (K.key c.1) (inDirection asc (T₀.flat (tr.view α)))) := by
  cases asc with
  | true =>
      have h := S.fullRange
      have hc : (T₀.flat (tr.view α)).getLast? = some c := hfar
      rw [fullOf, hc] at h
      simp only [inDirection, if_true, takes_true]
      exact h
  | false =>
      obtain ⟨l, hl⟩ := List.head?_eq_some_iff.1 hfar
      exact S.fullRangeBack hl

theorem Searched.fullXthScan (S : Searched K tr b T₀) [DecidableEq κ] {a : Bool} {c : α × Nat}
    {o : Nat} (hfar : farEnd a (T₀.flat (tr.view α)) = some c)
    (hlt : o < (T₀.flat (tr.view α)).length) :
    Scans K b a (btGetFullXthIter K b o a)
      (takes K a (K.key c.1) ((inDirection a (T₀.flat (tr.view α))).drop o)) := by
  cases a with
  | true =>
      obtain ⟨g, c', hc', hrun, hg⟩ := S.fullXth hlt
      have hc : (T₀.flat (tr.view α)).getLast? = some c := hfar
      obtain rfl := Option.some.inj (hc.symm.trans hc')
      simp only [inDirection, if_true, takes_true]
      exact ⟨g, hrun, hg⟩
  | false =>
      obtain ⟨l, hl⟩ := List.head?_eq_some_iff.1 hfar
      exact S.fullXthBack hl hlt

omit [LinearOrder κ] [RowStream α] in
theorem SameKeys.refl (b : Bt α) : SameKeys b b :=
  ⟨rfl, fun _ h => h, fun _ nd h => ⟨nd, h, rfl, fun _ _ => rfl⟩⟩

/-- The first key of the root stands once more behind its last one. -/
def echoed (b : Bt α) (T : Sub α (D + 1)) : Bt α :=
  let nd : BtN α := { T.top with keys := upd T.top.keys T.size (T.top.keys 0) }
  { b with heap := upd b.heap T.addr (some nd) }

omit [LinearOrder κ] [RowStream α] in
theorem echoed_top (hpos : 0 < T₀.size) : (T₀.reread (echoed b T₀).heap).top.keys T₀.size =
    (T₀.reread (echoed b T₀).heap).top.keys 0 := by
  obtain ⟨a, nd, kid, rfl⟩ := exists_node T₀
  have hne : (0 : Nat) ≠ nd.n := Nat.ne_of_lt hpos
  have htop : ((Sub.node a nd kid).reread (echoed b (.node a nd kid)).heap).top =
      { nd with keys := upd nd.keys nd.n (nd.keys 0) } := by
    show ((upd b.heap a (some { nd with keys := upd nd.keys nd.n (nd.keys 0) })) a).getD nd = _
    rw [upd_same]
    rfl
  rw [htop]
  show upd nd.keys nd.n (nd.keys 0) nd.n = upd nd.keys nd.n (nd.keys 0) 0
  rw [upd_same, upd_ne _ _ hne]

omit [LinearOrder κ] [RowStream α] in
theorem echoed_same (h : b.heap T₀.addr = some T₀.top) : SameKeys b (echoed b T₀) := by
  refine ⟨rfl, fun x hx => ?_, fun x nd hx => ?_⟩
  · have hne : x ≠ T₀.addr := fun he => by
      rw [he, h] at hx
      cases hx
    exact (upd_ne _ _ hne).trans hx
  · by_cases he : x = T₀.addr
    · subst he
      obtain rfl := Option.some.inj (h.symm.trans hx)
      refine ⟨_, upd_same _ _ _, rfl, fun i hi => upd_ne _ _ ?_⟩
      rw [T₀.size_top]
      exact hi.ne
    · exact ⟨nd, (upd_ne _ _ he).trans hx, rfl, fun _ _ => rfl⟩

/-- With the first key behind the last, every slot of the root entices. -/
theorem Searched.echoed_entices (S : Searched K tr b T₀) (B : Bounded K) {a : Bool} {c c' : α × Nat}
    {l : List (α × Nat)} (hc : T₀.flat (tr.view α) = c :: l)
    (hlast : (T₀.flat (tr.view α)).getLast? = some c') (hpos : 0 < T₀.size)
    (hecho : T₀.top.keys T₀.size = T₀.top.keys 0) :
    Enticing K b a (if a then K.key c'.1 else K.key c.1) T₀ := by
  intro i e h1 h2 hslot
  -- the entry is one of the tree
  have hmem : ∃ j < T₀.size, e = T₀.top.keys j := by
    rw [Bt.slot] at hslot
    split at hslot
    · next hi =>
        obtain rfl := Option.some.inj hslot
        obtain ⟨j, rfl⟩ : ∃ j : Nat, i = j := ⟨i.toNat, by omega⟩
        rw [Int.toNat_natCast]
        by_cases hj : j < T₀.size
        · exact ⟨j, hj, rfl⟩
        · exact ⟨0, hpos, by rw [show j = T₀.size by omega, hecho]⟩
    · cases hslot
  obtain ⟨j, hj, rfl⟩ := hmem
  have hflat : (T₀.top.keys j, T₀.top.dr j) ∈ T₀.flat (tr.view α) := T₀.entry_mem_flat hj
  obtain ⟨hlo, hhi⟩ := S.between hc hlast hflat
  refine ⟨(S.entry hflat).2, Bool.eq_false_iff.2 fun hover => ?_⟩
  cases a with
  | true => exact absurd (B.up _ _ hover) (not_lt.2 hhi)
  | false => exact absurd (B.down _ _ hover) (not_lt.2 hlo)

omit [LinearOrder κ] [RowStream α] in
theorem takes_length (asc : Bool) (far : κ) : ∀ l : List (α × Nat), (takes K asc far l).length ≤ l.length
  | [] => Nat.zero_le _
  | c :: l => by
      have := takes_length asc far l
      rw [takes]
      split
      · exact Nat.zero_le _
      · rw [List.length_cons, List.length_cons]
        split
        · exact Nat.succ_le_succ (Nat.zero_le _)
        · exact Nat.succ_le_succ this

/-- The OFFSETs of a scan of the whole tree that are kept: those that leave keys, as far as a range
is the same behind its first entries, and those that are known to be too large. -/
def OffsetKept (K : RangeKeys α κ) (b : Bt α) (asc : Bool) (ofst : Nat) (l : List (α × Nat)) : Prop :=
  l = [] ∨
    (ofst < l.length ∧ ∀ c, farEnd asc l = some c → Uncut K asc (K.key c.1) (inDirection asc l) ofst) ∨
      l.length + pastRoot b < ofst

/-- A scan with an OFFSET is the scan without its first entries, and reads no slot behind the keys:
whatever stands there, it gives the same. -/
def SkipsFirst (K : RangeKeys α κ) [DecidableEq κ] (b : Bt α) (asc : Bool) (ofst : Nat) : Prop :=
  ∃ l, Scans K b asc (btGetFullRangeIter K b asc) l ∧
    ∀ b', SameKeys b b' → Scans K b' asc (btGetFullXthIter K b' ofst asc) (l.drop ofst)

theorem Searched.skipsFirst_iff (S : Searched K tr b T₀) [DecidableEq κ] (B : Bounded K) (asc : Bool)
    (ofst : Nat) : SkipsFirst K b asc ofst ↔ OffsetKept K b asc ofst (T₀.flat (tr.view α)) := by
  have hT := S.scanned
  by_cases hnil : T₀.flat (tr.view α) = []
  · -- the tree is empty
    have hn : b.numkeys = 0 := by
      rw [S.count, keys_of_flat , hnil]
      rfl
    refine iff_of_true ⟨[], ⟨.null, by simp [btGetFullRangeIter, hn], rfl⟩, fun b' H => ?_⟩ (.inl hnil)
    have hn' : b'.numkeys = 0 := by
      rw [H.rest]
      exact hn
    rw [List.drop_nil]
    exact ⟨.null, by simp [btGetFullXthIter, hn'], rfl⟩
  obtain ⟨c, l, hc⟩ := List.exists_cons_of_ne_nil hnil
  obtain ⟨c', hlast⟩ : ∃ c', (T₀.flat (tr.view α)).getLast? = some c' :=
    Option.isSome_iff_exists.1 (by rw [hc]; simp)
  obtain ⟨f, hfar⟩ : ∃ f, farEnd asc (T₀.flat (tr.view α)) = some f := by
    cases asc with
    | true => exact ⟨c', hlast⟩
    | false => exact ⟨c, by rw [farEnd, hc]; rfl⟩
  have hfull := S.fullScan hfar
  have hlen : (takes K asc (K.key f.1) (inDirection asc (T₀.flat (tr.view α)))).length ≤
      (T₀.flat (tr.view α)).length := by
    refine (takes_length asc _ _).trans (le_of_eq ?_)
    cases asc <;> simp [inDirection]
  have hflat {b' : Bt α} (H : SameKeys b b') := H.flat S.clean.whole.good (l := tr.two_le)
  have hpast {b' : Bt α} (H : SameKeys b b') : pastRoot b' = pastRoot b := by
    have hsize := H.size S.clean.whole.good (l := tr.two_le)
    rw [(H.searched S).pastRoot_eq, S.pastRoot_eq, hsize]
    obtain ⟨a, nd, kid, rfl⟩ := exists_node T₀
    obtain ⟨ks, -, -, he⟩ := H.top S.clean.whole.good
    rw [he]
    rfl
  rcases Nat.lt_or_ge ofst (T₀.flat (tr.view α)).length with hlt | hge
  · -- keys are left
    have hkept : OffsetKept K b asc ofst (T₀.flat (tr.view α)) ↔
        Uncut K asc (K.key f.1) (inDirection asc (T₀.flat (tr.view α))) ofst := by
      constructor
      · rintro (h | ⟨-, h⟩ | h)
        · exact absurd h hnil
        · exact h f hfar
        · omega
      · exact fun h => .inr (.inl ⟨hlt, fun x hx => by
          obtain rfl := Option.some.inj (hfar.symm.trans hx)
          exact h⟩)
    rw [hkept, ← takes_drop_iff]
    constructor
    · rintro ⟨l', hl', hall⟩
      rw [hfull.unique hl']
      exact (hall b (.refl b)).unique (S.fullXthScan hfar hlt)
    · intro he
      refine ⟨_, hfull, fun b' H => ?_⟩
      rw [he]
      have h := (H.searched S).fullXthScan (a := asc) (c := f) (o := ofst)
      rw [hflat H] at h
      exact h hfar hlt
  rcases Nat.lt_or_ge ((T₀.flat (tr.view α)).length + pastRoot b) ofst with hfar' | hnear
  · -- the OFFSET is known to be too large
    refine iff_of_true ⟨_, hfull, fun b' H => ?_⟩ (.inr (.inr hfar'))
    have h := (H.searched S).past_ends (a := asc) (o := ofst)
    rw [hflat H, hpast H] at h
    rw [List.drop_eq_nil_of_le (by omega)]
    exact h hfar'
  · -- the OFFSET is taken for one in the root
    refine iff_of_false ?_ ?_
    · rintro ⟨l', hl', hall⟩
      have hn : b.numkeys ≠ 0 := fun h => hnil (S.cells_nil h)
      have H := echoed_same (hT.heap .root)
      have S' := H.searched S
      have hsize := H.size S.clean.whole.good (l := tr.two_le)
      have hpos := S.root_pos hn
      obtain ⟨c₁, l₁, c₁', hc₁, hlast₁, hedge⟩ := S'.edges hn
      have hent := S'.echoed_entices B (a := asc) hc₁ hlast₁ (by rw [hsize]; exact hpos)
        (by rw [hsize]; exact echoed_top hpos)
      refine S'.past_strays (a := asc) (o := ofst) (by rw [hsize]; exact hpos) hn hedge hent
        (by rw [hflat H]; exact hge) (by rw [hflat H, hpast H]; exact hnear) ?_
      have h := hall _ H
      rwa [hl'.unique hfull, List.drop_eq_nil_of_le (by omega)] at h
    · rintro (h | ⟨h, -⟩ | h)
      · exact hnil h
      · omega
      · omega

end Searched

/-! ## Runs -/

section Runs

variable [LinearOrder κ] [RowStream α] [DecidableEq κ] [Inhabited α] {K : RangeKeys α κ} {tr : Trans}
  {b : Bt α} {cmp : α → α → Int} {sp : Bts} {dirty : Bool} {m : κ → Option α}

end Runs

theorem textKeys_bounded : Bounded textKeys where
  up k h := (textKeys_over h k 0).1
  down k h hover := by
    have hneg : Rdb.strncmp k.val.length k.val (h.val ++ [0]) < 0 := by simpa [textKeys] using hover
    obtain ⟨hzero, hpos⟩ := strncmp_bounded (h := h.val) k.2.1
    refine lt_of_le_of_ne (not_lt.1 fun hlt => ?_) fun he => ?_
    · have := hpos.2 hlt
      omega
    · have := hzero.2 (he ▸ List.prefix_rfl)
      omega

/-- Eight rows, which are a root of one key with two leaves below. -/
def eightRows : List Nat := [1, 2, 3, 4, 5, 6, 7, 8]

theorem runsTo_eight : ∃ b, play ((eightRows.map row).map .insert)
      (btCreate Cell.cmp .one tableBts false) = some b ∧
    RunsTo Cell.num tableBts (btCreate Cell.cmp .one tableBts false) b
      (held Cell.num ((eightRows.map row).map .insert)) ∧ b.numkeys = 8 ∧
    (∀ k e, held Cell.num ((eightRows.map row).map .insert) k = some e → Sound cellKeys e) ∧
    b.inorder = some (eightRows.map fun n => (row n, 0)) ∧ pastRoot b = 2 := by
  obtain ⟨b, hp, h, hn, hs⟩ := runsTo_rows (l := eightRows) (by decide) (n := 8) (by decide +kernel)
  have hcells : (play ((eightRows.map row).map .insert) (btCreate Cell.cmp .one tableBts false)).bind
      Bt.inorder = some (eightRows.map fun n => (row n, 0)) := by decide +kernel
  have hpast : (play ((eightRows.map row).map .insert) (btCreate Cell.cmp .one tableBts false)).map
      pastRoot = some 2 := by decide +kernel
  rw [hp] at hcells hpast
  exact ⟨b, hp, h, hn, hs, hcells, Option.some.inj hpast⟩

end AlchemyDB
