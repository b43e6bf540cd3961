/-
# `AlchemyDB.BTree.Fixed` — the specification of a tree stays

No program changes the `bts_t` of a tree.  So in a tree whose slots hold the entries
themselves while its entries count as big, no delete ever returns: wherever the key is
found, `CREATE_RETURN_DELETED_KEY` copies from an address that is none.
-/
import AlchemyDB.BTree.Delete

namespace AlchemyDB

open Store

variable {α γ δ : Type}

/-- A program that leaves the specification alone. -/
def Fixed (m : BtM α γ) : Prop := ∀ s a s', m s = some (a, s') → s'.s = s.s

/-! ## Composition -/

@[grind ←] theorem fixed_pure (a : γ) : Fixed (pure a : BtM α γ) := by
  intro s b s' h
  cases h
  rfl

@[grind ←] theorem fixed_bind {m : BtM α γ} {f : γ → BtM α δ} (hm : Fixed m) (hf : ∀ a, Fixed (f a)) :
    Fixed (m >>= f) := by
  intro s b s' h
  obtain ⟨⟨a, s₁⟩, h₁, h₂⟩ := Option.bind_eq_some_iff.1 h
  rw [hf a _ _ _ h₂, hm _ _ _ h₁]

@[grind ←] theorem fixed_failure : Fixed (failure : BtM α γ) := by
  intro s b s' h
  cases h

@[grind ←] theorem fixed_get : Fixed (get : BtM α (Bt α)) := by
  intro s b s' h
  cases h
  rfl

theorem fixed_ite {c : Prop} [Decidable c] {m m' : BtM α γ} (h : Fixed m) (h' : Fixed m') :
    Fixed (if c then m else m') := by
  split
  · exact h
  · exact h'

@[grind ←] theorem fixed_modify {f : Bt α → Bt α} (h : ∀ s, (f s).s = s.s) :
    Fixed (modify f : BtM α PUnit) := by
  intro s b s' h'
  cases h'
  exact h s

@[grind ←] theorem fixed_forM {f : γ → BtM α PUnit} (h : ∀ a, Fixed (f a)) :
    ∀ l : List γ, Fixed (l.forM f)
  | [] => fixed_pure _
  | a :: l => fixed_bind (h a) fun _ => fixed_forM h l

@[grind ←] theorem fixed_foldlM {f : δ → γ → BtM α δ} (h : ∀ b a, Fixed (f b a)) :
    ∀ (l : List γ) (b : δ), Fixed (l.foldlM f b)
  | [], b => fixed_pure b
  | a :: l, b => fixed_bind (h b a) fun b' => fixed_foldlM h l b'

/-! ## Memory -/

@[grind ←] theorem fixed_getN (x : Nat) : Fixed (getN x : BtM α (BtN α)) := by
  intro s a s' h
  obtain ⟨nd, -, he⟩ := Option.map_eq_some_iff.1 h
  cases he
  rfl

@[grind ←] theorem fixed_setN (x : Nat) (nd : BtN α) : Fixed (setN x nd) := by
  intro s a s' h
  unfold setN at h
  split at h
  · cases h
  · cases h
    rfl

@[grind ←] theorem fixed_modN (x : Nat) (f : BtN α → BtN α) : Fixed (modN x f) := by
  grind [modN]

@[grind ←] theorem fixed_mallocN (nd : BtN α) : Fixed (mallocN nd) := by
  intro s a s' h
  cases h
  rfl

@[grind ←] theorem fixed_freeN (x : Nat) : Fixed (freeN x : BtM α Unit) := by
  intro s a s' h
  unfold freeN at h
  split at h
  · cases h
  · cases h
    rfl

@[grind ←] theorem fixed_getNode (x i : Nat) : Fixed (getNode x i : BtM α Nat) := by grind [getNode]

@[grind ←] theorem fixed_setNode (x i y : Nat) : Fixed (setNode x i y : BtM α Unit) := by grind [setNode]

@[grind ←] theorem fixed_unlessLeaf {leaf : Bool} {m : BtM α Unit} (h : Fixed m) :
    Fixed (unlessLeaf leaf m) := by
  grind [unlessLeaf]

@[grind ←] theorem fixed_KEYS (x i : Nat) : Fixed (KEYS x i : BtM α (KData α)) := by grind [KEYS]

@[grind ←] theorem fixed_setBTKeyRaw (x i : Nat) (src : KData α) : Fixed (setBTKeyRaw x i src) := by
  refine fixed_bind fixed_get fun s => ?_
  split
  · exact fixed_failure
  · exact fixed_modN _ _

@[grind ←] theorem fixed_incrScion (x : Nat) (m : Int) : Fixed (incrScion x m : BtM α Unit) :=
  fixed_modN _ _

@[grind ←] theorem fixed_decrScion (x : Nat) (m : Int) : Fixed (decrScion x m : BtM α Unit) :=
  fixed_modN _ _

@[grind ←] theorem fixed_moveScion (y z m : Nat) : Fixed (moveScion y z m : BtM α Unit) := by
  grind [moveScion]

/-! ## Dirty streams -/

@[grind ←] theorem fixed_getDR (x i : Nat) : Fixed (getDR x i : BtM α Nat) := by grind [getDR]

@[grind ←] theorem fixed_getScionRange (x b f : Nat) : Fixed (getScionRange x b f : BtM α Int) := by
  grind [getScionRange]

@[grind ←] theorem fixed_addDStoBTN (x p pi : Nat) (d : Int) :
    Fixed (addDStoBTN x p pi d : BtM α Nat) := by
  unfold addDStoBTN
  repeat refine fixed_bind (by grind) fun _ => ?_
  refine fixed_ite (fixed_bind (fixed_modify fun _ => rfl) fun _ => ?_) ?_ <;> grind

@[grind ←] theorem fixed_setDRRaw (x i dr : Nat) : Fixed (setDRRaw x i dr : BtM α Unit) := by
  grind [setDRRaw]

@[grind ←] theorem fixed_setDR (x i dr p pi : Nat) : Fixed (setDR x i dr p pi : BtM α Nat) := by
  grind [setDR]

@[grind ←] theorem fixed_zeroDR (x i : Nat) : Fixed (zeroDR x i : BtM α Nat) := by grind [zeroDR]

@[grind ←] theorem fixed_overwriteDR (x i dr p pi : Nat) :
    Fixed (overwriteDR x i dr p pi : BtM α Nat) := by
  grind [overwriteDR]

@[grind ←] theorem fixed_setBTKey (dx di sx si : Nat) (drt : Bool) (pd pdi : Nat) :
    Fixed (setBTKey dx di sx si drt pd pdi : BtM α Nat) := by
  grind [setBTKey]

@[grind ←] theorem fixed_mvXKeysStep (b : Bool) (dii sii pd pdi dx sx : Nat) :
    Fixed (mvXKeysStep b dii sii pd pdi dx sx : BtM α (Nat × Nat)) := by
  unfold mvXKeysStep
  dsimp only
  refine fixed_bind (fixed_getDR _ _) fun _ => fixed_bind (fixed_getDR _ _) fun _ =>
    fixed_ite ?_ (fixed_ite ?_ ?_)
  all_goals
    repeat refine fixed_bind (by grind) fun _ => ?_
    grind

@[grind ←] theorem fixed_mvXKeys (dx di sx si num pd pdi : Nat) :
    Fixed (mvXKeys dx di sx si num pd pdi : BtM α (Nat × Nat)) :=
  fixed_foldlM (fun _ _ => fixed_mvXKeysStep _ _ _ _ _ _ _) _ _

@[grind ←] theorem fixed_mvXNodes (x xo z zo num : Nat) :
    Fixed (mvXNodes x xo z zo num : BtM α Unit) := by
  grind [mvXNodes]

@[grind ←] theorem fixed_trimBTN (x : Nat) (drt : Bool) : Fixed (trimBTN x drt : BtM α Nat) := by
  grind [trimBTN]

/-! ## Balancing -/

@[grind ←] theorem fixed_mergeEnd (x i y z yn : Nat) (leaf drt : Bool) (p pi : Nat) :
    Fixed (mergeEnd x i y z yn leaf drt p pi : BtM α (Nat × Nat)) := by
  unfold mergeEnd
  repeat refine fixed_bind (by grind) fun _ => ?_
  grind

@[grind ←] theorem fixed_mergeCase2c (x i : Nat) (k : α) (drt : Bool) (p pi : Nat) :
    Fixed (mergeCase2c x i k drt p pi) := by
  unfold mergeCase2c
  repeat refine fixed_bind (by grind) fun _ => ?_
  grind

@[grind ←] theorem fixed_mergeCase3b (x l : Nat) (drt : Bool) (p pi : Nat) :
    Fixed (mergeCase3b x l drt p pi : BtM α (Nat × Nat)) := by
  unfold mergeCase3b
  repeat refine fixed_bind (by grind) fun _ => ?_
  grind

@[grind ←] theorem fixed_borrowCase3a1 (x i : Nat) (drt : Bool) (p pi : Nat) :
    Fixed (borrowCase3a1 x i drt p pi : BtM α (Nat × Nat)) := by
  unfold borrowCase3a1
  repeat refine fixed_bind (by grind) fun _ => ?_
  grind

@[grind ←] theorem fixed_borrowCase3a2 (x i : Nat) (drt : Bool) (p pi : Nat) :
    Fixed (borrowCase3a2 x i drt p pi : BtM α (Nat × Nat)) := by
  unfold borrowCase3a2
  repeat refine fixed_bind (by grind) fun _ => ?_
  grind

@[grind ←] theorem fixed_rebalanceCase3 (x i : Nat) (drt : Bool) (p pi : Nat) :
    Fixed (rebalanceCase3 x i drt p pi : BtM α (Nat × Nat × Nat)) := by
  unfold rebalanceCase3
  repeat refine fixed_bind (by grind) fun _ => ?_
  grind [childN, mergeCase3b1, mergeCase3b2]

@[grind ←] theorem fixed_replaceKeyWithGhost [RowStream α] (x i : Nat) (k : KData α) (dr p pi : Nat) :
    Fixed (replaceKeyWithGhost x i k dr p pi) := by
  refine fixed_bind fixed_get fun s => ?_
  split
  · exact fixed_failure
  · repeat refine fixed_bind (by grind) fun _ => ?_
    grind

@[grind ←] theorem fixed_payScion (x : Nat) (drt : Bool) : Fixed (payScion x drt : BtM α Unit) := by
  grind [payScion]

@[grind ←] theorem fixed_markCase2c (kp : KData α) : Fixed (markCase2c kp) :=
  fixed_modify fun _ => rfl

/-! ## Deletes that never return -/

/-- A program that fails from every tree of which `P` is the specification. -/
def Dead (P : Bts → Prop) (m : BtM α γ) : Prop := ∀ s, P s.s → m s = none

variable {P : Bts → Prop}

/-- The rest of a program that leaves the specification alone. -/
theorem Dead.after {m : BtM α γ} {f : γ → BtM α δ} (hm : Fixed m) (hf : ∀ a, Dead P (f a)) :
    Dead P (m >>= f) := by
  intro s hP
  show (m s).bind _ = none
  cases h : m s with
  | none => rfl
  | some r =>
      obtain ⟨a, s₁⟩ := r
      exact hf a s₁ (by rw [hm _ _ _ h]; exact hP)

theorem Dead.first {m : BtM α γ} (h : Dead P m) (f : γ → BtM α δ) : Dead P (m >>= f) := by
  intro s hP
  show (m s).bind _ = none
  rw [h s hP]
  rfl

theorem Dead.either {c : Prop} [Decidable c] {m m' : BtM α γ} (h : Dead P m) (h' : Dead P m') :
    Dead P (if c then m else m') := by
  split
  · exact h
  · exact h'

/-- The entries are in the slots, and count as big. -/
def Bts.blind (b : Bts) : Prop := b.narrow = true ∧ b.bigBt = true

theorem dead_KEYS {x i : Nat} {f : KData α → BtM α δ} (h : ∀ e, Dead Bts.blind (f (.val e))) :
    Dead Bts.blind (KEYS x i >>= f) := by
  intro s hP
  show (KEYS x i s).bind _ = none
  cases hx : s.heap x with
  | none =>
      have hk : KEYS x i s = none := by
        show ((s.heap x).map _).bind _ = none
        rw [hx]
        rfl
      rw [hk]
      rfl
  | some nd =>
      have hk : KEYS x i s = some (.val (nd.keys i), s) := by
        show ((s.heap x).map _).bind _ = _
        rw [hx]
        show (if s.s.narrow = true then pure (KData.val (nd.keys i)) else pure (KData.slot x i) :
          BtM α (KData α)) s = _
        rw [if_pos hP.1]
        rfl
      rw [hk]
      exact h _ s hP

theorem dead_createReturnDeletedKey (e : α) (dr : Nat) :
    Dead Bts.blind (createReturnDeletedKey (.val e) dr) := by
  intro s hP
  show (if s.s.bigBt = true then failure else _ : BtM α (Dwd α)) s = none
  rw [if_pos hP.2]
  rfl

section Delete

variable [RowStream α]

theorem dead_deleteCase1 (x i : Nat) (dk : DK) (drt : Bool) (p pi : Nat) (plist : PList) :
    Dead Bts.blind (deleteCase1 x i dk drt p pi plist : BtM α (Dwd α)) := by
  unfold deleteCase1
  refine Dead.after fixed_get fun _ => dead_KEYS fun e => Dead.after (fixed_getDR _ _) fun _ => ?_
  exact (dead_createReturnDeletedKey e _).first _

theorem dead_ghostCase2 (x i : Nat) (e : α) (dr p pi : Nat) :
    Dead Bts.blind (ghostCase2 x i (.val e) dr p pi) := by
  unfold ghostCase2
  exact Dead.after (fixed_replaceKeyWithGhost _ _ _ _ _ _) fun _ => dead_createReturnDeletedKey e dr

theorem dead_deletekey (k : α) (drt : Bool) : ∀ (fuel : Nat) (dk : DK) (x p pi : Nat) (plist : PList),
    Dead Bts.blind (deletekey k dk drt fuel x p pi plist)
  | 0, _, _, _, _, _ => fun _ _ => rfl
  | fuel + 1, dk, x, p, pi, plist => by
      have ih := dead_deletekey k drt fuel
      rw [deletekey]
      refine Dead.after fixed_get fun s => Dead.after (fixed_getN x) fun nd => ?_
      dsimp only
      refine Dead.after (fixed_payScion x drt) fun _ => Dead.either ?_ (Dead.either ?_ ?_)
      · exact Dead.either (fun _ _ => rfl) (dead_deleteCase1 _ _ _ _ _ _ _)
      · refine dead_KEYS fun e => Dead.either (dead_ghostCase2 _ _ _ _ _ _) ?_
        refine Dead.after (fixed_getNode _ _) fun y => Dead.after (fixed_getN y) fun ndy =>
          Dead.either ((ih _ _ _ _ _).first _) ?_
        refine Dead.after (fixed_getNode _ _) fun z => Dead.after (fixed_getN z) fun ndz =>
          Dead.either ((ih _ _ _ _ _).first _) (Dead.either ?_ fun _ _ => rfl)
        exact Dead.after (fixed_markCase2c _) fun _ => Dead.after (fixed_mergeCase2c _ _ _ _ _ _)
          fun _ => ih _ _ _ _ _
      · exact Dead.after (fixed_rebalanceCase3 _ _ _ _ _) fun _ => (ih _ _ _ _ _).first _

/-- `bt_delete` never returns in such a tree. -/
theorem dead_btDelete (k : α) : Dead Bts.blind (btDelete k) := by
  unfold btDelete removeKey
  refine Dead.after (fixed_modify fun _ => rfl) fun _ => Dead.after fixed_get fun s => ?_
  exact (dead_deletekey k false _ _ _ _ _ _).first _

end Delete

end AlchemyDB
