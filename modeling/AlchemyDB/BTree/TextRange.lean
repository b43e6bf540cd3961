/-
# `AlchemyDB.BTree.TextRange` — ranges of TEXT keys

The keys of a TEXT tree are ordered by `btTextCmp`, which is the lexicographic order of
the bytes.  A scan tells the end of its range by `strncmp`, over as many bytes as the key
has: the end is found not only at the high key, but at every key that the high key begins
with.  The scan stops there, and what lies between is lost.
-/
import AlchemyDB.BTree.Ranged
import AlchemyDB.Rdb.Rows
import Mathlib.Data.List.Lex

namespace AlchemyDB

open Rdb Bytes

/-! ## The end of a range -/

section Range

variable {α κ : Type} [LinearOrder κ] {K : RangeKeys α κ} {low high : κ}

/-- The keys of a list between two keys. -/
def between (K : RangeKeys α κ) (low high : κ) (l : List (α × Nat)) : List α :=
  (l.map Prod.fst).filter fun e => decide (low ≤ K.key e ∧ K.key e ≤ high)

/-- No key between the two that is taken for the high key has another one behind it. -/
def NoneBehind (K : RangeKeys α κ) (low high : κ) (l : List α) : Prop :=
  ∀ k ∈ l, ∀ k' ∈ l, low ≤ K.key k → K.exact (K.key k) high = true → K.key k < K.key k' →
    high < K.key k'

/-- A scan whose test for the end may be met early. -/
theorem taken_iff (hover : ∀ k v, K.isOver true k v high = true ↔ high < k)
    (hexact : ∀ k, K.exact k high = true → k ≤ high) : ∀ {l : List (α × Nat)},
    (l.Pairwise fun x y => K.key x.1 < K.key y.1) → (∀ c ∈ l, low ≤ K.key c.1) →
    (taken K high l = between K low high l ↔ NoneBehind K low high (l.map Prod.fst))
  | [], _, _ => iff_of_true rfl fun k hk => absurd hk List.not_mem_nil
  | c :: l, hl, hlow => by
      obtain ⟨hc, hl⟩ := List.pairwise_cons.1 hl
      obtain ⟨hlc, hlow⟩ := List.forall_mem_cons.1 hlow
      have ih := taken_iff hover hexact hl hlow
      have hbehind : ∀ k ∈ l.map Prod.fst, K.key c.1 < K.key k := by
        intro k hk
        obtain ⟨x, hx, rfl⟩ := List.mem_map.1 hk
        exact hc x hx
      have hlow' : ∀ k ∈ l.map Prod.fst, low ≤ K.key k := by
        intro k hk
        obtain ⟨x, hx, rfl⟩ := List.mem_map.1 hk
        exact hlow x hx
      -- nothing is left when all the keys are above the high key
      have hnil (h : ∀ k ∈ l.map Prod.fst, high < K.key k) : between K low high l = [] := by
        refine List.filter_eq_nil_iff.2 fun k hk => ?_
        simpa using fun _ => h k hk
      rw [taken]
      by_cases hov : high < K.key c.1
      · rw [if_pos ((hover _ _).2 hov)]
        refine iff_of_true ?_ ?_
        · rw [between, List.map_cons, List.filter_cons_of_neg (by simpa using fun _ => hov)]
          exact (hnil fun k hk => hov.trans (hbehind k hk)).symm
        · intro k hk k' hk' _ hex _
          have hle := hexact _ hex
          rcases List.mem_cons.1 hk with rfl | hk
          · exact absurd hov (not_lt.2 hle)
          · exact absurd (hov.trans (hbehind k hk)) (not_lt.2 hle)
      · have hle := not_lt.1 hov
        have hb : between K low high (c :: l) = c.1 :: between K low high l := by
          rw [between, List.map_cons, List.filter_cons_of_pos (by simpa using ⟨hlc, hle⟩)]
          rfl
        rw [if_neg (mt (hover _ _).1 hov), hb]
        by_cases hex : K.exact (K.key c.1) high = true
        · rw [if_pos hex, List.cons.injEq, eq_self, true_and]
          constructor
          · intro hempty
            have habove : ∀ k ∈ l.map Prod.fst, high < K.key k := by
              intro k hk
              have := List.filter_eq_nil_iff.1 hempty.symm k hk
              exact not_le.1 fun h => this (by simpa using ⟨hlow' k hk, h⟩)
            intro k hk k' hk' _ hexk hlt
            rcases List.mem_cons.1 hk' with rfl | hk'
            · rcases List.mem_cons.1 hk with rfl | hk
              · exact absurd hlt (lt_irrefl _)
              · exact absurd (hbehind k hk) hlt.not_gt
            · exact habove k' hk'
          · intro hn
            refine (hnil fun k hk => ?_).symm
            exact hn c.1 List.mem_cons_self k (List.mem_cons_of_mem _ hk) hlc hex (hbehind k hk)
        · rw [if_neg hex, List.cons.injEq, eq_self, true_and, ih]
          constructor
          · intro hn k hk k' hk' hlk hexk hlt
            rcases List.mem_cons.1 hk with rfl | hk
            · exact absurd hexk hex
            · rcases List.mem_cons.1 hk' with rfl | hk'
              · exact absurd (hbehind k hk) hlt.not_gt
              · exact hn k hk k' hk' hlk hexk hlt
          · exact fun hn k hk k' hk' =>
              hn k (List.mem_cons_of_mem _ hk) k' (List.mem_cons_of_mem _ hk')

/-- The keys from a key on, in a sorted list. -/
theorem onwards_eq_filter {l : List (α × Nat)}
    (hl : l.Pairwise fun x y => K.key x.1 < K.key y.1) :
    onwards K low l = l.filter fun c => decide (low ≤ K.key c.1) := by
  induction l with
  | nil => rfl
  | cons c l ih =>
      obtain ⟨hc, hl⟩ := List.pairwise_cons.1 hl
      rw [onwards, List.dropWhile_cons]
      by_cases h : K.key c.1 < low
      · rw [if_pos (by simpa using h), List.filter_cons_of_neg (by simpa using h)]
        exact ih hl
      · have hle := not_lt.1 h
        rw [if_neg (by simpa using hle), List.filter_cons_of_pos (by simpa using hle)]
        refine congrArg _ (List.filter_eq_self.2 fun x hx => ?_).symm
        simpa using hle.trans (hc x hx).le

/-- An ascending range of a sorted list, and the keys between. -/
theorem rangeOf_iff (hover : ∀ k v, K.isOver true k v high = true ↔ high < k)
    (hexact : ∀ k, K.exact k high = true → k ≤ high) {l : List (α × Nat)}
    (hl : l.Pairwise fun x y => K.key x.1 < K.key y.1) :
    rangeOf K low high l = between K low high l ↔ NoneBehind K low high (l.map Prod.fst) := by
  have hsub : (l.filter fun c => decide (low ≤ K.key c.1)).Pairwise fun x y => K.key x.1 < K.key y.1 :=
    hl.filter _
  have hlow : ∀ c ∈ l.filter fun c => decide (low ≤ K.key c.1), low ≤ K.key c.1 := fun c hc =>
    of_decide_eq_true (List.mem_filter.1 hc).2
  have hb : between K low high (l.filter fun c => decide (low ≤ K.key c.1)) =
      between K low high l := by
    unfold between
    rw [List.filter_map, List.filter_map, List.filter_filter]
    refine congrArg _ (List.filter_congr fun c _ => ?_)
    simp only [Function.comp]
    by_cases h : low ≤ K.key c.1 <;> simp [h]
  rw [rangeOf, onwards_eq_filter hl, ← hb, taken_iff hover hexact hsub hlow]
  have hm (k : α) : k ∈ (l.filter fun c => decide (low ≤ K.key c.1)).map Prod.fst ↔
      k ∈ l.map Prod.fst ∧ low ≤ K.key k := by
    simp only [List.mem_map, List.mem_filter, decide_eq_true_eq]
    constructor
    · rintro ⟨c, ⟨hc, h⟩, he⟩
      exact ⟨⟨c, hc, he⟩, he ▸ h⟩
    · rintro ⟨⟨c, hc, he⟩, h⟩
      exact ⟨c, ⟨hc, he ▸ h⟩, he⟩
  constructor
  · intro hn k hk k' hk' hlk hex hlt
    exact hn k ((hm k).2 ⟨hk, hlk⟩) k' ((hm k').2 ⟨hk', hlk.trans hlt.le⟩) hlk hex hlt
  · exact fun hn k hk k' hk' => hn k ((hm k).1 hk).1 k' ((hm k').1 hk').1

end Range

/-! ## Texts -/

instance byteOrder : LinearOrder UInt8 where
  le_refl := UInt8.le_refl
  le_trans _ _ _ := UInt8.le_trans
  le_antisymm _ _ := UInt8.le_antisymm
  le_total := UInt8.le_total
  lt_iff_le_not_ge a b := by
    rw [UInt8.not_le]
    exact ⟨fun h => ⟨UInt8.le_of_lt h, h⟩, fun h => h.2⟩
  toDecidableLE := inferInstance
  toDecidableEq := inferInstance
  toDecidableLT := inferInstance

/-- A C string, of a length that an `int` can tell. -/
abbrev Text : Type := { s : List UInt8 // (∀ c ∈ s, c ≠ 0) ∧ s.length < 2147483648 }

theorem cmpNat_byte (a b : UInt8) : (cmpNat a.toNat b.toNat < 0 ↔ a < b) ∧
    (cmpNat a.toNat b.toNat = 0 ↔ a = b) ∧ (0 < cmpNat a.toNat b.toNat ↔ b < a) := by
  rw [UInt8.lt_iff_toNat_lt, UInt8.lt_iff_toNat_lt, ← UInt8.toNat_inj]
  unfold cmpNat
  split
  · omega
  · split <;> omega

/-- `btTextCmp` of two texts. -/
def textCmp (s t : List UInt8) : Int :=
  let r := strncmp (min s.length t.length) s t
  if r = 0 ∧ s.length ≠ t.length then (if s.length < t.length then -1 else 1) else r

theorem textCmp_cons {a b : UInt8} (ha : a ≠ 0) (s t : List UInt8) :
    textCmp (a :: s) (b :: t) = if a = b then textCmp s t else cmpNat a.toNat b.toNat := by
  unfold textCmp
  simp only [List.length_cons, Nat.add_min_add_right, strncmp]
  by_cases hab : a = b
  · simp only [hab, ne_eq, not_true_eq_false, if_false, hab ▸ ha, if_true, Nat.add_right_cancel_iff,
      Nat.add_lt_add_iff_right]
  · have hne : cmpNat a.toNat b.toNat ≠ 0 := fun h => hab ((cmpNat_byte a b).2.1.1 h)
    simp only [ne_eq, hab, not_false_eq_true, if_true, hne, false_and, if_false]

/-- The order of the tree is the lexicographic order of the bytes. -/
theorem textCmp_spec : ∀ {s t : List UInt8}, (∀ c ∈ s, c ≠ 0) →
    (textCmp s t < 0 ↔ s < t) ∧ (textCmp s t = 0 ↔ s = t)
  | [], [], _ => by simp [textCmp, strncmp]
  | [], b :: t, _ => by simp [textCmp, strncmp]
  | a :: s, [], _ => by simp [textCmp, strncmp]
  | a :: s, b :: t, h => by
      obtain ⟨ha, hs⟩ := List.forall_mem_cons.1 h
      obtain ⟨h1, h2⟩ := textCmp_spec (t := t) hs
      obtain ⟨c1, c2, -⟩ := cmpNat_byte a b
      rw [textCmp_cons ha, List.cons_lt_cons_iff, List.cons.injEq]
      by_cases hab : a = b
      · subst hab
        simp only [if_true, h1, h2, lt_irrefl, true_and, false_or, and_self]
      · rw [if_neg hab, c1, c2]
        simp only [hab, false_and, or_false, and_self]

/-- `strncmp` of a key against a bound that a NUL ends, over the length of the key: 0 for every key
that the bound begins with, and otherwise the order. -/
theorem strncmp_bounded : ∀ {k h : List UInt8}, (∀ c ∈ k, c ≠ 0) →
    (strncmp k.length k (h ++ [0]) = 0 ↔ k <+: h) ∧ (0 < strncmp k.length k (h ++ [0]) ↔ h < k)
  | [], h, _ => by simp [strncmp]
  | a :: k, [], hk => by
      have ha : a ≠ 0 := hk a List.mem_cons_self
      have hpos : 0 < cmpNat a.toNat (0 : UInt8).toNat := (cmpNat_byte a 0).2.2.2 (UInt8.pos_iff_ne_zero.2 ha)
      simp only [List.length_cons, List.nil_append, strncmp, ne_eq, ha, not_false_eq_true, if_true, hpos,
        List.prefix_nil, reduceCtorEq, hpos.ne', List.nil_lt_cons, and_self]
  | a :: k, b :: h, hk => by
      obtain ⟨ha, hk⟩ := List.forall_mem_cons.1 hk
      obtain ⟨h1, h2⟩ := strncmp_bounded (h := h) hk
      obtain ⟨-, c2, c3⟩ := cmpNat_byte a b
      rw [List.cons_prefix_cons, List.cons_lt_cons_iff]
      simp only [List.length_cons, List.cons_append, strncmp]
      by_cases hab : a = b
      · subst hab
        simp only [ne_eq, not_true_eq_false, if_false, ha, h1, h2, lt_irrefl, true_and, false_or,
          and_self]
      · simp only [ne_eq, hab, not_false_eq_true, if_true, c2, c3, false_and, Ne.symm hab, or_false,
          and_self]

/-! ## The tree -/

theorem keyText_length (e : Block) : (keyText e).length < 2147483648 := by
  have h0 := (mem e 0).toNat_lt
  have h4 := ofLe_peek_lt (mem e) 0 4
  unfold keyText skipToVal
  dsimp only
  split <;> rw [length_peek] <;> omega

/-- An entry of a TEXT tree: a block whose key is a C string. -/
structure TextEntry where
  block : Block
  text : ∀ c ∈ keyText block, c ≠ 0
deriving DecidableEq

namespace TextEntry

def key (e : TextEntry) : Text := ⟨keyText e.block, e.text, keyText_length e.block⟩

def cmp (a b : TextEntry) : Int := btTextCmp a.block b.block

theorem cmpOk : CmpOk cmp key where
  lt a _ := (textCmp_spec a.text).1
  eq a _ := ⟨fun h => Subtype.ext ((textCmp_spec a.text).2.1 h),
    fun h => (textCmp_spec a.text).2.2 (congrArg Subtype.val h)⟩

end TextEntry

/-- Rows of a TEXT table are not evicted, so there are no ghosts. -/
instance : RowStream TextEntry where
  numKey _ := 0
  ghost := id
  isGhost _ := false

/-- `createBTKey`: the length before the text, in one byte or in four. -/
def textBlock (s : List UInt8) : Block :=
  (if s.length < 128 then le 1 (s.length * 2 + 1) else le 4 (s.length * 2)) ++ s

theorem keyText_textBlock {s : List UInt8} (h : s.length < 2147483648) : keyText (textBlock s) = s := by
  have hs : Stands (mem (textBlock s)) 0 (textBlock s) := stands_follow _ _
  generalize hm : mem (textBlock s) = m at hs
  unfold textBlock at hs
  obtain ⟨h1, h2⟩ := stands_append.1 hs
  by_cases h7 : s.length < 128
  · rw [if_pos h7] at h1 h2
    have h0 : m 0 = UInt8.ofNat (s.length * 2 + 1) := (stands_cons.1 h1).1
    have hb : (m 0).toNat = s.length * 2 + 1 := by
      rw [h0, UInt8.toNat_ofNat', Nat.mod_eq_of_lt (by omega)]
    have hodd : (m 0).toNat &&& 1 ≠ 0 := by
      rw [hb, Nat.and_one_is_mod]
      omega
    have hn : (m 0).toNat / 2 + 1 - 1 = s.length := by omega
    simp only [keyText, skipToVal, hm, if_pos hodd, hn]
    exact h2
  · rw [if_neg h7] at h1 h2
    have h0 : m 0 = UInt8.ofNat (s.length * 2) := (stands_cons.1 h1).1
    have hb : (m 0).toNat = s.length * 2 % 256 := by rw [h0, UInt8.toNat_ofNat']
    have heven : ¬ (m 0).toNat &&& 1 ≠ 0 := by
      rw [hb, Nat.and_one_is_mod]
      omega
    have hlen : ofLe (peek m 0 4) = s.length * 2 := ofLe_peek h1 (by omega)
    have hn : ofLe (peek m 0 4) / 2 + 4 - 4 = s.length := by omega
    simp only [keyText, skipToVal, hm, if_neg heven, hn]
    exact h2

/-- The key that `createBTKey` makes of a text. -/
def TextEntry.ofText (t : Text) : TextEntry where
  block := textBlock t.val
  text := by
    rw [keyText_textBlock t.2.2]
    exact t.2.1

instance : Inhabited TextEntry := ⟨.ofText ⟨[], by simp⟩⟩

theorem TextEntry.key_ofText (t : Text) : (TextEntry.ofText t).key = t :=
  Subtype.ext (keyText_textBlock t.2.2)

/-- The high key of an iterator is a C string; `btRangeNext` compares as many bytes as the key has. -/
def textKeys : RangeKeys TextEntry Text where
  bkey t := some (.ofText t)
  num _ := 0
  null _ := false
  key := TextEntry.key
  exact k h := decide (strncmp k.val.length k.val (h.val ++ [0]) = 0)
  isOver asc k _ h :=
    let r := strncmp k.val.length k.val (h.val ++ [0])
    if asc then decide (0 < r) else decide (r < 0)

theorem textKeys_sound (e : TextEntry) : Sound textKeys e :=
  ⟨rfl, rfl, _, rfl, TextEntry.key_ofText _⟩

theorem textKeys_over (h k : Text) (v : Nat) : textKeys.isOver true k v h = true ↔ h < k := by
  simp only [textKeys, if_true, decide_eq_true_eq, (strncmp_bounded k.2.1).2]
  exact Iff.rfl

theorem textKeys_exact {h k : Text} : textKeys.exact k h = true ↔ k.val <+: h.val := by
  simp only [textKeys, decide_eq_true_eq]
  exact (strncmp_bounded k.2.1).1

/-- A text is not above one that it begins. -/
theorem prefix_not_lt {k h : List UInt8} (hp : k <+: h) : ¬ h < k := by
  obtain ⟨t, rfl⟩ := hp
  induction k with
  | nil => exact List.not_lt_nil _
  | cons a k ih =>
      rw [List.cons_append, List.cons_lt_cons_iff]
      simpa using ih

theorem textKeys_exact_le {h k : Text} (hk : textKeys.exact k h = true) : k ≤ h :=
  not_lt.1 (prefix_not_lt (textKeys_exact.1 hk))

/-- The specification of a TEXT tree: the table of a TEXT primary key, or an index. -/
def textBts (btype : BType) : Bts := ⟨.string, btype, 8, btflagNone⟩

/-- The slots of a TEXT tree hold the streams themselves, so that every step is safe. -/
theorem text_safe {btype : BType} {s : Bt TextEntry} {m : Text → Option TextEntry} (op : Op TextEntry) :
    op.Safe TextEntry.key (textBts btype) s m := by
  cases op with
  | insert k => trivial
  | delete k => exact .inl ⟨rfl, rfl⟩
  | replace k v => trivial

/-- What an ascending range should give: the entries of the map between the two keys, in their
order. -/
structure InRange {α κ : Type} [LinearOrder κ] (key : α → κ) (m : κ → Option α) (low high : κ)
    (l : List α) : Prop where
  order : l.Pairwise fun x y => key x < key y
  mem : ∀ e, e ∈ l ↔ m (key e) = some e ∧ low ≤ key e ∧ key e ≤ high

theorem InRange.unique {α κ : Type} [LinearOrder κ] {key : α → κ} {m : κ → Option α} {low high : κ}
    {l l' : List α} (h : InRange key m low high l) (h' : InRange key m low high l') : l = l' := by
  have hp : l.Perm l' := by
    refine (List.perm_ext_iff_of_nodup ?_ ?_).2 fun e => (h.mem e).trans (h'.mem e).symm
    · exact h.order.imp fun hlt he => by rw [he] at hlt; exact lt_irrefl _ hlt
    · exact h'.order.imp fun hlt he => by rw [he] at hlt; exact lt_irrefl _ hlt
  exact hp.eq_of_pairwise (fun a b _ _ hab hba => absurd (hab.trans hba) (lt_irrefl _)) h.order h'.order

section Theorem

variable {tr : Trans} {btype : BType} {dirty : Bool} {b : Bt TextEntry}
  {m : Text → Option TextEntry} {low high : Text}

/-- In a tree that was made by steps, what a range gives, and whether it is all. -/
theorem text_scan (h : RunsTo TextEntry.key (textBts btype)
      (btCreate TextEntry.cmp tr (textBts btype) dirty) b m) (h32 : b.numkeys < 4294967296)
    (low high : Text) : ∃ l, Scans textKeys b true (btGetRangeIter textKeys b low high true) l ∧
      (InRange TextEntry.key m low high l ↔ ∀ k k' e e', m k = some e → m k' = some e' → low ≤ k →
        k.val <+: high.val → k < k' → high < k') := by
  obtain ⟨D, T, S, hm⟩ := RunsTo.searched (K := textKeys) TextEntry.cmpOk h
    (fun _ e _ => textKeys_sound e) h32
  obtain ⟨g, hg, hgives⟩ := S.range rfl (TextEntry.key_ofText low)
  have horder := S.scanned.order
  have hkeys : (T.flat (tr.view TextEntry)).map Prod.fst = T.keys := keys_of_flat.symm
  have hsorted : T.keys.Pairwise fun x y => x.key < y.key := by
    rw [← hkeys, List.pairwise_map]
    exact horder
  have hall : InRange TextEntry.key m low high (between textKeys low high (T.flat (tr.view TextEntry))) := by
    constructor
    · rw [between, hkeys]
      exact hsorted.filter _
    · intro e
      rw [between, hkeys, List.mem_filter, hm, decide_eq_true_eq]
      exact Iff.rfl
  have hbehind : NoneBehind textKeys low high T.keys ↔ ∀ k k' e e', m k = some e → m k' = some e' →
      low ≤ k → k.val <+: high.val → k < k' → high < k' := by
    constructor
    · intro hn k k' e e' hk hk' hlow hp hlt
      obtain rfl := h.key_eq TextEntry.cmpOk hk
      obtain rfl := h.key_eq TextEntry.cmpOk hk'
      exact hn e ((hm e).2 hk) e' ((hm e').2 hk') hlow (textKeys_exact.2 hp) hlt
    · intro hn e he e' he' hlow hex hlt
      exact hn _ _ e e' ((hm e).1 he) ((hm e').1 he') hlow (textKeys_exact.1 hex) hlt
  refine ⟨_, ⟨g, hg, hgives⟩, ?_⟩
  rw [← hbehind, ← hkeys, ← rangeOf_iff (textKeys_over high) (fun k => textKeys_exact_le) horder]
  exact ⟨fun h => h.unique hall, fun h => h ▸ hall⟩

/-- An ascending range gives the keys between its bounds, all of them and in order, if and only if
no key that the high bound begins with has another key of the range behind it. -/
theorem text_range_iff (h : RunsTo TextEntry.key (textBts btype)
      (btCreate TextEntry.cmp tr (textBts btype) dirty) b m) (h32 : b.numkeys < 4294967296)
    (low high : Text) :
    (∃ l, Scans textKeys b true (btGetRangeIter textKeys b low high true) l ∧
      InRange TextEntry.key m low high l) ↔
    ∀ k k' e e', m k = some e → m k' = some e' → low ≤ k → k.val <+: high.val → k < k' →
      high < k' := by
  obtain ⟨l, hl, hiff⟩ := text_scan h h32 low high
  rw [← hiff]
  constructor
  · rintro ⟨l', hl', hr⟩
    rwa [hl.unique hl']
  · exact fun hr => ⟨l, hl, hr⟩

end Theorem

/-! ## A key that the high bound begins with -/

def textA : Text := ⟨[97], by decide +kernel⟩

def textAB : Text := ⟨[97, 98], by decide +kernel⟩

/-- The tree of the two keys, or of the second, which begins with the first. -/
theorem runsTo_texts {l : List Text} (hd : l.Nodup) {n : Int}
    (hn : (play ((l.map TextEntry.ofText).map .insert)
      (btCreate TextEntry.cmp .one (textBts .table) false)).map Bt.numkeys = some n) :
    ∃ b, play ((l.map TextEntry.ofText).map .insert)
        (btCreate TextEntry.cmp .one (textBts .table) false) = some b ∧
      RunsTo TextEntry.key (textBts .table) (btCreate TextEntry.cmp .one (textBts .table) false) b
        (held TextEntry.key ((l.map TextEntry.ofText).map .insert)) ∧ b.numkeys = n ∧
      ∀ k e, held TextEntry.key ((l.map TextEntry.ofText).map .insert) k = some e ↔
        e ∈ l.map TextEntry.ofText ∧ e.key = k := by
  have hkeys : (l.map TextEntry.ofText).map TextEntry.key = l := by
    rw [List.map_map]
    exact List.map_id'' TextEntry.key_ofText l
  have hd' := hkeys.symm ▸ hd
  obtain ⟨b, hp, h, hb⟩ := runsTo_inserts rfl rfl hd' hn
  exact ⟨b, hp, h, hb, held_inserts hd'⟩

theorem text_range_iff_one : ∃ b, play ([textAB].map fun t => .insert (.ofText t))
      (btCreate TextEntry.cmp .one (textBts .table) false) = some b ∧
    ∃ l, Scans textKeys b true (btGetRangeIter textKeys b textA textAB true) l ∧
      InRange TextEntry.key (held TextEntry.key ([textAB].map fun t => .insert (.ofText t)))
        textA textAB l := by
  obtain ⟨b, hp, h, hn, hheld⟩ := runsTo_texts (l := [textAB]) (by decide) (n := 1) (by decide +kernel)
  refine ⟨b, hp, (text_range_iff h (by omega) textA textAB).2 ?_⟩
  intro k k' e e' hk hk' _ _ hlt
  obtain ⟨he, rfl⟩ := (hheld k e).1 hk
  obtain ⟨he', rfl⟩ := (hheld k' e').1 hk'
  rw [List.mem_singleton.1 he, List.mem_singleton.1 he'] at hlt
  exact absurd hlt (lt_irrefl _)

/-- The range from "a" to "ab" ends at "a", although both are there. -/
theorem range_ends_at_prefix : ∃ b, play ([textA, textAB].map fun t => .insert (.ofText t))
      (btCreate TextEntry.cmp .one (textBts .table) false) = some b ∧ textA ≤ textAB ∧
    ¬ ∃ l, Scans textKeys b true (btGetRangeIter textKeys b textA textAB true) l ∧
      InRange TextEntry.key (held TextEntry.key ([textA, textAB].map fun t => .insert (.ofText t)))
        textA textAB l := by
  obtain ⟨b, hp, h, hn, hheld⟩ := runsTo_texts (l := [textA, textAB]) (by decide) (n := 2)
    (by decide +kernel)
  refine ⟨b, hp, by decide, ?_⟩
  rintro ⟨l, hl, hr⟩
  obtain ⟨l', hl', hiff⟩ := text_scan h (by omega) textA textAB
  have hA := (hheld textA (.ofText textA)).2 ⟨by simp, TextEntry.key_ofText _⟩
  have hAB := (hheld textAB (.ofText textAB)).2 ⟨by simp, TextEntry.key_ofText _⟩
  refine absurd (hiff.1 ?_ textA textAB _ _ hA hAB le_rfl (by decide) (by decide)) (lt_irrefl _)
  rw [← hl.unique hl']
  exact hr

end AlchemyDB
