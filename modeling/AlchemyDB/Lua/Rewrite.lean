/-
# From SQL to Lua: `=` and `!=`

`checkOrCr8LFunc` edits two copies of an expression in one loop: `mexpr` in place, where
`!=` becomes `~=`, and `nexpr`, cut out of the expression piece by piece, where `=`
becomes `==`.  If there is an `nexpr` it is the one that is compiled.

The loop does not look at what stands beside an `=`, and it passes over the first
character behind a quote, so that it pairs the quotes of `''` wrongly.  What it makes of a
text is compared place by place with what it should make of it.
-/
import AlchemyDB.Lua.Compile
import AlchemyDB.Text.Quoted

namespace AlchemyDB.Lua

open Catalog Text

/-! ## Quotes -/

/-- The places of a text that are not quoted, where `close` is the distance from behind a quote to
the one that ends it.  A quote that is not ended quotes the rest of the text. -/
def outside (close : Sds → Option Nat) : Nat → Sds → List Bool
  | _, [] => []
  | k + 1, _ :: s => false :: outside close k s
  | 0, c :: s =>
      true :: outside close (if c = '\'' then ((close s).map (· + 1)).getD s.length else 0) s

/-- A quoted text ends at the next quote that is not escaped. -/
def plain (e : Sds) : List Bool := outside (unescaped '\'' false) 0 e

/-- The loop does not look at the first character. -/
def skips (s : Sds) : Option Nat := strNextUnescapedChr s '\''

/-- What the loop takes for not quoted. -/
def met (e : Sds) : List Bool := outside skips 0 e

/-! ## Edits -/

/-- What becomes of a character. -/
inductive Edit where
  | keep
  | double
  | tilde
  deriving DecidableEq, Repr

/-- A character in the text that is made. -/
def Edit.out : Edit → Char → Sds
  | .keep, c => [c]
  | .double, c => [c, '=']
  | .tilde, _ => ['~']

def edited (es : List Edit) (s : Sds) : Sds := (List.zipWith Edit.out es s).flatten

/-- The edits of a text that stands behind the character `p`, by a rule for a character and its
neighbours; what is quoted is kept. -/
def edits (rule : Option Char → Char → Option Char → Edit) : Option Char → Sds → List Bool → List Edit
  | p, c :: s, b :: bs => (if b then rule p c s.head? else .keep) :: edits rule (some c) s bs
  | _, _, _ => []

/-- An `=` that is no part of a longer operator. -/
def alone (p : Option Char) (c : Char) (n : Option Char) : Bool :=
  c == '=' && !p.any ['=', '!', '<', '>', '~'].contains && n != some '='

/-- `=` is `==` in Lua, and `!=` is `~=`. -/
def rightEdit (p : Option Char) (c : Char) (n : Option Char) : Edit :=
  if alone p c n then .double else if c = '!' ∧ n = some '=' then .tilde else .keep

/-- What should be compiled for an expression. -/
def translate (e : Sds) : Sds := edited (edits rightEdit none e (plain e)) e

/-- The edits of the loop; an `=` is skipped with the `!` before it. -/
def loopEdit (p : Option Char) (c : Char) (n : Option Char) : Edit :=
  if c = '!' ∧ n = some '=' then .tilde else if c = '=' ∧ p ≠ some '!' then .double else .keep

/-- The two copies: in `mexpr` no `=` is doubled, in `nexpr` no `!` is replaced. -/
def Edit.inMexpr : Edit → Edit
  | .double => .keep
  | e => e

def Edit.inNexpr : Edit → Edit
  | .tilde => .keep
  | e => e

/-! ## Words -/

/-- The words that the loop cuts out of a text that stands behind `p`; `cur` is the word that is
open.  A word stays open over `!=` and over quotes. -/
def names (p : Option Char) (cur : Option Sds) : Sds → List Sds
  | [] => cur.toList
  | c :: s =>
      if c = '!' ∧ s.head? = some '=' then names (some '=') (cur.map (· ++ ['~', '='])) (s.drop 1)
      else if c = '\'' then
        match skips s with
        | none => []
        | some d =>
            names ((c :: s.take (d + 1)).getLast?) (cur.map (· ++ c :: s.take (d + 1))) (s.drop (d + 1))
      else match cur with
        | some w =>
            if !c.isAlphanum ∧ c ≠ '.' then w :: names (some c) none s
            else names (some c) (some (w ++ [c])) s
        | none =>
            if c.isAlpha ∧ p.all luaDlms then names (some c) (some [c]) s else names (some c) none s
  termination_by s => s.length
  decreasing_by all_goals simp only [List.length_drop, List.length_cons]; omega

theorem names_unequal (p : Option Char) (cur : Option Sds) (s : Sds) :
    names p cur ('!' :: '=' :: s) = names (some '=') (cur.map (· ++ ['~', '='])) s := by
  rw [names.eq_def]
  simp

theorem names_quote (p : Option Char) (cur : Option Sds) (s : Sds) :
    names p cur ('\'' :: s) =
      match skips s with
      | none => []
      | some d => names (('\'' :: s.take (d + 1)).getLast?) (cur.map (· ++ '\'' :: s.take (d + 1)))
          (s.drop (d + 1)) := by
  rw [names.eq_def]
  simp

theorem names_open {c : Char} {s : Sds} (hne : ¬ (c = '!' ∧ s.head? = some '=')) (hq : c ≠ '\'')
    (p : Option Char) (w : Sds) : names p (some w) (c :: s) =
      if !c.isAlphanum ∧ c ≠ '.' then w :: names (some c) none s
      else names (some c) (some (w ++ [c])) s := by
  rw [names.eq_def]
  simp only [if_neg hne, if_neg hq]

theorem names_between {c : Char} {s : Sds} (hne : ¬ (c = '!' ∧ s.head? = some '=')) (hq : c ≠ '\'')
    (p : Option Char) : names p none (c :: s) =
      if c.isAlpha ∧ p.all luaDlms then names (some c) (some [c]) s else names (some c) none s := by
  rw [names.eq_def]
  simp only [if_neg hne, if_neg hq]

/-! ## One pass of the loop -/

/-- What has been read, and what the variables hold. -/
structure Sim (a s : Sds) (es : List Edit) (cur : Option Sds) (k : Scan) : Prop where
  size : es.length = a.length
  mexpr : k.mexpr = edited (es.map Edit.inMexpr) a ++ s
  fresh : k.nexpr = none → Edit.double ∉ es
  built : ∀ n, k.nexpr = some n → Edit.double ∈ es ∧ k.pleq ≤ a.length ∧
    n ++ a.drop k.pleq = edited (es.map Edit.inNexpr) a
  word : k.spot.map (edited (es.map Edit.inMexpr) a).drop = cur
  spot : ∀ i, k.spot = some i → i ≤ a.length
  last : (edited (es.map Edit.inMexpr) a).getLast? = a.getLast?

theorem edited_append {es es' : List Edit} {a b : Sds} (h : es.length = a.length) :
    edited (es ++ es') (a ++ b) = edited es a ++ edited es' b := by
  rw [edited, List.zipWith_append h, List.flatten_append]
  rfl

theorem edited_keep : ∀ x : Sds, edited (List.replicate x.length .keep) x = x
  | [] => rfl
  | c :: x => by
      have ih := edited_keep x
      rw [List.length_cons, List.replicate_succ, edited, List.zipWith_cons_cons, List.flatten_cons]
      exact congrArg (c :: ·) ih

/-- In place every edit keeps the length. -/
theorem length_mexpr : ∀ {l : List Edit} {a : Sds}, l.length = a.length →
    (edited (l.map Edit.inMexpr) a).length = a.length
  | [], [], _ => rfl
  | e :: es, c :: a, h => by
      have ih := length_mexpr (l := es) (a := a) (Nat.succ.inj h)
      have hone : (Edit.out e.inMexpr c).length = 1 := by cases e <;> rfl
      rw [List.map_cons, edited, List.zipWith_cons_cons, List.flatten_cons, List.length_append, hone]
      show 1 + (edited (es.map Edit.inMexpr) a).length = a.length + 1
      omega

/-- Without a doubled `=` nothing is edited in `nexpr`. -/
theorem edited_fresh : ∀ {l : List Edit} {a : Sds}, l.length = a.length → Edit.double ∉ l →
    edited (l.map Edit.inNexpr) a = a
  | [], [], _, _ => rfl
  | e :: es, c :: a, h, hd => by
      have ih := edited_fresh (l := es) (a := a) (Nat.succ.inj h) fun hm => hd (List.mem_cons_of_mem e hm)
      have hone : Edit.out e.inNexpr c = [c] := by
        cases e with
        | double => exact absurd List.mem_cons_self hd
        | keep | tilde => rfl
      rw [List.map_cons, edited, List.zipWith_cons_cons, List.flatten_cons, hone]
      exact congrArg (c :: ·) ih

section Step

variable {e a s x : Sds} {es : List Edit} {cur : Option Sds} {k : Scan}

theorem Sim.start (e : Sds) : Sim [] e [] none ⟨e, none, none, 0, []⟩ :=
  ⟨rfl, rfl, fun _ h => absurd h List.not_mem_nil, fun _ h => absurd h (by simp), rfl,
    fun _ h => absurd h (by simp), rfl⟩

/-- What is passed over is kept, and belongs to an open word. -/
theorem Sim.skip (S : Sim a (x ++ s) es cur k) :
    Sim (a ++ x) s (es ++ List.replicate x.length .keep) (cur.map (· ++ x)) k := by
  have hsize : ∀ f : Edit → Edit, (es.map f).length = a.length := fun f => by
    rw [List.length_map, S.size]
  have hpart : ∀ f : Edit → Edit, f Edit.keep = Edit.keep →
      edited ((es ++ List.replicate x.length Edit.keep).map f) (a ++ x) = edited (es.map f) a ++ x := by
    intro f hf
    rw [List.map_append, List.map_replicate, hf, edited_append (hsize f), edited_keep]
  refine ⟨by simp [S.size], ?_, fun h => ?_, fun n h => ?_, ?_, fun i h => ?_, ?_⟩
  · rw [hpart _ rfl, S.mexpr, List.append_assoc]
  · have hf := S.fresh h
    simpa [List.mem_append, List.mem_replicate] using hf
  · obtain ⟨h1, h2, h3⟩ := S.built n h
    refine ⟨List.mem_append_left _ h1, by rw [List.length_append]; omega, ?_⟩
    rw [hpart _ rfl, ← h3, List.drop_append_of_le_length h2, List.append_assoc]
  · rw [hpart _ rfl, ← S.word]
    cases hk : k.spot with
    | none => rfl
    | some i =>
        have hi := S.spot i hk
        rw [← length_mexpr S.size] at hi
        simp [List.drop_append_of_le_length hi]
  · rw [List.length_append]
    exact Nat.le_trans (S.spot i h) (Nat.le_add_right _ _)
  · rw [hpart _ rfl, List.getLast?_append, List.getLast?_append, S.last]

/-- The open word ends. -/
theorem Sim.close {w : Sds} (S : Sim a s es (some w) k) :
    ∃ i, k.spot = some i ∧ Sim a s es none (k.take i a.length) ∧
      (k.take i a.length).words = k.words ++ [w] := by
  obtain ⟨i, hi, hw⟩ := Option.map_eq_some_iff.1 S.word
  have hlen := length_mexpr S.size
  have hle := S.spot i hi
  refine ⟨i, hi, ⟨S.size, S.mexpr, S.fresh, S.built, rfl, fun _ h => absurd h (by simp [Scan.take]), S.last⟩, ?_⟩
  show k.words ++ [(k.mexpr.drop i).take (a.length - i)] = _
  rw [S.mexpr, List.drop_append_of_le_length (by omega), hw, List.take_left']
  rw [← hw, List.length_drop, hlen]

/-- A word begins. -/
theorem Sim.begin {c : Char} (S : Sim a (c :: s) es none k) :
    Sim (a ++ [c]) s (es ++ [.keep]) (some [c]) { k with spot := some a.length } := by
  have T := Sim.skip (x := [c]) (s := s) (by simpa using S)
  have hlen := length_mexpr S.size
  refine ⟨T.size, T.mexpr, T.fresh, T.built, ?_, ?_, T.last⟩
  · show some _ = _
    have hsize : (es.map Edit.inMexpr).length = a.length := by rw [List.length_map, S.size]
    rw [List.map_append, edited_append hsize]
    exact congrArg some (List.drop_left' hlen)
  · rintro i ⟨⟩
    simp

/-- An `=` is doubled, between words. -/
theorem Sim.equals (S : Sim a ('=' :: s) es none k) (he : e = a ++ '=' :: s) :
    Sim (a ++ ['=']) s (es ++ [.double]) none (k.equals e a.length) := by
  have hsize : ∀ f : Edit → Edit, (es.map f).length = a.length := fun f => by
    rw [List.length_map, S.size]
  have hspot : k.spot = none := Option.map_eq_none_iff.1 S.word
  have hbuilt : ∀ n, (k.equals e a.length).nexpr = some n →
      n = edited (es.map Edit.inNexpr) a ++ ['=', '='] := by
    rintro n ⟨⟩
    cases hk : k.nexpr with
    | none =>
        simp only
        rw [edited_fresh S.size (S.fresh hk), he, List.take_length_add_append]
        simp
    | some n =>
        obtain ⟨-, h2, h3⟩ := S.built n hk
        simp only
        rw [← h3, he, List.drop_append_of_le_length h2]
        have hl : (a.drop k.pleq ++ '=' :: s).take (a.length - k.pleq + 1) = a.drop k.pleq ++ ['='] := by
          rw [show a.length - k.pleq + 1 = (a.drop k.pleq).length + 1 by rw [List.length_drop],
            List.take_length_add_append]
          rfl
        rw [hl]
        simp
  refine ⟨by simp [S.size], ?_, fun h => absurd h (by simp [Scan.equals]), fun n h => ⟨?_, ?_, ?_⟩, ?_, ?_,
    ?_⟩
  · show k.mexpr = _
    rw [S.mexpr, List.map_append, edited_append (hsize _), List.append_assoc]
    rfl
  · simp
  · simp [Scan.equals]
  · rw [hbuilt n h, List.map_append, edited_append (hsize _)]
    simp [Scan.equals, edited, Edit.inNexpr, Edit.out]
  · show k.spot.map _ = none
    rw [hspot]
    rfl
  · intro i h
    rw [show (k.equals e a.length).spot = k.spot from rfl, hspot] at h
    cases h
  · rw [List.map_append, edited_append (hsize _)]
    simp [edited, Edit.inMexpr, Edit.out]

/-- `!=` is replaced in place. -/
theorem Sim.unequal (S : Sim a ('!' :: '=' :: s) es cur k) :
    Sim (a ++ ['!', '=']) s (es ++ [.tilde, .keep]) (cur.map (· ++ ['~', '=']))
      { k with mexpr := k.mexpr.set a.length '~' } := by
  have hsize : ∀ f : Edit → Edit, (es.map f).length = a.length := fun f => by
    rw [List.length_map, S.size]
  have hlen := length_mexpr S.size
  have hM : edited ((es ++ [Edit.tilde, Edit.keep]).map Edit.inMexpr) (a ++ ['!', '=']) =
      edited (es.map Edit.inMexpr) a ++ ['~', '='] := by
    rw [List.map_append, edited_append (hsize _)]
    rfl
  refine ⟨by simp [S.size], ?_, fun h => ?_, fun n h => ⟨?_, ?_, ?_⟩, ?_, fun i h => ?_, ?_⟩
  · show k.mexpr.set a.length '~' = _
    rw [S.mexpr, hM, List.set_append_right _ _ (by omega), hlen, Nat.sub_self]
    simp
  · have hf := S.fresh h
    simpa using hf
  · exact List.mem_append_left _ (S.built n h).1
  · have := (S.built n h).2.1
    rw [List.length_append]
    show k.pleq ≤ _
    omega
  · obtain ⟨-, h2, h3⟩ := S.built n h
    show n ++ (a ++ ['!', '=']).drop k.pleq = _
    rw [List.map_append, edited_append (hsize _), ← h3, List.drop_append_of_le_length h2,
      List.append_assoc]
    rfl
  · show k.spot.map _ = _
    rw [hM, ← S.word]
    cases hk : k.spot with
    | none => rfl
    | some i =>
        have hi := S.spot i hk
        rw [← hlen] at hi
        simp [List.drop_append_of_le_length hi]
  · rw [List.length_append]
    exact Nat.le_trans (S.spot i h) (Nat.le_add_right _ _)
  · rw [hM]
    simp

theorem Sim.at (S : Sim a s es cur k) (j : Nat) : k.mexpr[a.length + j]? = s[j]? := by
  rw [S.mexpr, List.getElem?_append_right (by rw [length_mexpr S.size]; omega), length_mexpr S.size,
    Nat.add_sub_cancel_left]

theorem Sim.rest (S : Sim a s es cur k) (j : Nat) : k.mexpr.drop (a.length + j) = s.drop j := by
  rw [S.mexpr, ← List.drop_drop, List.drop_left' (length_mexpr S.size)]

end Step

/-! ## The loop -/

/-- A stretch that is passed over is kept. -/
theorem edits_skip (rule : Option Char → Char → Option Char → Edit) (close : Sds → Option Nat)
    (s : Sds) : ∀ (p : Option Char) (x : Sds),
      edits rule p (x ++ s) (outside close x.length (x ++ s)) =
        List.replicate x.length .keep ++ edits rule (p.toList ++ x).getLast? s (outside close 0 s)
  | p, [] => by cases p <;> rfl
  | p, c :: x => by
      rw [List.cons_append, List.length_cons, outside, edits, if_neg (by decide), edits_skip rule close s,
        List.replicate_succ, List.cons_append]
      have hlast : ((some c).toList ++ x).getLast? = (p.toList ++ c :: x).getLast? := by
        rw [List.getLast?_append_cons]
        rfl
      rw [hlast]

/-- The character that the loop looks at before a word. -/
theorem Sim.before {a s : Sds} {es : List Edit} {cur : Option Sds} {k : Scan} (S : Sim a s es cur k) :
    (a.length = 0 ∨ (k.mexpr[a.length - 1]?).any luaDlms = true) ↔ a.getLast?.all luaDlms = true := by
  have hlen := length_mexpr S.size
  rcases List.eq_nil_or_concat a with rfl | ⟨a, d, rfl⟩
  · simp
  · rw [List.concat_eq_append] at *
    have hpos : (a ++ [d]).length - 1 < (edited (es.map Edit.inMexpr) (a ++ [d])).length := by
      rw [hlen]
      simp
    have hlast := S.last
    rw [List.getLast?_eq_getElem?, hlen] at hlast
    rw [S.mexpr, List.getElem?_append_left hpos, hlast]
    simp

theorem skips_lt {s : Sds} {d : Nat} (h : skips s = some d) : d < s.length := by
  have := List.mem_of_find?_eq_some h
  simpa using this

/-- A quoted text ends with a quote. -/
theorem skips_last {s : Sds} {d : Nat} (h : skips s = some d) :
    ('\'' :: s.take (d + 1)).getLast? = some '\'' := by
  have hlt := skips_lt h
  have hd := List.find?_some h
  simp only [Bool.and_eq_true, beq_iff_eq] at hd
  rw [List.take_add_one, hd.1.2, ← List.cons_append, Option.toList_some, List.getLast?_concat]

/-- What the loop leaves of an expression, from a place on. -/
def Leaves (e : Sds) (n : Nat) (a s : Sds) (es : List Edit) (cur : Option Sds) (k : Scan) : Prop :=
  ∃ cur', Sim e [] (es ++ edits loopEdit a.getLast? s (outside skips 0 s)) cur' (scan e n a.length k) ∧
    (scan e n a.length k).words ++ cur'.toList = k.words ++ names a.getLast? cur s

section Cases

variable {e a s : Sds} {es : List Edit} {cur : Option Sds} {k : Scan} {n : Nat} {c : Char}

theorem leaves_end (S : Sim e [] es cur k) : Leaves e n e [] es cur k := by
  have hscan : scan e n e.length k = k := by
    cases n with
    | zero => rfl
    | succ n =>
        have hat := S.at 0
        rw [Nat.add_zero] at hat
        rw [scan, hat]
        rfl
  rw [Leaves, hscan, names]
  exact ⟨cur, by simpa [edits, outside] using S, rfl⟩

/-- Both characters of `!=` are read at once. -/
theorem leaves_unequal (S : Sim a ('!' :: '=' :: s) es cur k)
    (ih : Leaves e n (a ++ ['!', '=']) s (es ++ [.tilde, .keep]) (cur.map (· ++ ['~', '=']))
      { k with mexpr := k.mexpr.set a.length '~' }) : Leaves e (n + 1) a ('!' :: '=' :: s) es cur k := by
  have hat := S.at 0
  have hat1 := S.at 1
  rw [Nat.add_zero, List.getElem?_cons_zero] at hat
  rw [List.getElem?_cons_succ, List.getElem?_cons_zero] at hat1
  have hscan : scan e (n + 1) a.length k =
      scan e n (a.length + 2) { k with mexpr := k.mexpr.set a.length '~' } := by
    rw [scan, hat]
    exact if_pos ⟨rfl, hat1⟩
  have hlen : (a ++ ['!', '=']).length = a.length + 2 := by simp
  have hlast : (a ++ ['!', '=']).getLast? = some '=' := by simp
  have hedits : edits loopEdit a.getLast? ('!' :: '=' :: s) (outside skips 0 ('!' :: '=' :: s)) =
      [.tilde, .keep] ++ edits loopEdit (some '=') s (outside skips 0 s) := by
    simp [outside, edits, loopEdit]
  rw [Leaves, hlen, hlast] at ih
  rw [Leaves, hscan, hedits, ← List.append_assoc, names_unequal]
  exact ih

/-- The step of the loop at any other character. -/
theorem scan_other (S : Sim a (c :: s) es cur k) (hne : ¬ (c = '!' ∧ s.head? = some '=')) :
    scan e (n + 1) a.length k =
      if c = '\'' then
        match skips s with
        | none => { k with spot := none }
        | some d => scan e n (a.length + d + 2) k
      else
        match k.spot with
        | some i =>
            if !c.isAlphanum ∧ c ≠ '.' then
              scan e n (a.length + 1) ((if c = '=' then k.equals e a.length else k).take i a.length)
            else scan e n (a.length + 1) (if c = '=' then k.equals e a.length else k)
        | none =>
            if c.isAlpha ∧ a.getLast?.all luaDlms then scan e n (a.length + 1) { k with spot := some a.length }
            else scan e n (a.length + 1) (if c = '=' then k.equals e a.length else k) := by
  have hat := S.at 0
  have hat1 := S.at 1
  have hrest := S.rest 1
  rw [Nat.add_zero, List.getElem?_cons_zero] at hat
  rw [List.getElem?_cons_succ, ← List.head?_eq_getElem?] at hat1
  rw [List.drop_succ_cons, List.drop_zero] at hrest
  rw [scan, hat]
  simp only [hat1, if_neg hne]
  by_cases hq : c = '\''
  · subst hq
    rw [if_pos rfl, if_pos rfl, if_neg (by decide), hrest]
    rfl
  · have hspot : (if c = '=' then k.equals e a.length else k).spot = k.spot := by
      split <;> rfl
    have hmexpr : (if c = '=' then k.equals e a.length else k).mexpr = k.mexpr := by
      split <;> rfl
    rw [if_neg hq, if_neg hq, hspot, hmexpr]
    cases k.spot with
    | some i => rfl
    | none =>
        simp only [S.before]
        by_cases hc : c = '='
        · subst hc
          have halpha : '='.isAlpha = false := by decide
          simp [halpha]
        · simp only [if_neg hc]

/-- A quote that is not ended ends the loop. -/
theorem leaves_unended (he : e = a ++ '\'' :: s) (S : Sim a ('\'' :: s) es cur k) (hd : skips s = none) :
    Leaves e (n + 1) a ('\'' :: s) es cur k := by
  have T := Sim.skip (s := []) (by rw [List.append_nil]; exact S)
  have hedits : edits loopEdit a.getLast? ('\'' :: s) (outside skips 0 ('\'' :: s)) =
      List.replicate (s.length + 1) .keep := by
    have h := edits_skip loopEdit skips [] (some '\'') s
    rw [List.append_nil] at h
    rw [outside, edits, if_pos rfl, if_pos rfl, hd, Option.map_none, Option.getD_none, h,
      List.replicate_succ]
    simp [edits, loopEdit]
  rw [← he, List.length_cons] at T
  rw [Leaves, scan_other S (fun h => absurd h.1 (by decide)), if_pos rfl, hd, hedits, names_quote, hd]
  exact ⟨none, ⟨T.size, T.mexpr, T.fresh, T.built, rfl, (fun _ h => by cases h), T.last⟩, by simp⟩

/-- What stands between quotes is passed over. -/
theorem leaves_quoted {d : Nat} (S : Sim a ('\'' :: s) es cur k) (hd : skips s = some d)
    (ih : Leaves e n (a ++ '\'' :: s.take (d + 1)) (s.drop (d + 1)) (es ++ List.replicate (d + 2) .keep)
      (cur.map (· ++ '\'' :: s.take (d + 1))) k) : Leaves e (n + 1) a ('\'' :: s) es cur k := by
  have hlt := skips_lt hd
  have hsplit : s = s.take (d + 1) ++ s.drop (d + 1) := (List.take_append_drop _ _).symm
  have htake : (s.take (d + 1)).length = d + 1 := by
    rw [List.length_take]
    omega
  have hlen : (a ++ '\'' :: s.take (d + 1)).length = a.length + d + 2 := by
    rw [List.length_append, List.length_cons, htake]
    omega
  have hkeep : loopEdit a.getLast? '\'' s.head? = .keep := by simp [loopEdit]
  have hedits : edits loopEdit a.getLast? ('\'' :: s) (outside skips 0 ('\'' :: s)) =
      List.replicate (d + 2) .keep ++ edits loopEdit ('\'' :: s.take (d + 1)).getLast?
        (s.drop (d + 1)) (outside skips 0 (s.drop (d + 1))) := by
    have h := edits_skip loopEdit skips (s.drop (d + 1)) (some '\'') (s.take (d + 1))
    rw [htake, ← hsplit] at h
    rw [outside, edits, if_pos rfl, hkeep, if_pos rfl, hd, Option.map_some, Option.getD_some, h,
      List.replicate_succ]
    rfl
  rw [Leaves, hlen, List.getLast?_append_cons] at ih
  rw [Leaves, scan_other S (fun h => absurd h.1 (by decide)), if_pos rfl, hd, hedits, ← List.append_assoc,
    names_quote, hd]
  exact ih

theorem leaves_next {x : Edit} {k' : Scan} (ih : Leaves e n (a ++ [c]) s (es ++ [x]) cur k') :
    ∃ cur', Sim e [] (es ++ x :: edits loopEdit (some c) s (outside skips 0 s)) cur'
        (scan e n (a.length + 1) k') ∧
      (scan e n (a.length + 1) k').words ++ cur'.toList = k'.words ++ names (some c) cur s := by
  have hlen : (a ++ [c]).length = a.length + 1 := by simp
  have hlast : (a ++ [c]).getLast? = some c := by simp
  rw [Leaves, hlen, hlast, List.append_assoc] at ih
  exact ih

theorem edits_other (hq : c ≠ '\'') : edits loopEdit a.getLast? (c :: s) (outside skips 0 (c :: s)) =
    loopEdit a.getLast? c s.head? :: edits loopEdit (some c) s (outside skips 0 s) := by
  rw [outside, if_neg hq, edits, if_pos rfl]

/-- An `=` ends an open word, and is doubled. -/
theorem leaves_equals (he : e = a ++ '=' :: s) (hb : a.getLast? ≠ some '!') (S : Sim a ('=' :: s) es cur k)
    (ih : ∀ k', Sim (a ++ ['=']) s (es ++ [.double]) none k' →
      Leaves e n (a ++ ['=']) s (es ++ [.double]) none k') : Leaves e (n + 1) a ('=' :: s) es cur k := by
  have hne : ¬ ('=' = '!' ∧ s.head? = some '=') := fun h => absurd h.1 (by decide)
  have hq : '=' ≠ '\'' := by decide
  have hedit : loopEdit a.getLast? '=' s.head? = .double := by simp [loopEdit, hb]
  have hk : (if '=' = '=' then k.equals e a.length else k) = k.equals e a.length := if_pos rfl
  rw [Leaves, scan_other S hne, if_neg hq, hk, edits_other hq, hedit]
  cases cur with
  | none =>
      have hspot : k.spot = none := Option.map_eq_none_iff.1 S.word
      have hno : ¬ ('='.isAlpha = true ∧ a.getLast?.all luaDlms = true) := fun h => absurd h.1 (by decide)
      rw [hspot, names_between hne hq, if_neg hno]
      dsimp only
      rw [if_neg hno]
      exact leaves_next (ih _ (S.equals he))
  | some w =>
      obtain ⟨i, hi, S₁, hw₁⟩ := S.close
      have hstop : (! '='.isAlphanum) = true ∧ '=' ≠ '.' := by decide
      obtain ⟨cur', T, hw⟩ := leaves_next (ih _ (S₁.equals he))
      rw [hi, names_open hne hq, if_pos hstop]
      dsimp only
      rw [if_pos hstop]
      refine ⟨cur', T, hw.trans ?_⟩
      show (k.take i a.length).words ++ _ = _
      rw [hw₁, List.append_assoc]
      rfl

/-- Any other character is kept. -/
theorem leaves_char (hne : ¬ (c = '!' ∧ s.head? = some '=')) (hq : c ≠ '\'') (hc : c ≠ '=')
    (S : Sim a (c :: s) es cur k)
    (ih : ∀ cur k', Sim (a ++ [c]) s (es ++ [.keep]) cur k' →
      Leaves e n (a ++ [c]) s (es ++ [.keep]) cur k') : Leaves e (n + 1) a (c :: s) es cur k := by
  have hedit : loopEdit a.getLast? c s.head? = .keep := by simp [loopEdit, hne, hc]
  rw [Leaves, scan_other S hne, if_neg hq, edits_other hq, hedit]
  simp only [if_neg hc]
  cases cur with
  | none =>
      have hspot : k.spot = none := Option.map_eq_none_iff.1 S.word
      rw [hspot, names_between hne hq]
      simp only
      by_cases hbegin : c.isAlpha = true ∧ a.getLast?.all luaDlms = true
      · rw [if_pos hbegin, if_pos hbegin]
        exact leaves_next (ih _ _ S.begin)
      · rw [if_neg hbegin, if_neg hbegin]
        exact leaves_next (ih _ _ (Sim.skip (x := [c]) S))
  | some w =>
      obtain ⟨i, hi, S₁, hw₁⟩ := S.close
      rw [hi, names_open hne hq]
      simp only
      by_cases hend : (!c.isAlphanum) = true ∧ c ≠ '.'
      · rw [if_pos hend, if_pos hend]
        obtain ⟨cur', T, hw⟩ := leaves_next (ih _ _ (Sim.skip (x := [c]) S₁))
        refine ⟨cur', T, hw.trans ?_⟩
        rw [hw₁, List.append_assoc]
        rfl
      · rw [if_neg hend, if_neg hend]
        exact leaves_next (ih _ _ (Sim.skip (x := [c]) S))

end Cases

/-- The loop, from a place on: it makes the edits, and cuts out the words. -/
theorem scan_sim {e : Sds} : ∀ (n : Nat) {a s : Sds} {es : List Edit} {cur : Option Sds} {k : Scan},
    e = a ++ s → s.length ≤ n → (a.getLast? = some '!' → s.head? ≠ some '=') → Sim a s es cur k →
      Leaves e n a s es cur k := by
  intro n
  induction n with
  | zero =>
      intro a s es cur k he hn _ S
      obtain rfl : s = [] := List.length_eq_zero_iff.1 (Nat.le_zero.1 hn)
      obtain rfl : e = a := by rw [he, List.append_nil]
      exact leaves_end S
  | succ n ih =>
      intro a s es cur k he hn hb S
      cases s with
      | nil =>
          obtain rfl : e = a := by rw [he, List.append_nil]
          exact leaves_end S
      | cons c s =>
          rw [List.length_cons] at hn
          have heq : e = a ++ [c] ++ s := by rw [he]; simp
          by_cases hne : c = '!' ∧ s.head? = some '='
          · obtain ⟨rfl, hs⟩ := hne
            obtain ⟨s, rfl⟩ : ∃ s', s = '=' :: s' := by
              cases s with
              | nil => cases hs
              | cons d s => exact ⟨s, by rw [Option.some.inj hs]⟩
            rw [List.length_cons] at hn
            exact leaves_unequal S (ih (by rw [he]; simp) (by omega) (by simp) S.unequal)
          by_cases hq : c = '\''
          · subst hq
            cases hd : skips s with
            | none => exact leaves_unended he S hd
            | some d =>
                have hlt := skips_lt hd
                have hsplit : s = s.take (d + 1) ++ s.drop (d + 1) := (List.take_append_drop _ _).symm
                have T := Sim.skip (x := '\'' :: s.take (d + 1)) (s := s.drop (d + 1))
                  (by rw [List.cons_append, ← hsplit]; exact S)
                rw [List.length_cons, List.length_take_of_le (by omega)] at T
                refine leaves_quoted S hd (ih ?_ (by rw [List.length_drop]; omega) ?_ T)
                · rw [he, List.append_assoc, List.cons_append, ← hsplit]
                · rw [List.getLast?_append_cons, skips_last hd]
                  simp
          have hnext : (a ++ [c]).getLast? = some '!' → s.head? ≠ some '=' := by
            rw [List.getLast?_concat]
            exact fun h h' => hne ⟨Option.some.inj h, h'⟩
          by_cases hc : c = '='
          · subst hc
            exact leaves_equals he (fun h => hb h rfl) S fun k' T => ih heq (by omega) hnext T
          · exact leaves_char hne hq hc S fun cur k' T => ih heq (by omega) hnext T

/-- The whole loop. -/
theorem scan_whole (e : Sds) :
    ∃ cur', Sim e [] (edits loopEdit none e (met e)) cur' (scan e e.length 0 ⟨e, none, none, 0, []⟩) ∧
      (scan e e.length 0 ⟨e, none, none, 0, []⟩).words ++ cur'.toList = names none none e := by
  obtain ⟨cur', S, hw⟩ := scan_sim (a := []) e.length rfl (Nat.le_refl _) (by simp) (Sim.start e)
  exact ⟨cur', S, hw⟩

/-- The words of an expression. -/
theorem scanExpr_words (e : Sds) : (scanExpr e).words = names none none e := by
  obtain ⟨cur', S, hw⟩ := scan_whole e
  refine Eq.trans ?_ hw
  unfold scanExpr
  dsimp only
  cases cur' with
  | none =>
      rw [Option.map_eq_none_iff.1 S.word]
      simp
  | some w =>
      have hlen := length_mexpr S.size
      have hmexpr := S.mexpr
      rw [List.append_nil] at hmexpr
      obtain ⟨i, hi, hd⟩ := Option.map_eq_some_iff.1 S.word
      rw [hi]
      show _ ++ [(List.drop i _).take (e.length - i)] = _
      rw [hmexpr, hd, List.take_of_length_le]
      · rfl
      · rw [← hd, List.length_drop, hlen]

/-- What is compiled: `nexpr` where an `=` was doubled, else `mexpr`. -/
theorem body_eq (e : Sds) :
    body e = edited ((edits loopEdit none e (met e)).map
      (if Edit.double ∈ edits loopEdit none e (met e) then Edit.inNexpr else Edit.inMexpr)) e := by
  obtain ⟨cur', S, -⟩ := scan_whole e
  have hk : (scanExpr e).mexpr = (scan e e.length 0 ⟨e, none, none, 0, []⟩).mexpr ∧
      (scanExpr e).nexpr = (scan e e.length 0 ⟨e, none, none, 0, []⟩).nexpr ∧
      (scanExpr e).pleq = (scan e e.length 0 ⟨e, none, none, 0, []⟩).pleq := by
    unfold scanExpr
    dsimp only
    split <;> exact ⟨rfl, rfl, rfl⟩
  unfold body
  dsimp only
  rw [hk.1, hk.2.1, hk.2.2]
  cases hn : (scan e e.length 0 ⟨e, none, none, 0, []⟩).nexpr with
  | none =>
      have hm := S.mexpr
      rw [List.append_nil] at hm
      rw [if_neg (S.fresh hn)]
      exact hm
  | some n =>
      obtain ⟨hd, -, hb⟩ := S.built n hn
      rw [if_pos hd]
      exact hb

end AlchemyDB.Lua
