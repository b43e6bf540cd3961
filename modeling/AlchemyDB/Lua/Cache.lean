/-
# The cache of compiled expressions

`DynLuaD` is asked before the table is looked at, and what it holds are column
numbers of the table an expression was first compiled for.  The cache answers as
a fresh compilation does as long as every word of an expression names the same
column each time; the assertion on entering a new expression never fires.
-/
import AlchemyDB.Lua.Compile

namespace AlchemyDB.Lua

open Catalog Text

variable {h : Host} {w w₀ : World} {t t₀ n m : Nat} {e : Sds} {s s' : Cache} {le : Lue}

/-! ## Sessions -/

/-- The arguments, and the locals of the function that they are bound to. -/
def Cache.bound (s : Cache) (le : Lue) : Option (List Sds) × List Arg :=
  ((s.globals.lookup le.fname).map Chunk.locals, le.as)

/-- What `checkOrCr8LFunc` yields: no function, or a list of arguments bound to names. -/
def answer (x : Except Fault (Option Lue × Cache)) :
    Except Fault (Option (Option (List Sds) × List Arg)) :=
  x.map fun r => r.1.map r.2.bound

/-- One call of `checkOrCr8LFunc`, for a table. -/
structure Call where
  world : World
  tmatch : Nat
  expr : Sds

/-- The catalog, the cache, and the calls that were made. -/
structure Sess where
  cat : Cat
  cache : Cache
  past : List Call

inductive Cmd where
  | ddl (c : Cat.Cmd)
  | compile (tmatch : Option Nat) (expr : Sds) (simpUniq : Nat → Bool) (defined : Sds → Bool)

/-- The call, when the command makes one. -/
def Cmd.call (c : Cat) : Cmd → Option Call
  | .ddl _ => none
  | .compile tmatch expr simpUniq defined =>
      tmatch.map fun t => ⟨⟨c, simpUniq, defined⟩, t, expr⟩

def Sess.exec (h : Host) (s : Sess) : Cmd → Except Fault Sess
  | .ddl c => do
      let cat ← s.cat.step c
      .ok { s with cat }
  | .compile tmatch expr simpUniq defined => do
      let r ← checkOrCr8LFunc h ⟨s.cat, simpUniq, defined⟩ s.cache tmatch expr
      .ok ⟨s.cat, r.2, s.past ++ (Cmd.call s.cat (.compile tmatch expr simpUniq defined)).toList⟩

inductive Run (h : Host) (ntbl nindx : Nat) : Sess → Prop where
  | start : Run h ntbl nindx ⟨Cat.init ntbl nindx, Cache.init, []⟩
  | step {s s' : Sess} {c : Cmd} : Run h ntbl nindx s → s.exec h c = .ok s' → Run h ntbl nindx s'

/-- The call reaches the cache: the expression is no call of a defined function. -/
def Call.searches (c : Call) : Prop := checkExprIsFunc c.world c.tmatch c.expr = .ok none

/-- Lua takes the function that is compiled for the call. -/
def Call.loads (h : Host) (c : Call) : Prop :=
  ∃ r, compile h c.world c.tmatch c.expr = .ok r ∧ h.loads r.1.text = true

/-- Every word of the expression names the same column for both calls. -/
def Call.sameColumns (c c₀ : Call) : Prop :=
  ∀ x ∈ (scanExpr c.expr).words, findColumnSds c.world c.tmatch x = findColumnSds c₀.world c₀.tmatch x

/-- An expression that was compiled before names the columns that it named then. -/
def Steady (h : Host) (s : Sess) (cmd : Cmd) : Prop :=
  ∀ c ∈ cmd.call s.cat, c.searches →
    ∀ c₀ ∈ s.past, c₀.expr = c.expr → c₀.searches → c₀.loads h → c.sameColumns c₀

/-! ## Compilation -/

theorem any_name_false {colD : ColD} {x : Sds} (hx : ¬ colD.any (fun e => e.1 == x) = true) (f : Found) :
    addCol colD x f = .ok (colD ++ [(x, f)]) := by
  rw [addCol, if_neg hx]

/-- The assertions on `colD` hold. -/
theorem addWord_ok (w : World) (t : Nat) (colD : ColD) (x : Sds) :
    ∃ colD', addWord w t colD x = .ok colD' := by
  unfold addWord
  cases findColumnSds w t x with
  | none => exact ⟨_, rfl⟩
  | some f =>
      dsimp only
      split
      · exact ⟨_, rfl⟩
      · rename_i hx
        unfold addCnameToCdict
        split
        · dsimp only
          split
          · exact ⟨_, rfl⟩
          · rename_i hcn
            exact ⟨_, any_name_false hcn f⟩
        · exact ⟨_, any_name_false hx f⟩

theorem addWords_ok (w : World) (t : Nat) : ∀ (ws : List Sds) (colD : ColD),
    ∃ colD', addWords w t colD ws = .ok colD'
  | [], colD => ⟨colD, rfl⟩
  | x :: ws, colD => by
      obtain ⟨colD₁, h₁⟩ := addWord_ok w t colD x
      obtain ⟨colD₂, h₂⟩ := addWords_ok w t ws colD₁
      exact ⟨colD₂, by rw [addWords, h₁]; exact h₂⟩

theorem compile_ok (h : Host) (w : World) (t : Nat) (e : Sds) : ∃ r, compile h w t e = .ok r := by
  obtain ⟨colD, hc⟩ := addWords_ok w t (scanExpr e).words []
  exact ⟨_, by rw [compile, hc]; rfl⟩

theorem addWords_congr : ∀ {ws : List Sds} {colD : ColD},
    (∀ x ∈ ws, findColumnSds w t x = findColumnSds w₀ t₀ x) →
      addWords w t colD ws = addWords w₀ t₀ colD ws
  | [], _, _ => rfl
  | x :: ws, colD, hw => by
      have hx : addWord w t colD x = addWord w₀ t₀ colD x := by
        unfold addWord
        rw [hw x List.mem_cons_self]
      rw [addWords, addWords, hx]
      cases addWord w₀ t₀ colD x with
      | error _ => rfl
      | ok colD' => exact addWords_congr fun y hy => hw y (List.mem_cons_of_mem _ hy)

/-- The table matters through the columns that the words name, and in no other way. -/
theorem compile_congr (hw : ∀ x ∈ (scanExpr e).words, findColumnSds w t x = findColumnSds w₀ t₀ x) :
    compile h w t e = compile h w₀ t₀ e := by
  rw [compile, compile, addWords_congr hw]

/-! ## The three ways of a call -/

theorem check_func (hf : checkExprIsFunc w t e = .ok (some le)) :
    checkOrCr8LFunc h w s (some t) e = .ok (some le, s) := by
  simp only [checkOrCr8LFunc, hf]
  rfl

theorem check_fault {f : Fault} (hf : checkExprIsFunc w t e = .error f) :
    checkOrCr8LFunc h w s (some t) e = .error f := by
  simp only [checkOrCr8LFunc, hf]
  rfl

theorem check_hit (hf : checkExprIsFunc w t e = .ok none) (hit : s.fetch e = some le) :
    checkOrCr8LFunc h w s (some t) e = .ok (some le, s) := by
  simp only [checkOrCr8LFunc, hf, hit]
  rfl

/-- The cache after an expression was compiled. -/
def Cache.saved (s : Cache) (e : Sds) (r : Chunk × List Arg) : Cache :=
  ⟨s.dynLuaD ++ [(e, ⟨lufName (s.nfuncn + 1), r.2⟩)],
    (lufName (s.nfuncn + 1), r.1) :: s.globals, s.nfuncn + 1⟩

theorem check_miss {r : Chunk × List Arg} (hf : checkExprIsFunc w t e = .ok none)
    (miss : s.fetch e = none) (hc : compile h w t e = .ok r) :
    checkOrCr8LFunc h w s (some t) e =
      if h.loads r.1.text = true then .ok (some ⟨lufName (s.nfuncn + 1), r.2⟩, s.saved e r)
      else .ok (none, { s with nfuncn := s.nfuncn + 1 }) := by
  have hsave : (⟨s.dynLuaD, (lufName (s.nfuncn + 1), r.1) :: s.globals, s.nfuncn + 1⟩ : Cache).save e
      ⟨lufName (s.nfuncn + 1), r.2⟩ = .ok (s.saved e r) := by
    have : (s.dynLuaD.lookup e).isSome = false := by
      rw [show s.dynLuaD.lookup e = none from miss]
      rfl
    simp [Cache.save, Cache.fetch, this, Cache.saved]
  simp only [checkOrCr8LFunc, hf, miss, hc, bind, Except.bind, hsave]

/-! ## The assertion -/

/-- A computation that fails only by following a null pointer. -/
def OnlySegv {α : Type} (x : Except Fault α) : Prop := ∀ f, x = .error f → f = .segv

theorem onlySegv_ok {α : Type} (a : α) : OnlySegv (.ok a : Except Fault α) := by
  intro f hf
  cases hf

theorem onlySegv_segv {α : Type} : OnlySegv (.error .segv : Except Fault α) := by
  intro f hf
  cases hf
  rfl

theorem OnlySegv.bind {α β : Type} {x : Except Fault α} {g : α → Except Fault β} (hx : OnlySegv x)
    (hg : ∀ a, OnlySegv (g a)) : OnlySegv (x >>= g) := by
  cases x with
  | error f => rw [hx f rfl]; exact onlySegv_segv
  | ok a => exact hg a

theorem afterParens_onlySegv : ∀ (n : Nat) (parens : Int) (p : Sds), OnlySegv (afterParens n parens p)
  | 0, _, _ => onlySegv_ok _
  | _ + 1, _, [] => onlySegv_ok _
  | n + 1, parens, c :: p => by
      unfold afterParens
      split
      · split
        · split
          · exact onlySegv_ok _
          · exact onlySegv_segv
        · split
          · exact onlySegv_ok _
          · exact afterParens_onlySegv n _ _
      · split
        · exact onlySegv_ok _
        · exact afterParens_onlySegv n _ _

theorem getNextNonparanedComma_onlySegv (tkn : Sds) : OnlySegv (getNextNonparanedComma tkn) := by
  unfold getNextNonparanedComma
  dsimp only
  split
  · exact onlySegv_segv
  · split
    · exact onlySegv_ok _
    · split
      · exact onlySegv_ok _
      · split
        · refine (afterParens_onlySegv _ _ _).bind fun y => ?_
          cases y <;> exact onlySegv_ok _
        · exact onlySegv_ok _

theorem parseCommaList_onlySegv (w : World) (t : Nat) : ∀ (n : Nat) (prev tkn : Sds) (as : List Arg),
    OnlySegv (parseCommaList w t n prev tkn as)
  | 0, _, _, _ => onlySegv_ok _
  | n + 1, prev, tkn, as => by
      unfold parseCommaList
      dsimp only
      refine (getNextNonparanedComma_onlySegv _).bind fun nextc => ?_
      cases nextc with
      | none =>
          dsimp only
          split
          · exact onlySegv_ok _
          · split <;> exact onlySegv_ok _
      | some nextc =>
          dsimp only
          split
          · split
            · exact onlySegv_ok _
            · split <;> exact onlySegv_ok _
          · split
            · exact onlySegv_ok _
            · exact parseCommaList_onlySegv w t n _ _ _

theorem isLuaFunc_onlySegv (e : Sds) : OnlySegv (isLuaFunc e) := by
  unfold isLuaFunc
  split
  · exact onlySegv_ok _
  · split
    · exact onlySegv_ok _
    · refine (afterParens_onlySegv _ _ _).bind fun r => ?_
      cases r with
      | none => exact onlySegv_ok _
      | some r =>
          dsimp only
          split
          · exact onlySegv_ok _
          · split
            · exact onlySegv_ok _
            · split
              · exact onlySegv_ok _
              · split
                · exact onlySegv_ok _
                · split
                  · exact onlySegv_segv
                  · exact onlySegv_ok _

theorem checkExprIsFunc_onlySegv (w : World) (t : Nat) (e : Sds) :
    OnlySegv (checkExprIsFunc w t e) := by
  unfold checkExprIsFunc
  refine (isLuaFunc_onlySegv e).bind fun r => ?_
  match r with
  | none => exact onlySegv_ok _
  | some (fname, argt) =>
      dsimp only
      split
      · refine (parseCommaList_onlySegv w t _ _ _ _).bind fun as => ?_
        cases as <;> exact onlySegv_ok _
      · exact onlySegv_ok _

/-- Neither `ASSERT_OK(dictAdd(DynLuaD, ..))` nor the one on `colD` fires, whatever the cache
holds: the expression was looked up just before. -/
theorem check_onlySegv (h : Host) (w : World) (s : Cache) (tmatch : Option Nat) (e : Sds) :
    OnlySegv (checkOrCr8LFunc h w s tmatch e) := by
  cases tmatch with
  | none => exact onlySegv_ok _
  | some t =>
      cases hf : checkExprIsFunc w t e with
      | error f =>
          rw [check_fault hf, checkExprIsFunc_onlySegv w t e f hf]
          exact onlySegv_segv
      | ok r =>
          cases r with
          | some le => rw [check_func hf]; exact onlySegv_ok _
          | none =>
              cases hit : s.fetch e with
              | some le => rw [check_hit hf hit]; exact onlySegv_ok _
              | none =>
                  obtain ⟨r, hc⟩ := compile_ok h w t e
                  rw [check_miss hf hit hc]
                  split <;> exact onlySegv_ok _

/-! ## What the cache holds -/

theorem lufName_injective : Function.Injective lufName := by
  intro n m hnm
  have h₁ : Nat.toDigits 10 n = Nat.toDigits 10 m := List.append_cancel_left hnm
  rw [← Nat.ofDigitChars_ten_toDigits (n := n), h₁, Nat.ofDigitChars_ten_toDigits]

/-- An entry stands for the function that one of the calls had compiled. -/
structure Entry (h : Host) (s : Sess) (e : Sds) (le : Lue) : Prop where
  born : ∃ c ∈ s.past, c.expr = e ∧ c.searches ∧ ∃ r, compile h c.world c.tmatch e = .ok r ∧
    h.loads r.1.text = true ∧ le.as = r.2 ∧ s.cache.globals.lookup le.fname = some r.1
  named : ∃ n ≤ s.cache.nfuncn, le.fname = lufName n

def Sess.Holds (h : Host) (s : Sess) : Prop := ∀ e le, s.cache.fetch e = some le → Entry h s e le

theorem Entry.later {s s' : Sess} (E : Entry h s e le) (hp : ∀ c ∈ s.past, c ∈ s'.past)
    (hn : s.cache.nfuncn ≤ s'.cache.nfuncn)
    (hg : ∀ n ≤ s.cache.nfuncn, s'.cache.globals.lookup (lufName n) =
      s.cache.globals.lookup (lufName n)) : Entry h s' e le := by
  obtain ⟨⟨c, hc, he, hs, r, hr, hl, has, hgl⟩, n, hle, hname⟩ := E
  refine ⟨⟨c, hp c hc, he, hs, r, hr, hl, has, ?_⟩, n, Nat.le_trans hle hn, hname⟩
  rw [hname] at hgl ⊢
  rw [hg n hle, hgl]

/-- The function of a new entry has a name of its own. -/
theorem lookup_saved (s : Cache) (e : Sds) (r : Chunk × List Arg) (hn : n ≤ s.nfuncn) :
    (s.saved e r).globals.lookup (lufName n) = s.globals.lookup (lufName n) := by
  have hne : lufName n ≠ lufName (s.nfuncn + 1) := by
    intro heq
    have := lufName_injective heq
    omega
  rw [Cache.saved, List.lookup_cons, beq_eq_false_iff_ne.2 hne]

theorem fetch_saved {r : Chunk × List Arg} {x : Sds} (hx : (s.saved e r).fetch x = some le) :
    s.fetch x = some le ∨ (x = e ∧ le = ⟨lufName (s.nfuncn + 1), r.2⟩) := by
  simp only [Cache.fetch, Cache.saved, List.lookup_append] at hx
  cases hl : s.dynLuaD.lookup x with
  | some le' => simp only [hl, Option.some_or] at hx; exact .inl (by rw [← hx]; exact hl)
  | none =>
      simp only [hl, Option.none_or, List.lookup_cons, List.lookup_nil] at hx
      split at hx
      · rename_i hxe
        exact .inr ⟨by simpa using hxe, by simpa using hx.symm⟩
      · cases hx

/-- One call keeps what the cache holds. -/
theorem Sess.Holds.call {s : Sess} (H : s.Holds h) {c : Call} {r : Option Lue × Cache}
    (hr : checkOrCr8LFunc h c.world s.cache (some c.tmatch) c.expr = .ok r) :
    Sess.Holds h ⟨s.cat, r.2, s.past ++ [c]⟩ := by
  have hpast : ∀ d ∈ s.past, d ∈ s.past ++ [c] := fun d hd => List.mem_append_left _ hd
  have same : r.2 = s.cache → Sess.Holds h ⟨s.cat, r.2, s.past ++ [c]⟩ := by
    intro hcache e le hle
    rw [hcache] at hle ⊢
    exact (H e le hle).later hpast (Nat.le_refl _) fun _ _ => rfl
  cases hf : checkExprIsFunc c.world c.tmatch c.expr with
  | error f => rw [check_fault hf] at hr; cases hr
  | ok x =>
      cases x with
      | some le => rw [check_func hf] at hr; cases hr; exact same rfl
      | none =>
          cases hit : s.cache.fetch c.expr with
          | some le => rw [check_hit hf hit] at hr; cases hr; exact same rfl
          | none =>
              obtain ⟨k, hk⟩ := compile_ok h c.world c.tmatch c.expr
              rw [check_miss hf hit hk] at hr
              split at hr
              · rename_i hload
                cases hr
                intro e le hle
                rcases fetch_saved hle with hold | ⟨rfl, rfl⟩
                · exact (H e le hold).later hpast (Nat.le_succ _)
                    fun n hn => lookup_saved _ _ _ hn
                · refine ⟨⟨c, by simp, rfl, hf, k, hk, hload, rfl, ?_⟩, _, Nat.le_refl _, rfl⟩
                  simp [Cache.saved]
              · cases hr
                intro e le hle
                exact (H e le hle).later hpast (Nat.le_succ _) fun _ _ => rfl

theorem Sess.Holds.exec {s s' : Sess} (H : s.Holds h) {cmd : Cmd} (hx : s.exec h cmd = .ok s') :
    s'.Holds h := by
  cases cmd with
  | ddl c =>
      simp only [Sess.exec] at hx
      cases hc : s.cat.step c with
      | error f => rw [hc] at hx; cases hx
      | ok cat =>
          rw [hc] at hx
          cases hx
          intro e le hle
          exact (H e le hle).later (fun _ hd => hd) (Nat.le_refl _) fun _ _ => rfl
  | compile tmatch expr simpUniq defined =>
      simp only [Sess.exec] at hx
      cases hr : checkOrCr8LFunc h ⟨s.cat, simpUniq, defined⟩ s.cache tmatch expr with
      | error f => rw [hr] at hx; cases hx
      | ok r =>
          rw [hr] at hx
          cases hx
          cases tmatch with
          | none =>
              cases hr
              intro e le hle
              exact (H e le hle).later (fun d hd => by simpa [Cmd.call] using hd)
                (Nat.le_refl _) fun _ _ => rfl
          | some t => exact H.call (c := ⟨⟨s.cat, simpUniq, defined⟩, t, expr⟩) hr

theorem Run.holds {ntbl nindx : Nat} {s : Sess} (R : Run h ntbl nindx s) : s.Holds h := by
  induction R with
  | start => intro e le hle; cases hle
  | step _ hx ih => exact ih.exec hx

/-! ## Transparency -/

/-- The cache without its entries. -/
def Cache.emptied (s : Cache) : Cache := { s with dynLuaD := [] }

theorem fetch_emptied (s : Cache) (e : Sds) : s.emptied.fetch e = none := rfl

/-- A fresh compilation that Lua loads. -/
theorem answer_emptied {r : Chunk × List Arg} (hf : checkExprIsFunc w t e = .ok none)
    (hc : compile h w t e = .ok r) (hl : h.loads r.1.text = true) :
    answer (checkOrCr8LFunc h w s.emptied (some t) e) = .ok (some (some r.1.locals, r.2)) := by
  rw [check_miss hf (fetch_emptied s e) hc, if_pos hl]
  simp [answer, Except.map, Cache.bound, Cache.saved]

/-- Without an entry the call compiles afresh. -/
theorem answer_miss (miss : s.fetch e = none) :
    answer (checkOrCr8LFunc h w s (some t) e) = answer (checkOrCr8LFunc h w s.emptied (some t) e) := by
  cases hf : checkExprIsFunc w t e with
  | error f => rw [check_fault hf, check_fault hf]
  | ok x =>
      cases x with
      | some le => rw [check_func hf, check_func hf]; rfl
      | none =>
          obtain ⟨r, hc⟩ := compile_ok h w t e
          rw [check_miss hf miss hc, check_miss hf (fetch_emptied s e) hc]
          split
          · simp [answer, Except.map, Cache.bound, Cache.saved, Cache.emptied]
          · rfl

/-- The answer of the cache, for a call that names the columns of the first one. -/
theorem Sess.Holds.answer {s : Sess} (H : s.Holds h) {c : Call}
    (hs : c.searches → ∀ c₀ ∈ s.past, c₀.expr = c.expr → c₀.searches → c₀.loads h →
      c.sameColumns c₀) :
    answer (checkOrCr8LFunc h c.world s.cache (some c.tmatch) c.expr) =
      answer (checkOrCr8LFunc h c.world s.cache.emptied (some c.tmatch) c.expr) := by
  cases hit : s.cache.fetch c.expr with
  | none => exact answer_miss hit
  | some le =>
      cases hf : checkExprIsFunc c.world c.tmatch c.expr with
      | error f => rw [check_fault hf, check_fault hf]
      | ok x =>
          cases x with
          | some le' => rw [check_func hf, check_func hf]; rfl
          | none =>
              obtain ⟨c₀, hc₀, he, hsearch, r, hr, hl, has, hgl⟩ := (H _ _ hit).born
              have hcols := hs hf c₀ hc₀ he hsearch ⟨r, by rw [he]; exact hr, hl⟩
              have hc : compile h c.world c.tmatch c.expr = .ok r := by
                rw [compile_congr hcols, hr]
              rw [check_hit hf hit, answer_emptied hf hc hl]
              simp [AlchemyDB.Lua.answer, Except.map, Cache.bound, hgl, has]

/-- In every state of every run the assertions hold, and an expression that names the columns it
named before is answered by the cache as by a fresh compilation. -/
theorem expression_cache (h : Host) (ntbl nindx : Nat) (s : Sess) (R : Run h ntbl nindx s)
    (tmatch : Option Nat) (e : Sds) (simpUniq : Nat → Bool) (defined : Sds → Bool) :
    checkOrCr8LFunc h ⟨s.cat, simpUniq, defined⟩ s.cache tmatch e ≠ .error .assertOk ∧
    (Steady h s (.compile tmatch e simpUniq defined) →
      answer (checkOrCr8LFunc h ⟨s.cat, simpUniq, defined⟩ s.cache tmatch e) =
        answer (checkOrCr8LFunc h ⟨s.cat, simpUniq, defined⟩ s.cache.emptied tmatch e)) := by
  constructor
  · intro hx
    have := check_onlySegv h ⟨s.cat, simpUniq, defined⟩ s.cache tmatch e .assertOk hx
    cases this
  · intro hs
    cases tmatch with
    | none => rfl
    | some t => exact R.holds.answer (c := ⟨⟨s.cat, simpUniq, defined⟩, t, e⟩) (hs _ rfl)

/-! ## Two tables -/

/-- A list of commands. -/
def Sess.play (h : Host) : Sess → List Cmd → Except Fault Sess
  | s, [] => .ok s
  | s, c :: cs => s.exec h c >>= fun s => s.play h cs

theorem Run.play {ntbl nindx : Nat} : ∀ {cs : List Cmd} {s s' : Sess}, Run h ntbl nindx s →
    s.play h cs = .ok s' → Run h ntbl nindx s'
  | [], _, _, R, hx => by cases hx; exact R
  | c :: cs, s, s', R, hx => by
      simp only [Sess.play] at hx
      cases hc : s.exec h c with
      | error f => rw [hc] at hx; cases hx
      | ok s₁ => rw [hc] at hx; exact (R.step hc).play hx

/-- A Lua that loads every text, and dictionaries in the order of entry. -/
def plainHost : Host := ⟨fun _ => true, id⟩

def noIndex : Nat → Bool := fun _ => false

def noFunction : Sds → Bool := fun _ => false

/-- A table of INTs. -/
def createInts (tname : String) (cols : List String) : Cmd :=
  .ddl (.createTable tname.toList (cols.map fun c => (c.toList, .int)) ⟨true, true, true⟩)

def aPlusOne : Sds := "a+1".toList

/-- Two tables with the same columns in another order, and `a+1` compiled for the first. -/
def twoTables : List Cmd :=
  [createInts "t" ["id", "a", "b"], createInts "u" ["id", "b", "a"],
    .compile (some 0) aPlusOne noIndex noFunction]

def twoStart : Sess := ⟨Cat.init 4 4, Cache.init, []⟩

/-- `a+1` again, for the table it was compiled for. -/
theorem expression_cache_again : ∃ s, Run plainHost 4 4 s ∧ s.past.length = 1 ∧
    answer (checkOrCr8LFunc plainHost ⟨s.cat, noIndex, noFunction⟩ s.cache (some 0) aPlusOne) =
      answer (checkOrCr8LFunc plainHost ⟨s.cat, noIndex, noFunction⟩ s.cache.emptied (some 0)
        aPlusOne) := by
  have hok : (twoStart.play plainHost twoTables).toOption.any (fun s => decide (s.past.length = 1 ∧
      ∀ c₀ ∈ s.past, ∀ x ∈ (scanExpr aPlusOne).words,
        findColumnSds ⟨s.cat, noIndex, noFunction⟩ 0 x =
          findColumnSds c₀.world c₀.tmatch x)) = true := by decide
  cases hs : twoStart.play plainHost twoTables with
  | error f => rw [hs] at hok; cases hok
  | ok s =>
      simp only [hs, Except.toOption, Option.any_some, decide_eq_true_eq] at hok
      have R : Run plainHost 4 4 s := Run.start.play hs
      refine ⟨s, R, hok.1, (expression_cache plainHost 4 4 s R _ _ _ _).2 ?_⟩
      intro c hc _ c₀ hc₀ _ _ _ x hx
      cases hc
      exact hok.2 c₀ hc₀ x hx

/-- What the cache and a fresh compilation answer for `a+1` and a table, after `twoTables`. -/
def twoAnswers (t : Nat) : Option (Option (Option (List Sds) × List Arg) ×
    Option (Option (List Sds) × List Arg)) :=
  match twoStart.play plainHost twoTables with
  | .error _ => none
  | .ok s =>
      let w : World := ⟨s.cat, noIndex, noFunction⟩
      match answer (checkOrCr8LFunc plainHost w s.cache (some t) aPlusOne),
          answer (checkOrCr8LFunc plainHost w s.cache.emptied (some t) aPlusOne) with
      | .ok x, .ok y => some (x, y)
      | _, _ => none

/-- For the second table the cache still gives the column of the first. -/
theorem cache_gives_old_column : ¬ ∀ (h : Host) (ntbl nindx : Nat) (s : Sess), Run h ntbl nindx s →
    ∀ (tmatch : Option Nat) (e : Sds) (simpUniq : Nat → Bool) (defined : Sds → Bool),
      answer (checkOrCr8LFunc h ⟨s.cat, simpUniq, defined⟩ s.cache tmatch e) =
        answer (checkOrCr8LFunc h ⟨s.cat, simpUniq, defined⟩ s.cache.emptied tmatch e) := by
  intro H
  have hne : (twoAnswers 1).any (fun p => p.1 != p.2) = true := by decide
  unfold twoAnswers at hne
  split at hne
  · cases hne
  · rename_i s hs
    have heq := H plainHost 4 4 s (Run.start.play hs) (some 1) aPlusOne noIndex noFunction
    simp only [heq] at hne
    split at hne
    · rename_i x y hx hy
      rw [hx] at hy
      cases hy
      simp at hne
    · cases hne

end AlchemyDB.Lua
