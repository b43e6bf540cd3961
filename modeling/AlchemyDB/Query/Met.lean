/-
# What a WHERE clause meets

What an operation meets does not depend on what the callback does with it: every operation goes through
a list of rows, nodes and entries of UNIQUE indexes, or fails, and the callback is folded over the list.
-/
import AlchemyDB.Query.Select

namespace AlchemyDB.Query.Select

open Assoc Index Table

/-! ## Operations -/

/-- The operation `f` meets what is listed, or it fails; `P` holds of all of it. -/
def Meets (P : Meet → Prop) (f : ∀ σ : Type, (Meet → σ → Option σ) → σ → Option σ) : Prop :=
  ∃ ms : Option (List Meet), (∀ l, ms = some l → ∀ m ∈ l, P m) ∧
    ∀ σ (p : Meet → σ → Option σ) s, f σ p s = ms.bind fun l => l.foldlM (fun s m => p m s) s

section Meets

variable {P : Meet → Prop}

theorem meets_fail : Meets P fun _ _ _ => none := by
  refine ⟨none, fun l h => ?_, fun _ _ _ => rfl⟩
  cases h

theorem meets_skip : Meets P fun _ _ s => some s :=
  ⟨some [], fun l h => by cases h; simp, fun _ _ _ => rfl⟩

theorem meets_one {m : Meet} (h : P m) : Meets P fun _ p s => p m s := by
  refine ⟨some [m], fun l hl => ?_, fun σ p s => ?_⟩
  · cases hl
    intro x hx
    rw [List.mem_singleton.mp hx]
    exact h
  · show p m s = (p m s).bind some
    exact (Option.bind_fun_some (p m s)).symm

theorem meets_foldlM {ε : Type} {f : ε → ∀ σ : Type, (Meet → σ → Option σ) → σ → Option σ} :
    ∀ {l : List ε}, (∀ e ∈ l, Meets P (f e)) → Meets P fun σ p s => l.foldlM (fun s e => f e σ p s) s
  | [], _ => meets_skip
  | e :: l, h => by
      obtain ⟨m₁, hP₁, h₁⟩ := h e List.mem_cons_self
      obtain ⟨m₂, hP₂, h₂⟩ := meets_foldlM fun e' he => h e' (List.mem_cons_of_mem e he)
      refine ⟨m₁.bind fun l₁ => m₂.map (l₁ ++ ·), fun l hl m hm => ?_, fun σ p s => ?_⟩
      · obtain ⟨l₁, rfl, hl⟩ := Option.bind_eq_some_iff.mp hl
        obtain ⟨l₂, rfl, rfl⟩ := Option.map_eq_some_iff.mp hl
        rcases List.mem_append.mp hm with hm | hm
        · exact hP₁ l₁ rfl m hm
        · exact hP₂ l₂ rfl m hm
      · show (f e σ p s).bind (fun s => l.foldlM (fun s e => f e σ p s) s) = _
        have hrest : (fun s => l.foldlM (fun s e => f e σ p s) s) =
            fun s => m₂.bind fun l => l.foldlM (fun s m => p m s) s := funext fun s => h₂ σ p s
        rw [h₁, hrest]
        cases m₁ with
        | none => rfl
        | some l₁ =>
            cases m₂ with
            | none =>
                show (l₁.foldlM (fun s m => p m s) s).bind (fun _ => none) = none
                exact Option.bind_fun_none _
            | some l₂ => exact (List.foldlM_append (m := Option)).symm

/-- What is met in a UNIQUE index. -/
def Meet.isUniq : Meet → Bool
  | .uniq _ => true
  | _ => false

/-- What is met in an index of a kind. -/
abbrev OfKind (k : Kind) (m : Meet) : Prop := m.isUniq = k.unique

theorem meets_runOnNode (k : Kind) : ∀ (still : Nat) (n : Nest),
    Meets (OfKind k) fun _ p s => runOnNode p k still n s
  | 0, .leaf _ => meets_fail
  | 0, .tree _ => meets_fail
  | 1, .leaf l => by
      cases hu : k.unique with
      | false =>
          simp only [runOnNode, hu]
          exact meets_fail
      | true =>
          simp only [runOnNode, hu]
          exact meets_foldlM fun e _ => meets_one hu.symm
  | 1, .tree t => by
      cases hu : k.unique with
      | true =>
          simp only [runOnNode, hu]
          exact meets_fail
      | false =>
          simp only [runOnNode, hu]
          refine meets_foldlM fun e _ => ?_
          cases e.2 with
          | leaf l => exact meets_one hu.symm
          | tree t => exact meets_fail
  | still + 2, .leaf _ => meets_fail
  | still + 2, .tree t => meets_foldlM fun e _ => meets_runOnNode k (still + 1) e.2

/-- `UniqueIndexVal` is set in a UNIQUE index only. -/
theorem btMCIFindVal_uniq (k : Kind) : ∀ {klist : List Aobj} {n : Nest} {i : Nat} {n' : Nest}
    {j : Nat} {v : Aobj}, btMCIFindVal k klist n i = .node n' j (some v) → k.unique = true
  | a :: klist, .tree t, i, n', j, v, h => by
      rw [btMCIFindVal] at h
      cases hn : get? t a with
      | none =>
          rw [hn] at h
          cases h
      | some n =>
          rw [hn] at h
          exact btMCIFindVal_uniq k h
  | a :: klist, .leaf l, i, n', j, v, h => by
      rw [btMCIFindVal] at h
      by_contra hu
      rw [if_neg hu] at h
      cases h

theorem meets_onFound (k : Kind) (klist : List Aobj) (n : Nest) :
    Meets (OfKind k) fun _ p s => onFound p k (btMCIFindVal k klist n 0) s := by
  cases hf : btMCIFindVal k klist n 0 with
  | stray => exact meets_fail
  | miss => exact meets_skip
  | node n nmatch uv =>
      simp only [onFound]
      cases nexpc k - nmatch with
      | succ diff => exact meets_runOnNode k (diff + 1) n
      | zero =>
          cases uv with
          | some v => exact meets_one (btMCIFindVal_uniq k hf).symm
          | none =>
              cases n with
              | tree t => exact meets_fail
              | leaf l =>
                  cases hu : k.unique with
                  | true => exact meets_fail
                  | false => exact meets_one hu.symm

variable (klist : List Aobj) (x : Ind)

theorem meets_singleOpFK (afk : Aobj) :
    Meets (OfKind x.kind) fun _ p s => singleOpFK p klist x afk s := by
  obtain ⟨k, n⟩ := x
  cases n with
  | tree t =>
      cases k
      all_goals
        simp only [singleOpFK]
        cases get? t afk with
        | none => exact meets_skip
        | some n => exact meets_onFound _ klist n
  | leaf l =>
      cases k with
      | uniq col ktype =>
          simp only [singleOpFK]
          cases uniqFind l afk with
          | none => exact meets_fail
          | some v => exact meets_one rfl
      | _ => exact meets_fail

theorem meets_rangeOpFK (low high : Aobj) :
    Meets (OfKind x.kind) fun _ p s => rangeOpFK p klist x low high s := by
  obtain ⟨k, n⟩ := x
  have htree : ∀ t : List (Aobj × Nest), Meets (OfKind k) fun _ p s =>
      (btRange (some low) high t).foldlM (fun s e => onFound p k (btMCIFindVal k klist e.2 0) s) s :=
    fun t => meets_foldlM fun e _ => meets_onFound k klist e.2
  cases n with
  | tree t => cases k <;> exact htree t
  | leaf l =>
      cases k with
      | uniq col ktype =>
          simp only [rangeOpFK]
          refine meets_foldlM fun e _ => ?_
          split
          · exact meets_fail
          · cases uniqFind l e.1 with
            | none => exact meets_fail
            | some v => exact meets_one rfl
      | _ => exact meets_fail

theorem meets_inOpFK (uv : Aobj) (inl : List Aobj) :
    Meets (OfKind x.kind) fun _ p s => inOpFK p uv klist x inl s := by
  obtain ⟨k, n⟩ := x
  cases n with
  | tree t =>
      cases k
      all_goals
        simp only [inOpFK]
        refine meets_foldlM fun afk _ => ?_
        cases get? t afk with
        | none => exact meets_skip
        | some n => exact meets_onFound _ klist n
  | leaf l =>
      cases k with
      | uniq col ktype =>
          simp only [inOpFK]
          refine meets_foldlM fun afk _ => ?_
          cases uniqFind l afk with
          | none =>
              cases btIndExist l afk with
              | true => exact meets_fail
              | false => exact meets_skip
          | some v =>
              by_cases hk : klist = []
              · simp only [if_pos hk]
                exact meets_one rfl
              · simp only [if_neg hk]
                exact meets_fail
      | _ => exact meets_fail

/-- A lookup meets entries of UNIQUE indexes only, or none of them. -/
theorem meets_op (t : Tab) (uv : Aobj) (wf : Lookup) :
    ∃ b : Bool, Meets (fun m => m.isUniq = b) fun _ p s => op p t uv klist wf s := by
  cases wf with
  | single akey => exact ⟨false, meets_fail⟩
  | pkRange low high => exact ⟨false, meets_foldlM fun e _ => meets_one rfl⟩
  | pkIn inl =>
      refine ⟨false, meets_foldlM fun apk _ => ?_⟩
      cases t.store.find apk with
      | none => exact meets_skip
      | some cols => exact meets_one rfl
  | fk imatch akey =>
      simp only [op]
      cases t.inds[imatch]? with
      | none => exact ⟨false, meets_fail⟩
      | some x => exact ⟨_, meets_singleOpFK klist x akey⟩
  | fkRange imatch low high =>
      simp only [op]
      cases t.inds[imatch]? with
      | none => exact ⟨false, meets_fail⟩
      | some x => exact ⟨_, meets_rangeOpFK klist x low high⟩
  | fkIn imatch inl =>
      simp only [op]
      cases t.inds[imatch]? with
      | none => exact ⟨false, meets_fail⟩
      | some x => exact ⟨_, meets_inOpFK klist x uv inl⟩

end Meets

/-! ## The lookup -/

variable {L : Type} (t : Tab) (uv : Aobj) (w : Cswc L)

/-- What the lookup of a WHERE clause meets; `none` where it fails. -/
def met : Option (List Meet) := op (fun m l => some (l ++ [m])) t uv w.klist w.wf []

theorem foldlM_collect : ∀ (ms l : List Meet),
    ms.foldlM (fun l m => some (l ++ [m])) l = some (l ++ ms)
  | [], l => by rw [List.append_nil]; rfl
  | m :: ms, l => by
      rw [List.foldlM_cons]
      show ms.foldlM (fun l m => some (l ++ [m])) (l ++ [m]) = _
      rw [foldlM_collect ms (l ++ [m]), List.append_assoc]
      rfl

/-- The operations go through what is met. -/
theorem op_met : ∃ b : Bool, (∀ l, met t uv w = some l → ∀ m ∈ l, m.isUniq = b) ∧
    ∀ σ (p : Meet → σ → Option σ) s,
      op p t uv w.klist w.wf s = (met t uv w).bind fun l => l.foldlM (fun s m => p m s) s := by
  obtain ⟨b, ms, hb, h⟩ := meets_op w.klist t uv w.wf
  have hmet : met t uv w = ms := by
    refine (h (List Meet) _ []).trans ?_
    cases ms with
    | none => rfl
    | some l => exact foldlM_collect l []
  rw [hmet]
  exact ⟨b, hb, h⟩

end AlchemyDB.Query.Select
