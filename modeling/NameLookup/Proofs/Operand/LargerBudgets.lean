import NameLookup.Proofs.Analysis.ArgumentSpellings

/-!
# Larger step budgets

The step budget is there to end alias cycles. It cuts resolution off or has no say in it: an answer
that was not cut off is the answer with any larger budget, and leaves the same table
(`answer_of_larger_budget`). Of targets and faults `resolveType_moreSteps` says this already. For
what waits it remains to see that the same type is put off, on the same chain (`deferral_unique`).
-/

set_option autoImplicit false

namespace NameLookup.SymbolTable

open TypeExpr

variable {σ : Substitution} {k m : Nat} {x : TypeExpr} {c : ScopeChain} {t t' u : SymbolTable}

/-- A type that waits leaves the same deferral, whatever the budget. -/
theorem deferral_unique {token token' : Deferral} (hkm : k ≤ m)
    (h : resolveType σ k x c t = (.ok (.deferred token), u))
    (h' : resolveType σ m x c t = (.ok (.deferred token'), t')) : token' = token := by
  induction k generalizing x c t m with
  | zero =>
    rw [resolveType_zero] at h
    cases h
  | succ k ih =>
    obtain ⟨m, rfl⟩ : ∃ n, m = n + 1 := ⟨m - 1, by omega⟩
    have hkm' : k ≤ m := by omega
    cases x with
    | scalar n => cases h
    | named n =>
      obtain ⟨next, hn, hnext⟩ := resolveType_named_ok h
      rw [resolveType_named, hn] at h'
      exact ih hkm' hnext h'
    | scope s =>
      rw [resolveType_scope] at h
      split at h
      · cases h
      · split at h <;> cases h
    | param p =>
      rw [resolveType_param] at h h'
      cases hp : σ.get? p with
      | none =>
        rw [hp] at h h'
        cases h
        cases h'
        rfl
      | some bound =>
        rw [hp] at h h'
        exact ih hkm' h h'
    | apply s args =>
      rw [resolveType_apply] at h h'
      split at h <;> cases h
      split at h' <;> cases h'
      rfl
    | member base n =>
      rw [resolveType_member, throughMember_run] at h h'
      rcases hb : resolveType σ k base c t with ⟨fault | o, v⟩ <;> rw [hb] at h
      · cases h
      -- what the base comes to is known to agree, so the same member is followed or waits
      obtain ⟨r, hb', hsame⟩ := resolveType_moreSteps (.refl base) hkm' hb fun hf => by cases hf
      rw [hb'] at h'
      cases hsame with
      | deferred held held' =>
        cases h
        cases h'
        rfl
      | resolved target =>
        simp only at h h'
        rcases hm : followMember target n v with ⟨fault | ⟨next, inside⟩, w⟩ <;> rw [hm] at h h'
        · cases h
        · exact ih hkm' h h'

/-- What was not cut off is the same with more steps, deferrals included. -/
theorem resolveType_of_larger {r : Except ResolutionFault Resolution} (hkm : k ≤ m)
    (h : resolveType σ k x c t = (r, u)) (hr : ¬ RanOut r) : resolveType σ m x c t = (r, u) := by
  obtain ⟨r', hrun, hsame⟩ := resolveType_moreSteps (.refl x) hkm h hr
  rw [hrun]
  cases hsame with
  | resolved target => rfl
  | deferred token token' => rw [deferral_unique hkm h hrun]
  | fault heq => rw [heq]

/-- An operand, or a type that had to wait, comes to the same with any larger budget if it was not cut
off: the same target, the same deferral or the same fault, and the same table. -/
theorem answer_of_larger_budget (hkm : k ≤ m) (σ : Substitution) (t : SymbolTable) :
    (∀ operand chain r u, resolveOperand σ k operand chain t = (r, u) → ¬ CutOff r →
      resolveOperand σ m operand chain t = (r, u)) ∧
    ∀ token r u, resumeDeferral σ k token t = (r, u) → ¬ CutOff r →
      resumeDeferral σ m token t = (r, u) := by
  constructor
  · intro operand chain r u h hr
    rw [resolveOperand_run] at h ⊢
    cases hty : t.operandType? chain operand with
    | none =>
      rw [hty] at h
      exact h
    | some ty =>
      rw [hty] at h
      simp only at h ⊢
      cases h
      have hused : ¬ RanOut (resolveType σ k ty chain t).1 := fun hf => hr (cutOff_of_ranOut hf _)
      rw [resolveType_of_larger hkm rfl hused]
  · intro token r u h hr
    rw [resumeDeferral_run] at h ⊢
    cases h
    have hused : ¬ RanOut (resolveType σ k token.type token.chain t).1 := fun hf =>
      hr (cutOff_of_ranOut hf _)
    rw [resolveType_of_larger hkm rfl hused]

/-- Three steps are enough for `k::self`, where `k` is an alias of `T<int>`, and two for an argument
that waits; with fewer steps both are cut off. -/
theorem answer_of_larger_budget_selfNaming :
    let selfOfK : Operand := .type (.member (.named "k") "self")
    let waiting : Deferral := ⟨.apply ⟨2⟩ [.param "Q"], [.scope global]⟩
    CutOff (resolveOperand .empty 2 selfOfK [.scope global] selfNaming).1 ∧
      CutOff (resumeDeferral .empty 1 waiting selfNaming).1 ∧
      resolveOperand .empty defaultStepBudget selfOfK [.scope global] selfNaming =
        (.ok (.resolved ⟨⟨3⟩, []⟩), (instantiate ⟨⟨1⟩, [.scalar "int"]⟩ selfNaming).2) ∧
      resumeDeferral .empty defaultStepBudget waiting selfNaming =
        (.ok (.deferred waiting), selfNaming) := by
  intro selfOfK waiting
  obtain ⟨hoperand, -⟩ := answer_of_larger_budget (k := 3) (m := defaultStepBudget) (by decide)
    .empty selfNaming
  obtain ⟨-, htoken⟩ := answer_of_larger_budget (k := 2) (m := defaultStepBudget) (by decide)
    .empty selfNaming
  refine ⟨⟨_, rfl⟩, ⟨_, rfl⟩, hoperand _ _ _ _ rfl ?_, htoken _ _ _ rfl ?_⟩ <;>
    rintro ⟨_, hr⟩ <;> cases hr

end NameLookup.SymbolTable
