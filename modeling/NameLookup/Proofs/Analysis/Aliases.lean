import NameLookup.Proofs.Analysis.Deferral
import NameLookup.Proofs.Operand.Capture

/-!
# Aliases and the place where they are declared

The names in the target of an alias are looked up where the alias is used, not where it is declared.
That is no difference for an alias whose names, and those that they lead to, stand for the same in
both places (`alias_uncaptured`). A name that is declared again on the way is captured
(`alias_captured`); a member type is free of this, its target is looked up in the scope that has the
member.
-/

set_option autoImplicit false

namespace NameLookup

theorem SameFault.trans {f g h : ImportFault} (hfg : SameFault f g) (hgh : SameFault g h) :
    SameFault f h := by
  cases hfg with
  | refl => exact hgh
  | unresolved x y fault =>
    cases hgh with
    | refl => exact .unresolved x y fault
    | unresolved _ z _ => exact .unresolved x z fault

namespace SymbolTable

open TypeExpr

/-- The declaration is an alias of `target`, declared in the scope `s`. -/
def AliasIn (t : SymbolTable) (d : DeclId) (s : ScopeId) (target : TypeExpr) : Prop :=
  ∃ e, t.decl? d = some e ∧ e.kind = .typeAlias ∧ e.owner = .scope s ∧ e.type = some target

/-- The first of the declarations found for a name that names a type. -/
def firstNaming? (t : SymbolTable) (name : Name) (chain : ScopeChain) : Option DeclId :=
  (t.ordinaryLookup name chain).find? fun d => (t.decl? d).any (·.kind.namesType)

variable {t t₁ t₂ : SymbolTable} {σ : Substitution} {steps : Nat} {chain : ScopeChain}

theorem typeNamed?_of_alias {a : Name} {d : DeclId} {s : ScopeId} {target : TypeExpr}
    (hfirst : t.firstNaming? a chain = some d) (halias : t.AliasIn d s target) :
    t.typeNamed? a chain = some target := by
  obtain ⟨e, hd, -, -, htype⟩ := halias
  have hfound : t.firstType? (·.kind.namesType) (t.ordinaryLookup a chain) = some target := by
    rw [firstType?, List.find?_filterMap]
    change ((t.firstNaming? a chain).bind t.decl?).bind (·.type) = some target
    rw [hfirst, Option.bind_some, hd, Option.bind_some, htype]
  rw [typeNamed?, hfound, Option.some_or]

theorem SameAnswer.not_ranOut {r r' : Except ResolutionFault Resolution} (h : SameAnswer Eq r r')
    (hr : ¬ RanOut r) : ¬ RanOut r' := by
  cases h with
  | resolved | deferred => exact fun hf => by cases hf
  | fault heq => exact heq ▸ hr

theorem SameAnswer.trans {r₁ r₂ r₃ : Except ImportFault Resolution}
    (h : SameAnswer SameFault r₁ r₂) (h' : SameAnswer SameFault r₂ r₃) :
    SameAnswer SameFault r₁ r₃ := by
  cases h with
  | resolved => exact h'
  | deferred x y => cases h' with | deferred _ z => exact .deferred x z
  | fault hf => cases h' with | fault hf' => exact .fault (hf.trans hf')

/-- An operand comes to what the type that it names comes to. -/
theorem resolveOperand_of_type {operand : Operand} {ty : TypeExpr}
    {r : Except ResolutionFault Resolution} (hty : t.operandType? chain operand = some ty)
    (h : resolveType σ steps ty chain t = (r, t₁)) :
    resolveOperand σ steps operand chain t =
      (r.mapError (ResolutionFault.toImportFault (t.spellOperand operand)), t₁) := by
  rw [resolveOperand_run, hty]
  simp only [h]

/-- Given as an operand, a type comes to what it is resolved to: a name has its first hop for
free, anything else is resolved as it stands. -/
theorem resolveOperand_type {ty : TypeExpr} {r : Except ResolutionFault Resolution}
    (h : resolveType σ steps ty chain t = (r, t₁)) (hr : ¬ RanOut r) (text : String) :
    ∃ r', resolveOperand σ steps (.type ty) chain t = (r', t₁) ∧
      SameAnswer SameFault (r.mapError (ResolutionFault.toImportFault text)) r' := by
  cases ty with
  | named n =>
    cases steps with
    | zero =>
      rw [resolveType_zero] at h
      cases h
      exact absurd rfl hr
    | succ k =>
      rw [resolveType_named] at h
      cases hn : t.typeNamed? n chain with
      | none =>
        rw [hn] at h
        cases h
        have hnone : t.operandType? chain (.type (.named n)) = none := hn
        rw [resolveOperand_run, hnone]
        exact ⟨_, rfl, .fault (.unresolved _ _ _)⟩
      | some next =>
        rw [hn] at h
        obtain ⟨r', hrun, hsame⟩ := resolveType_moreSteps (.refl next) (Nat.le_add_right k 1) h hr
        exact ⟨_, resolveOperand_of_type hn hrun, hsame.mapError _ _⟩
  | scalar | param | scope | apply | member =>
    exact ⟨_, resolveOperand_of_type rfl h, (SameAnswer.refl r).mapError _ _⟩

/-- An alias that is found along a chain comes to what its target comes to where the alias is
declared, if the names that it depends on stand for the same there. -/
theorem alias_uncaptured {N : Name → Prop} {a : Name} {d : DeclId} {s : ScopeId}
    {target : TypeExpr} {r : Except ImportFault Resolution} (ht : t.Reachable)
    (hfirst : t.firstNaming? a chain = some d) (halias : t.AliasIn d s target)
    (halike : t.SeenAlike N chain (t.chainOfScope s)) (htarget : target.LooksUpOnly N)
    (hσ : ∀ p b, σ.get? p = some b → b.LooksUpOnly N)
    (h : resolveOperand σ steps (.type (.named a)) chain t = (r, t₁)) (hr : ¬ CutOff r) :
    ∃ r', resolveOperand σ steps (.type target) (t.chainOfScope s) t = (r', t₁) ∧
      SameAnswer SameFault r r' := by
  have hnames : t.operandType? chain (.type (.named a)) = some target :=
    typeNamed?_of_alias hfirst halias
  rw [resolveOperand_of_type hnames rfl] at h
  cases h
  have hused : ¬ RanOut (resolveType σ steps target chain t).1 := fun hf =>
    hr (cutOff_of_ranOut hf _)
  obtain ⟨y, hdeclared, hsame⟩ := resolveType_interchange (SeenAlike.interchange hσ) (.refl target)
    (.inr ⟨ht.sound, halike, htarget⟩) (Nat.le_refl steps) rfl hused
  obtain ⟨r', hrun, hsame'⟩ := resolveOperand_type hdeclared (hsame.not_ranOut hused) ""
  exact ⟨r', hrun, (hsame.mapError _ _).trans hsame'⟩

/-- The global namespace declares the class `x` and an alias `a` of `x`; the namespace `N` declares
another `x`, the namespace `M` does not. -/
def shadowedClass : SymbolTable :=
  (new defaultInstantiationLimit)
    |>.withScope global "x" .classType none
    |>.withDecl ⟨"a", .typeAlias, .scope global, some (.named "x"), none⟩
    |>.withScope global "N" .nameSpace none
    |>.withScope ⟨2⟩ "x" .classType none
    |>.withScope global "M" .nameSpace none

theorem shadowedClass_reachable : shadowedClass.Reachable :=
  ((((((Reachable.new _).withScope _ _ _ _).withDecl _).withScope _ _ _ _).withScope _ _ _ _)
    |>.withScope _ _ _ _)

theorem shadowedClass_alias : shadowedClass.AliasIn ⟨1⟩ global (.named "x") :=
  ⟨_, rfl, rfl, rfl, rfl⟩

/-- In `M` the alias is not captured. -/
theorem alias_uncaptured_in_M :
    ∃ r', resolveOperand .empty 32 (.type (.named "x")) (shadowedClass.chainOfScope global)
        shadowedClass =
        (r', (resolveOperand .empty 32 (.type (.named "a")) (shadowedClass.chainOfScope ⟨4⟩)
          shadowedClass).2) ∧
      SameAnswer SameFault (.ok (.resolved ⟨⟨1⟩, []⟩)) r' := by
  have halike : shadowedClass.SeenAlike (· = "x") (shadowedClass.chainOfScope ⟨4⟩)
      (shadowedClass.chainOfScope global) := by
    refine ⟨by decide, by decide, ?_, ?_⟩
    · rintro n rfl
      rfl
    · rintro n ty rfl hty
      obtain rfl : .scope ⟨1⟩ = ty := Option.some.inj hty
      exact .scope _
  exact alias_uncaptured shadowedClass_reachable rfl shadowedClass_alias halike (.named rfl)
    (fun _ _ hp => by cases hp) (Attempt.run_of_fst rfl) (by rintro ⟨_, hr⟩; cases hr)

/-- An alias is not bound to the place where it is declared: in `N` the name in the target of `a` is
captured by the `x` of `N`. -/
theorem alias_captured :
    ¬ ∀ {t t₁ t₂ : SymbolTable} {σ : Substitution} {steps : Nat} {chain : ScopeChain} {a : Name}
      {d : DeclId} {s : ScopeId} {target : TypeExpr} {r r' : Except ImportFault Resolution},
      t.Reachable → t.firstNaming? a chain = some d → t.AliasIn d s target →
      resolveOperand σ steps (.type (.named a)) chain t = (r, t₁) → ¬ CutOff r →
      resolveOperand σ steps (.type target) (t.chainOfScope s) t = (r', t₂) → ¬ CutOff r' →
      SameAnswer SameFault r r' := by
  intro h
  have hfirst : shadowedClass.firstNaming? "a" (shadowedClass.chainOfScope ⟨2⟩) = some ⟨1⟩ := rfl
  have hused : (resolveOperand .empty 32 (.type (.named "a")) (shadowedClass.chainOfScope ⟨2⟩)
      shadowedClass).1 = .ok (.resolved ⟨⟨3⟩, []⟩) := rfl
  have hdeclared : (resolveOperand .empty 32 (.type (.named "x"))
      (shadowedClass.chainOfScope global) shadowedClass).1 = .ok (.resolved ⟨⟨1⟩, []⟩) := rfl
  have hcut {x : Resolution} : ¬ CutOff (.ok x : Except ImportFault Resolution) := by
    rintro ⟨_, hr⟩
    cases hr
  have hsame := h shadowedClass_reachable hfirst shadowedClass_alias (Attempt.run_of_fst hused) hcut
    (Attempt.run_of_fst hdeclared) hcut
  exact absurd hsame.target_eq (by decide)

end SymbolTable

end NameLookup
