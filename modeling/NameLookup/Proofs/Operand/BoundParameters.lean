import NameLookup.Proofs.Operand.Canonicity
import NameLookup.Proofs.SymbolTable.Coverage

/-!
# Resolution with all parameters bound

Under bindings that cover the table, themselves and the type that is asked for, nothing waits
(`never_deferred`). What has to be shown for this is that resolution never leaves what is covered:
the types that it comes upon are recorded in the table, parameters of its templates or types that
parameters are bound to, and the instances that it builds on the way are for canonical arguments,
which mention no parameter at all. `Ends` says so of one computation; it goes through `pure`, `throw`
and `>>=`, so that it is shown of one step of resolution and then of all, by induction on the budget.
-/

set_option autoImplicit false

namespace NameLookup.SymbolTable

open Attempt Substitution TypeExpr

theorem CoveredBy.operandType? {t : SymbolTable} {σ : Substitution} (h : t.CoveredBy σ)
    {chain : ScopeChain} {operand : Operand} {ty : TypeExpr}
    (hop : ∀ ty, operand = .type ty → σ.Covers ty) (hty : t.operandType? chain operand = some ty) :
    σ.Covers ty := by
  cases operand with
  | value n => exact h.firstType? hty
  | type ty₀ =>
    cases ty₀ with
    | named n => exact h.typeNamed? hty
    | scalar | param | scope | apply | member =>
      cases hty
      exact hop _ rfl

/-! ## Runs that stay covered -/

/-- The computation leaves a covered table, and gives results in `Q` if any. -/
structure Ends (σ : Substitution) {α : Type} (m : TableM ResolutionFault α) (t : SymbolTable)
    (Q : α → Prop) : Prop where
  covered : (m t).2.CoveredBy σ
  result : ∀ {a}, (m t).1 = .ok a → Q a

namespace Ends

variable {σ : Substitution} {α β : Type} {t u : SymbolTable} {Q : α → Prop} {R : β → Prop}

theorem pure {a : α} (ht : t.CoveredBy σ) (ha : Q a) : Ends σ (pure a) t Q :=
  ⟨ht, fun he => by cases he; exact ha⟩

theorem throw (fault : ResolutionFault) (ht : t.CoveredBy σ) : Ends σ (throw fault) t Q :=
  ⟨ht, fun he => by cases he⟩

theorem bind {x : TableM ResolutionFault α} {f : α → TableM ResolutionFault β} (hx : Ends σ x t Q)
    (hf : ∀ {a u}, x t = (.ok a, u) → u.CoveredBy σ → Q a → Ends σ (f a) u R) :
    Ends σ (x >>= f) t R := by
  obtain ⟨hcovered, hresult⟩ := hx
  have hrun := run_bind x f t
  rcases hr : x t with ⟨fault | a, u⟩ <;> rw [hr] at hrun hcovered hresult
  · refine ⟨hrun ▸ hcovered, fun he => ?_⟩
    rw [hrun] at he
    cases he
  · obtain ⟨hcovered', hresult'⟩ := hf hr hcovered (hresult rfl)
    refine ⟨hrun ▸ hcovered', fun he => hresult' ?_⟩
    rw [← he, hrun]

/-- A computation that does nothing to the table. -/
theorem of_readOnly {m : TableM ResolutionFault α} (hm : ReadOnly m) (ht : t.CoveredBy σ)
    (hQ : ∀ {a}, (m t).1 = .ok a → Q a) : Ends σ m t Q :=
  ⟨(hm t).symm ▸ ht, hQ⟩

end Ends

/-! ## One step -/

variable {σ : Substitution} {k : Nat} {t u : SymbolTable} {chain : ScopeChain} {n : Name}

theorem followName_ends (ht : t.CoveredBy σ) : Ends σ (followName n chain) t σ.Covers :=
  .of_readOnly (followName_readOnly n chain) ht fun hok =>
    ht.typeNamed? (followName_ok (run_of_fst hok))

theorem concreteScope_covered (ht : t.CoveredBy σ) {target : Target}
    (hargs : ∀ a ∈ target.args, a.IsCanonical) : (concreteScope target t).2.CoveredBy σ := by
  unfold concreteScope
  split
  · exact ht
  · refine ht.instantiate fun a ha p hp => ?_
    exact absurd ((hargs a ha).params_eq_nil ▸ hp) List.not_mem_nil

/-- A member of a target is covered. If its instance was built, then for canonical arguments. -/
theorem followMember_ends (ht : t.CoveredBy σ) {target : Target}
    (hargs : ∀ a ∈ target.args, a.IsCanonical) :
    Ends σ (followMember target n) t fun next => σ.Covers next.1 := by
  have hafter : (followMember target n t).2.CoveredBy σ := by
    rw [followMember_snd]
    exact concreteScope_covered ht hargs
  refine ⟨hafter, fun hok => ?_⟩
  obtain ⟨s, -, hm, -⟩ := followMember_ok (run_of_fst hok)
  exact hafter.firstType? hm

/-- With so many steps, no covered type is deferred. -/
def TypeSettles (σ : Substitution) (k : Nat) : Prop :=
  ∀ {ty chain t}, t.CoveredBy σ → σ.Covers ty →
    Ends σ (resolveType σ k ty chain) t Resolution.IsResolved

/-- With so many steps, a covered argument has a canonical form. -/
def ArgSettles (σ : Substitution) (k : Nat) : Prop :=
  ∀ {ty chain t}, t.CoveredBy σ → σ.Covers ty →
    Ends σ (canonicalArg σ k ty chain) t fun form => form.isSome = true

theorem canonicalArgs_ends {f : TypeExpr → TableM ResolutionFault (Option TypeExpr)}
    (hf : ∀ {a t}, t.CoveredBy σ → σ.Covers a → Ends σ (f a) t fun form => form.isSome = true)
    {args : List TypeExpr} (ht : t.CoveredBy σ) (hargs : ∀ a ∈ args, σ.Covers a) :
    Ends σ (canonicalArgs f args) t fun forms => forms.isSome = true := by
  induction args generalizing t with
  | nil => exact .pure ht rfl
  | cons a args ih =>
    obtain ⟨ha, hrest⟩ := List.forall_mem_cons.1 hargs
    refine (hf ht ha).bind fun {form u} _ hu hform => ?_
    obtain ⟨form, rfl⟩ := Option.isSome_iff_exists.1 hform
    refine (ih hu hrest).bind fun {forms v} _ hv hforms => ?_
    obtain ⟨forms, rfl⟩ := Option.isSome_iff_exists.1 hforms
    exact .pure hv rfl

theorem throughMember_ends {α : Type} {base : TypeExpr} {c : ScopeChain} {waiting : α}
    {f : TypeExpr → ScopeChain → TableM ResolutionFault α} {Q : α → Prop}
    (hbase : Ends σ (resolveType σ k base c) t Resolution.IsResolved)
    (hf : ∀ {ty chain u}, u.CoveredBy σ → σ.Covers ty → Ends σ (f ty chain) u Q) :
    Ends σ (throughMember (resolveType σ k base c) n waiting f) t Q := by
  refine hbase.bind fun {r u} hrun hu hr => ?_
  obtain ⟨target, rfl⟩ := hr
  refine (followMember_ends hu (resolveType_isCanonical hrun).1).bind fun {next v} _ hv hnext => ?_
  exact hf hv hnext

section
variable (hσ : σ.CoversBindings σ)
include hσ

theorem typeSettles_succ (ihr : TypeSettles σ k) (iha : ArgSettles σ k) : TypeSettles σ (k + 1) := by
  intro ty chain t ht hty
  cases ty with
  | scalar n => exact .throw _ ht
  | named n => exact (followName_ends ht).bind fun _ hu hnext => ihr hu hnext
  | scope s =>
    refine .of_readOnly (plainScope_readOnly s) ht fun hok => ?_
    exact ⟨_, (plainScope_ok hok).1⟩
  | param p =>
    obtain ⟨b, hb⟩ := Option.isSome_iff_exists.1 (covers_param.1 hty)
    unfold resolveType
    rw [hb]
    exact ihr ht (hσ.bound hb)
  | apply s args =>
    have hargs : ∀ a ∈ substituteAll σ args, σ.Covers a :=
      covers_apply.1 (Covers.substitute hty hσ)
    refine (canonicalArgs_ends iha ht hargs).bind fun {forms u} _ hu hforms => ?_
    obtain ⟨forms, rfl⟩ := Option.isSome_iff_exists.1 hforms
    exact .pure hu ⟨_, rfl⟩
  | member base n =>
    rw [resolveType_member]
    exact throughMember_ends (ihr ht hty) ihr

theorem argSettles_succ (ihr : TypeSettles σ k) (iha : ArgSettles σ k) : ArgSettles σ (k + 1) := by
  intro ty chain t ht hty
  cases ty with
  | scalar n | scope s => exact .pure ht rfl
  | named n => exact (followName_ends ht).bind fun _ hu hnext => iha hu hnext
  | param p =>
    obtain ⟨b, hb⟩ := Option.isSome_iff_exists.1 (covers_param.1 hty)
    unfold canonicalArg
    rw [hb]
    exact iha ht (hσ.bound hb)
  | apply s args =>
    refine (canonicalArgs_ends iha ht (covers_apply.1 hty)).bind fun {forms u} _ hu hforms => ?_
    obtain ⟨forms, rfl⟩ := Option.isSome_iff_exists.1 hforms
    exact .pure hu rfl
  | member base n =>
    rw [canonicalArg_member]
    exact throughMember_ends (ihr ht hty) iha

theorem settles (k : Nat) : TypeSettles σ k ∧ ArgSettles σ k := by
  induction k with
  | zero =>
    constructor
    · intro ty chain t ht hty
      unfold resolveType
      exact .throw _ ht
    · intro ty chain t ht hty
      cases ty with
      | scalar n | scope s => exact .pure ht rfl
      | named | param | apply | member => exact .throw _ ht
  | succ k ih => exact ⟨typeSettles_succ hσ ih.1 ih.2, argSettles_succ hσ ih.1 ih.2⟩

end

/-! ## Operands and deferrals -/

/-- Where each parameter is bound that the substitution itself, the table or the reference mentions,
no reference is deferred: neither an operand nor a type that had to wait before. -/
theorem never_deferred (hσ : σ.CoversBindings σ) (ht : t.CoveredBy σ) (steps : Nat) :
    (∀ operand chain token, (∀ ty, operand = .type ty → σ.Covers ty) →
      (resolveOperand σ steps operand chain t).1 ≠ .ok (.deferred token)) ∧
    ∀ waiting token, σ.Covers waiting.type →
      (resumeDeferral σ steps waiting t).1 ≠ .ok (.deferred token) := by
  have settled {ty chain u token} (hty : σ.Covers ty) :
      resolveType σ steps ty chain t ≠ (.ok (.deferred token), u) := fun hrun => by
    obtain ⟨target, heq⟩ := ((settles hσ steps).1 ht hty).result (congrArg Prod.fst hrun)
    cases heq
  constructor
  · intro operand chain token hop hok
    obtain ⟨ty, hty, hrun⟩ := resolveOperand_ok (run_of_fst hok)
    exact settled (ht.operandType? hop hty) hrun
  · intro waiting token hwaiting hok
    exact settled hwaiting (resumeDeferral_ok (run_of_fst hok))

/-- In the body of `T`, where `P` is a name for its parameter, the arguments of `W<P, T<Q>::self>` are
`T<int>` and the instance of `T` for it, with `P` bound to `k` and `Q` to `P`. With `P` alone bound,
the same operand is deferred. -/
theorem never_deferred_in_T :
    let σ : Substitution := .ofParams ["P", "Q"] [.named "k", .param "P"]
    let written : TypeExpr := .apply ⟨2⟩ [.named "P", .member (.apply ⟨1⟩ [.param "Q"]) "self"]
    let chain := selfNaming.chainOfScope ⟨1⟩
    (∀ steps token,
        (resolveOperand σ steps (.type written) chain selfNaming).1 ≠ .ok (.deferred token) ∧
        (resumeDeferral σ steps ⟨written, chain⟩ selfNaming).1 ≠ .ok (.deferred token)) ∧
      (resolveOperand σ 6 (.type written) chain selfNaming).1 =
        .ok (.resolved ⟨⟨2⟩, [.apply ⟨1⟩ [.scalar "int"], .scope ⟨3⟩]⟩) ∧
      (resolveOperand (.ofParams ["P"] [.named "k"]) 6 (.type written) chain selfNaming).1 =
        .ok (.deferred ⟨written, chain⟩) := by
  intro σ written chain
  have hσ : σ.CoversBindings σ := by decide
  have hwritten : σ.Covers written := by decide
  have ht : selfNaming.CoveredBy σ := by
    refine ((((CoveredBy.new _ σ).withScope _ _ _ ?_).withDecl ?_).withScope _ _ _ ?_).withDecl ?_
    · rintro ps p ⟨⟩ hp
      exact (by decide : ∀ p ∈ ["P"], (σ.get? p).isSome = true) p hp
    · rintro ty ⟨⟩
      decide
    · rintro ps p ⟨⟩ hp
      exact (by decide : ∀ p ∈ ["Q"], (σ.get? p).isSome = true) p hp
    · rintro ty ⟨⟩
      decide
  refine ⟨fun steps token => ?_, rfl, rfl⟩
  obtain ⟨hoperand, htoken⟩ := never_deferred hσ ht steps
  exact ⟨hoperand _ _ _ fun ty hty => by cases hty; exact hwritten, htoken _ _ hwritten⟩

end NameLookup.SymbolTable
