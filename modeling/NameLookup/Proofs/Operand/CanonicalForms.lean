import NameLookup.Analysis.Runs
import NameLookup.Proofs.Operand.Budget

/-!
# A type and its canonical form as an argument

What a type denotes as an operand is found by `resolveType`, its form as an argument by
`canonicalArg`. The two agree: a type that resolves to a target has a form of that target
(`canonicalArg_of_resolveType`). There are two forms of a target without arguments, the scope itself
and an application to no arguments (`Target.FormOf`).

An operand has its arguments replaced by what parameters are bound to before they are followed, an
argument has not. Replacing parameters beforehand saves a step at most (`canonicalArg_unreplaced`).
-/

set_option autoImplicit false

namespace NameLookup

/-- The type is a way to write the target. -/
def Target.FormOf (target : Target) (form : TypeExpr) : Prop :=
  form = .apply target.scope target.args ∨ form = .scope target.scope ∧ target.args = []

namespace SymbolTable

open Attempt TypeExpr

variable {σ : Substitution} {k m : Nat} {x : TypeExpr} {c : ScopeChain} {t t' : SymbolTable}

/-! ## Runs that give a result -/

/-- An operand comes to an answer as the type that it names does. -/
theorem resolveOperand_ok {operand : Operand} {o : Resolution}
    (h : resolveOperand σ k operand c t = (.ok o, t')) :
    ∃ ty, t.operandType? c operand = some ty ∧ resolveType σ k ty c t = (.ok o, t') := by
  rw [resolveOperand_run] at h
  cases hty : t.operandType? c operand with
  | none =>
    rw [hty] at h
    cases h
  | some ty =>
    rw [hty] at h
    obtain ⟨hr, ht⟩ := Prod.mk.inj h
    exact ⟨ty, rfl, Prod.ext (ok_of_mapError hr) ht⟩

theorem resumeDeferral_ok {token : Deferral} {o : Resolution}
    (h : resumeDeferral σ k token t = (.ok o, t')) :
    resolveType σ k token.type token.chain t = (.ok o, t') := by
  rw [resumeDeferral_run] at h
  obtain ⟨hr, ht⟩ := Prod.mk.inj h
  exact Prod.ext (ok_of_mapError hr) ht

/-- Forms that are found with `f` for the images of arguments, and with `g` for the arguments. -/
theorem canonicalArgs_of_map {f g : TypeExpr → TableM ResolutionFault (Option TypeExpr)}
    {h : TypeExpr → TypeExpr}
    (hfg : ∀ {a b t t'}, f (h a) t = (.ok (some b), t') → g a t = (.ok (some b), t'))
    {as bs : List TypeExpr} (hrun : canonicalArgs f (as.map h) t = (.ok (some bs), t')) :
    canonicalArgs g as t = (.ok (some bs), t') := by
  induction as generalizing t bs with
  | nil => exact hrun
  | cons a as ih =>
    obtain ⟨b, u, bs', ha, has, rfl⟩ := canonicalArgs_cons_ok hrun
    rw [canonicalArgs_cons, hfg ha]
    simp only [ih has, Option.map_some]

theorem resolveType_ok_moreSteps {target : Target} (hkm : k ≤ m)
    (h : resolveType σ k x c t = (.ok (.resolved target), t')) :
    resolveType σ m x c t = (.ok (.resolved target), t') := by
  obtain ⟨r, hr, hsame⟩ := resolveType_moreSteps (.refl x) hkm h fun hf => by cases hf
  cases hsame
  exact hr

theorem canonicalArg_ok_moreSteps {form : TypeExpr} (hkm : k ≤ m)
    (h : canonicalArg σ k x c t = (.ok (some form), t')) :
    canonicalArg σ m x c t = (.ok (some form), t') :=
  canonicalArg_moreSteps (.refl x) hkm h fun hf => by cases hf

/-! ## Parameters replaced beforehand -/

/-- A type is resolved with one step more than after its parameters were replaced. -/
def TypeUnreplaced (σ : Substitution) (k : Nat) : Prop :=
  ∀ {x c t target t'}, resolveType σ k (x.substitute σ) c t = (.ok (.resolved target), t') →
    resolveType σ (k + 1) x c t = (.ok (.resolved target), t')

/-- An argument has its form with one step more than after its parameters were replaced. -/
def ArgUnreplaced (σ : Substitution) (k : Nat) : Prop :=
  ∀ {x c t form t'}, canonicalArg σ k (x.substitute σ) c t = (.ok (some form), t') →
    canonicalArg σ (k + 1) x c t = (.ok (some form), t')

theorem typeUnreplaced_succ (ihr : TypeUnreplaced σ k) (iha : ArgUnreplaced σ k) :
    TypeUnreplaced σ (k + 1) := by
  intro x c t target t' h
  cases x with
  | scalar n => cases h
  | named n => exact resolveType_ok_moreSteps (Nat.le_succ _) h
  | scope s => exact resolveType_ok_moreSteps (Nat.le_succ _) h
  | param p =>
    rw [TypeExpr.substitute] at h
    rw [resolveType_param]
    cases hp : σ.get? p with
    | none =>
      rw [hp, Option.getD_none, resolveType_param, hp] at h
      cases h
    | some b =>
      rw [hp] at h
      exact h
  | apply s args =>
    rw [TypeExpr.substitute] at h
    obtain ⟨canonical, rfl, hc⟩ := resolveType_apply_ok h
    rw [substituteAll_eq_map σ (substituteAll σ args)] at hc
    rw [resolveType_apply, canonicalArgs_of_map (fun hf => iha hf) hc]
  | member base n =>
    rw [TypeExpr.substitute, resolveType_member] at h
    obtain ⟨target', u, next, inside, v, hb, hm, hnext⟩ := throughMember_ok h fun heq => by cases heq
    rw [resolveType_member, throughMember_of_ok (ihr hb) hm]
    exact resolveType_ok_moreSteps (Nat.le_succ k) hnext

theorem argUnreplaced_succ (ihr : TypeUnreplaced σ k) (iha : ArgUnreplaced σ k) :
    ArgUnreplaced σ (k + 1) := by
  intro x c t form t' h
  cases x with
  | scalar n => exact canonicalArg_ok_moreSteps (Nat.le_succ _) h
  | named n => exact canonicalArg_ok_moreSteps (Nat.le_succ _) h
  | scope s => exact canonicalArg_ok_moreSteps (Nat.le_succ _) h
  | param p =>
    rw [TypeExpr.substitute] at h
    rw [canonicalArg_param]
    cases hp : σ.get? p with
    | none =>
      rw [hp, Option.getD_none, canonicalArg_param, hp] at h
      cases h
    | some b =>
      rw [hp] at h
      exact h
  | apply s args =>
    rw [TypeExpr.substitute, substituteAll_eq_map] at h
    obtain ⟨canonical, rfl, hc⟩ := canonicalArg_apply_ok h
    rw [canonicalArg_apply, canonicalArgs_of_map (fun hf => iha hf) hc]
    rfl
  | member base n =>
    rw [TypeExpr.substitute, canonicalArg_member] at h
    obtain ⟨target', u, next, inside, v, hb, hm, hnext⟩ := throughMember_ok h fun heq => by cases heq
    rw [canonicalArg_member, throughMember_of_ok (ihr hb) hm]
    exact canonicalArg_ok_moreSteps (Nat.le_succ k) hnext

theorem unreplaced (σ : Substitution) (k : Nat) : TypeUnreplaced σ k ∧ ArgUnreplaced σ k := by
  induction k with
  | zero =>
    refine ⟨fun {x c t target t'} h => ?_, fun {x c t form t'} h => ?_⟩
    · rw [resolveType_zero] at h
      cases h
    · cases x with
      | scalar n => exact canonicalArg_ok_moreSteps (Nat.le_succ 0) h
      | scope s => exact canonicalArg_ok_moreSteps (Nat.le_succ 0) h
      | param p =>
        rw [TypeExpr.substitute] at h
        rw [canonicalArg_param]
        cases hp : σ.get? p with
        | none =>
          rw [hp] at h
          cases h
        | some b =>
          rw [hp] at h
          exact h
      | named | apply | member => cases h
  | succ k ih => exact ⟨typeUnreplaced_succ ih.1 ih.2, argUnreplaced_succ ih.1 ih.2⟩

theorem canonicalArg_unreplaced {form : TypeExpr}
    (h : canonicalArg σ k (x.substitute σ) c t = (.ok (some form), t')) :
    canonicalArg σ (k + 1) x c t = (.ok (some form), t') :=
  (unreplaced σ k).2 h

/-! ## Forms of targets -/

/-- A type that resolves to a target has a form of that target as an argument, which takes one step
more and leaves the same table. -/
theorem canonicalArg_of_resolveType {target : Target}
    (h : resolveType σ k x c t = (.ok (.resolved target), t')) :
    ∃ form, target.FormOf form ∧ canonicalArg σ (k + 1) x c t = (.ok (some form), t') := by
  induction k generalizing x c t with
  | zero =>
    rw [resolveType_zero] at h
    cases h
  | succ k ih =>
    cases x with
    | scalar n => cases h
    | named n =>
      obtain ⟨next, hn, hnext⟩ := resolveType_named_ok h
      rw [canonicalArg_named, hn]
      exact ih hnext
    | scope s =>
      obtain ⟨heq, -⟩ := plainScope_ok (congrArg Prod.fst h)
      have ht : t' = t := (congrArg Prod.snd h).symm.trans (plainScope_readOnly s t)
      cases heq
      exact ⟨.scope s, .inr ⟨rfl, rfl⟩, by rw [canonicalArg_scope, ht]⟩
    | param p =>
      obtain ⟨b, hp, hnext⟩ := resolveType_param_ok h
      rw [canonicalArg_param, hp]
      exact ih hnext
    | apply s args =>
      obtain ⟨canonical, rfl, hc⟩ := resolveType_apply_ok h
      rw [substituteAll_eq_map] at hc
      refine ⟨.apply s canonical, .inl rfl, ?_⟩
      rw [canonicalArg_apply, canonicalArgs_of_map canonicalArg_unreplaced hc]
      rfl
    | member base n =>
      rw [resolveType_member] at h
      obtain ⟨target', u, next, inside, v, hb, hm, hnext⟩ :=
        throughMember_ok h fun heq => by cases heq
      obtain ⟨form, hform, hrun⟩ := ih hnext
      refine ⟨form, hform, ?_⟩
      rw [canonicalArg_member, throughMember_of_ok (resolveType_ok_moreSteps (Nat.le_succ k) hb) hm]
      exact hrun

end SymbolTable

end NameLookup
