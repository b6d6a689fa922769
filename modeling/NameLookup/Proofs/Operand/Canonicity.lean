import NameLookup.Proofs.Analysis.ArgumentSpellings
import NameLookup.Proofs.Operand.Answers
import NameLookup.Proofs.SymbolTable.Rendering
import NameLookup.Proofs.TypeExpr.Composition
import NameLookup.Proofs.TypeExpr.Params

/-!
# Canonical arguments

The arguments of a target are canonical: scalars, scopes, and templates applied to canonical
arguments (`TypeExpr.IsCanonical`), whatever names, parameters and members led to them. Nothing in
them is looked up or replaced, so the form of a canonical argument is the argument, on any table
(`canonicalArg_of_isCanonical`). This takes as many steps as applications are nested, and no form
nests deeper than there were steps to find it (`canonicalArg_isCanonical`). So a target can be had
again from its template and arguments, just where there are steps enough (`target_canonical`).
-/

set_option autoImplicit false

namespace NameLookup

namespace TypeExpr

/-- No name, parameter or member is left at any depth. -/
inductive IsCanonical : TypeExpr → Prop
  | scalar (n : Name) : IsCanonical (.scalar n)
  | scope (s : ScopeId) : IsCanonical (.scope s)
  | apply (template : ScopeId) {args : List TypeExpr} (h : ∀ a ∈ args, IsCanonical a) :
      IsCanonical (.apply template args)

mutual

/-- How deep applications are nested in the type. -/
def nesting : TypeExpr → Nat
  | .apply _ args => nestingAll args + 1
  | .scalar _ | .named _ | .param _ | .scope _ | .member _ _ => 0

/-- How deep they are nested in the arguments. -/
def nestingAll : List TypeExpr → Nat
  | [] => 0
  | a :: as => max a.nesting (nestingAll as)

end

theorem nestingAll_le_iff {args : List TypeExpr} {k : Nat} :
    nestingAll args ≤ k ↔ ∀ a ∈ args, a.nesting ≤ k := by
  induction args with
  | nil => simp [nestingAll]
  | cons a as ih => rw [nestingAll, Nat.max_le, ih, List.forall_mem_cons]

theorem IsCanonical.params_eq_nil {ty : TypeExpr} (h : ty.IsCanonical) : ty.params = [] := by
  induction h with
  | scalar n | scope s => rfl
  | apply template _ ih =>
    refine List.eq_nil_iff_forall_not_mem.2 fun p hp => ?_
    obtain ⟨a, ha, hpa⟩ := mem_params_apply.1 hp
    exact absurd (ih a ha ▸ hpa) List.not_mem_nil

/-- There is nothing to replace in a canonical type. -/
theorem IsCanonical.substitute_eq {ty : TypeExpr} (h : ty.IsCanonical) (σ : Substitution) :
    ty.substitute σ = ty :=
  substitute_of_not_isDependent (isDependent_eq_false_iff.2 h.params_eq_nil) σ

end TypeExpr

namespace SymbolTable

open TypeExpr

variable {σ : Substitution} {k : Nat} {x : TypeExpr} {c : ScopeChain} {t u : SymbolTable}

/-! ## Forms are canonical -/

/-- What holds of each form holds of the forms of a list of arguments. -/
theorem canonicalArgs_forall {f : TypeExpr → TableM ResolutionFault (Option TypeExpr)}
    {P : TypeExpr → Prop} (hf : ∀ {a t form u}, f a t = (.ok (some form), u) → P form)
    {args forms : List TypeExpr} (h : canonicalArgs f args t = (.ok (some forms), u)) :
    ∀ form ∈ forms, P form := by
  induction args generalizing t forms with
  | nil =>
    cases h
    exact fun form hform => absurd hform List.not_mem_nil
  | cons a args ih =>
    obtain ⟨form, v, rest, ha, hargs, rfl⟩ := canonicalArgs_cons_ok h
    exact List.forall_mem_cons.2 ⟨hf ha, ih hargs⟩

/-- The form of an argument is canonical, and every application in it took a step. -/
theorem canonicalArg_isCanonical {form : TypeExpr}
    (h : canonicalArg σ k x c t = (.ok (some form), u)) : form.IsCanonical ∧ form.nesting ≤ k := by
  induction k generalizing x c t form u with
  | zero =>
    cases x with
    | scalar n =>
      cases h
      exact ⟨.scalar n, Nat.le_refl 0⟩
    | scope s =>
      cases h
      exact ⟨.scope s, Nat.le_refl 0⟩
    | named | param | apply | member => cases h
  | succ k ih =>
    have onward {x c t} (h : canonicalArg σ k x c t = (.ok (some form), u)) :
        form.IsCanonical ∧ form.nesting ≤ k + 1 :=
      ⟨(ih h).1, Nat.le_succ_of_le (ih h).2⟩
    cases x with
    | scalar n =>
      cases h
      exact ⟨.scalar n, Nat.zero_le _⟩
    | scope s =>
      cases h
      exact ⟨.scope s, Nat.zero_le _⟩
    | named n =>
      obtain ⟨next, -, hnext⟩ := canonicalArg_named_ok h
      exact onward hnext
    | param p =>
      obtain ⟨bound, -, hnext⟩ := canonicalArg_param_ok h
      exact onward hnext
    | apply s args =>
      obtain ⟨forms, rfl, hargs⟩ := canonicalArg_apply_ok h
      have hforms := canonicalArgs_forall ih hargs
      exact ⟨.apply s fun a ha => (hforms a ha).1,
        Nat.succ_le_succ (nestingAll_le_iff.2 fun a ha => (hforms a ha).2)⟩
    | member base n =>
      rw [canonicalArg_member] at h
      obtain ⟨target, v, next, inside, w, -, -, hnext⟩ := throughMember_ok h fun heq => by cases heq
      exact onward hnext

/-- So are the arguments of a target, and the target itself took a step. -/
theorem resolveType_isCanonical {target : Target}
    (h : resolveType σ k x c t = (.ok (.resolved target), u)) :
    (∀ a ∈ target.args, a.IsCanonical) ∧ nestingAll target.args < k := by
  induction k generalizing x c t with
  | zero =>
    rw [resolveType_zero] at h
    cases h
  | succ k ih =>
    have onward {x c t} (h : resolveType σ k x c t = (.ok (.resolved target), u)) :
        (∀ a ∈ target.args, a.IsCanonical) ∧ nestingAll target.args < k + 1 :=
      ⟨(ih h).1, Nat.lt_succ_of_lt (ih h).2⟩
    cases x with
    | scalar n => cases h
    | named n =>
      obtain ⟨next, -, hnext⟩ := resolveType_named_ok h
      exact onward hnext
    | scope s =>
      obtain ⟨heq, -⟩ := plainScope_ok (congrArg Prod.fst h)
      cases heq
      exact ⟨fun a ha => absurd ha List.not_mem_nil, Nat.succ_pos k⟩
    | param p =>
      obtain ⟨bound, -, hnext⟩ := resolveType_param_ok h
      exact onward hnext
    | apply s args =>
      obtain ⟨forms, rfl, hargs⟩ := resolveType_apply_ok h
      have hforms := canonicalArgs_forall canonicalArg_isCanonical hargs
      exact ⟨fun a ha => (hforms a ha).1,
        Nat.lt_succ_of_le (nestingAll_le_iff.2 fun a ha => (hforms a ha).2)⟩
    | member base n =>
      rw [resolveType_member] at h
      obtain ⟨target', v, next, inside, w, -, -, hnext⟩ := throughMember_ok h fun heq => by cases heq
      exact onward hnext

/-! ## Canonical arguments are their own forms -/

theorem canonicalArgs_of_fixed {f : TypeExpr → TableM ResolutionFault (Option TypeExpr)}
    {args : List TypeExpr} (hf : ∀ a ∈ args, f a t = (.ok (some a), t)) :
    canonicalArgs f args t = (.ok (some args), t) := by
  induction args with
  | nil => rfl
  | cons a args ih =>
    obtain ⟨ha, hargs⟩ := List.forall_mem_cons.1 hf
    rw [canonicalArgs_cons, ha]
    simp only [ih hargs, Option.map_some]

theorem canonicalArg_of_isCanonical (hx : x.IsCanonical) (hk : x.nesting ≤ k) :
    canonicalArg σ k x c t = (.ok (some x), t) := by
  induction hx generalizing k with
  | scalar n => exact canonicalArg_scalar σ k c t n
  | scope s => exact canonicalArg_scope σ k c t s
  | @apply template args _ ih =>
    rw [nesting] at hk
    obtain ⟨k, rfl⟩ : ∃ n, k = n + 1 := ⟨k - 1, by omega⟩
    have hnest := nestingAll_le_iff.1 (Nat.le_of_succ_le_succ hk)
    rw [canonicalArg_apply, canonicalArgs_of_fixed fun a ha => ih a ha (hnest a ha)]
    rfl

/-- A template applied to canonical arguments denotes the target with these arguments. -/
theorem resolveType_of_isCanonical {target : Target} (hargs : ∀ a ∈ target.args, a.IsCanonical)
    (hk : nestingAll target.args < k) :
    resolveType σ k (.apply target.scope target.args) c t = (.ok (.resolved target), t) := by
  obtain ⟨k, rfl⟩ : ∃ n, k = n + 1 := ⟨k - 1, by omega⟩
  have hnest := nestingAll_le_iff.1 (Nat.le_of_lt_succ hk)
  have hsame : substituteAll σ target.args = target.args :=
    (TypeExpr.apply.inj ((IsCanonical.apply target.scope hargs).substitute_eq σ)).2
  rw [resolveType_apply, hsame,
    canonicalArgs_of_fixed fun a ha => canonicalArg_of_isCanonical (hargs a ha) (hnest a ha)]

end SymbolTable

end NameLookup
