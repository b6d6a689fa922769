import NameLookup.Proofs.SymbolTable.ChainStability
import NameLookup.Proofs.SymbolTable.Growth
import NameLookup.Proofs.TypeExpr.Composition
import NameLookup.Proofs.TypeExpr.Params

/-!
# Tables whose parameters are bound

`σ.Covers ty`: the parameters that `ty` mentions are bound by `σ`. `t.CoveredBy σ`: so are those of
the types recorded in `t`, and those that its class templates have. What is looked up in such a table
is covered (`CoveredBy.typeNamed?`), also where a name turns out to be a parameter. The table stays
covered when an instance is built for arguments that are (`CoveredBy.instantiate`): a copied type
mentions what its original mentions, or what the arguments do.
-/

set_option autoImplicit false

namespace NameLookup

namespace Substitution

/-- The parameters that the type mentions are bound. -/
def Covers (σ : Substitution) (ty : TypeExpr) : Prop := ∀ p ∈ ty.params, (σ.get? p).isSome = true

instance (σ : Substitution) (ty : TypeExpr) : Decidable (σ.Covers ty) :=
  inferInstanceAs (Decidable (∀ p ∈ ty.params, (σ.get? p).isSome = true))

/-- The parameters in the types that `ρ` binds are bound by `σ`. -/
def CoversBindings (σ ρ : Substitution) : Prop := ∀ b ∈ ρ.bindings, σ.Covers b.2

instance (σ ρ : Substitution) : Decidable (σ.CoversBindings ρ) :=
  inferInstanceAs (Decidable (∀ b ∈ ρ.bindings, σ.Covers b.2))

variable {σ ρ : Substitution} {ty : TypeExpr}

theorem CoversBindings.bound (h : σ.CoversBindings ρ) {p : Name} (hp : ρ.get? p = some ty) :
    σ.Covers ty :=
  h _ (mem_bindings_of_get? hp)

theorem covers_scope (s : ScopeId) : σ.Covers (.scope s) := fun _ hp => absurd hp List.not_mem_nil

theorem covers_param {p : Name} : σ.Covers (.param p) ↔ (σ.get? p).isSome = true :=
  ⟨fun h => h p (TypeExpr.mem_params_param.2 rfl), fun h q hq => by
    rwa [TypeExpr.mem_params_param.1 hq]⟩

theorem covers_apply {s : ScopeId} {args : List TypeExpr} :
    σ.Covers (.apply s args) ↔ ∀ a ∈ args, σ.Covers a :=
  ⟨fun h a ha p hp => h p (TypeExpr.mem_params_apply.2 ⟨a, ha, hp⟩), fun h p hp => by
    obtain ⟨a, ha, hpa⟩ := TypeExpr.mem_params_apply.1 hp
    exact h a ha p hpa⟩

/-- A replacement by covered types leaves a covered type covered. -/
theorem Covers.substitute (h : σ.Covers ty) (hρ : σ.CoversBindings ρ) :
    σ.Covers (ty.substitute ρ) := by
  intro p hp
  rcases TypeExpr.mem_params_substitute.1 hp with ⟨hmem, -⟩ | ⟨q, -, b, hq, hb⟩
  · exact h p hmem
  · exact hρ.bound hq p hb

theorem coversBindings_ofParams {args : List TypeExpr} (h : ∀ a ∈ args, σ.Covers a)
    (params : List Name) : σ.CoversBindings (.ofParams params args) :=
  fun _ hb => h _ (mem_bindings_ofParams hb)

end Substitution

namespace SymbolTable

open Substitution

structure CoveredBy (t : SymbolTable) (σ : Substitution) : Prop where
  types : ∀ {d e ty}, t.decl? d = some e → e.type = some ty → σ.Covers ty
  params : ∀ {s e ps p}, t.scope? s = some e → e.templateParams = some ps → p ∈ ps →
    (σ.get? p).isSome = true

variable {σ ρ : Substitution} {t t₀ u : SymbolTable} {ty : TypeExpr} {n : Name} {chain : ScopeChain}
  {key : InstanceKey}

namespace CoveredBy

/-! ## What is looked up -/

theorem firstType? (h : t.CoveredBy σ) {p : Declaration → Bool} {ds : List DeclId}
    (hty : t.firstType? p ds = some ty) : σ.Covers ty := by
  obtain ⟨d, e, hd, hrec⟩ := exists_decl_of_firstType? hty
  exact h.types hd hrec

theorem isParamIn (h : t.CoveredBy σ) (hn : t.isParamIn chain n = true) :
    (σ.get? n).isSome = true := by
  obtain ⟨o, -, ho⟩ := List.any_eq_true.1 hn
  obtain ⟨ps, hps, hmem⟩ := (Option.any_eq_true _ _).1 ho
  obtain ⟨e, he, hparams⟩ := Option.bind_eq_some_iff.1 hps
  obtain ⟨s, -, hs⟩ := Option.bind_eq_some_iff.1 he
  exact h.params hs hparams (List.contains_iff_mem.1 hmem)

theorem typeNamed? (h : t.CoveredBy σ) (hty : t.typeNamed? n chain = some ty) : σ.Covers ty := by
  rcases Option.or_eq_some_iff.1 hty with hdecl | ⟨-, hparam⟩
  · exact h.firstType? hdecl
  · split at hparam <;> cases hparam
    exact covers_param.2 (h.isParamIn ‹_›)

/-! ## Edits -/

theorem new (limit : Nat) (σ : Substitution) : (SymbolTable.new limit).CoveredBy σ where
  types hd := by cases hd
  params {s e ps p} hs hps := by
    obtain ⟨_ | i⟩ := s <;> cases hs
    cases hps

theorem allocScope (h : t.CoveredBy σ) {e : Scope}
    (he : ∀ ps p, e.templateParams = some ps → p ∈ ps → (σ.get? p).isSome = true) :
    (t.allocScope e).2.CoveredBy σ where
  types hd hty := h.types hd hty
  params {s e' ps p} hs hps hp := by
    rw [scope?_allocScope] at hs
    split at hs
    · cases hs
      exact he ps p hps hp
    · exact h.params hs hps hp

theorem declare (h : t.CoveredBy σ) {d : Declaration} (hd : ∀ ty, d.type = some ty → σ.Covers ty) :
    (t.declare d).2.CoveredBy σ where
  types {id e ty} he hty := by
    rw [decl?_declare] at he
    split at he
    · cases he
      exact hd ty hty
    · exact h.types he hty
  params {s e ps p} hs hps hp := by
    rw [scope?_declare] at hs
    obtain ⟨e₀, he₀, rfl⟩ := Option.map_eq_some_iff.1 hs
    refine h.params he₀ ?_ hp
    split at hps <;> exact hps

theorem setReexports (h : t.CoveredBy σ) (s : ScopeId) (targets : List ScopeId) :
    (t.setReexports s targets).CoveredBy σ where
  types hd hty := h.types hd hty
  params {s' e ps p} hs hps hp := by
    rw [scope?_setReexports] at hs
    obtain ⟨e₀, he₀, rfl⟩ := Option.map_eq_some_iff.1 hs
    refine h.params he₀ ?_ hp
    split at hps <;> exact hps

theorem withScope (h : t.CoveredBy σ) (parent : ScopeId) (name : Name) (kind : ScopeKind)
    {params : Option (List Name)}
    (hparams : ∀ ps p, params = some ps → p ∈ ps → (σ.get? p).isSome = true) :
    (t.withScope parent name kind params).CoveredBy σ := by
  unfold SymbolTable.withScope addScope?
  cases t.scope? parent with
  | none => exact h
  | some e =>
    refine (h.allocScope hparams).declare fun ty hty => ?_
    cases hty
    exact covers_scope _

theorem withDecl (h : t.CoveredBy σ) {d : Declaration} (hd : ∀ ty, d.type = some ty → σ.Covers ty) :
    (t.withDecl d).CoveredBy σ := by
  unfold SymbolTable.withDecl declare?
  cases t.members? d.owner with
  | none => exact h
  | some m => exact h.declare hd

/-! ## Instances -/

/-- The table is covered throughout a copy that replaces parameters by covered types. -/
theorem copying (h : t₀.CoveredBy σ) (hρ : σ.CoversBindings ρ) (hc : Copying t₀ key ρ t) :
    t.CoveredBy σ := by
  induction hc with
  | start => exact h
  | alloc _ hsrc _ _ ih =>
    -- a copy has the parameters of its source, or none
    refine ih.allocScope fun ps p hps hp => ?_
    simp only [blankCopy] at hps
    split at hps
    · exact ih.params hsrc hps hp
    · cases hps
  | declare _ _ _ _ htype ih =>
    refine ih.declare fun ty hty => ?_
    cases htype ty hty with
    | scope hs => exact covers_scope _
    | substituted hd hty₀ => exact (ih.types hd hty₀).substitute hρ
  | reexport _ _ _ _ _ _ ih _ => exact ih.setReexports _ _

theorem build (h : t.CoveredBy σ) (hargs : ∀ a ∈ key.args, σ.Covers a) {s : ScopeId}
    (hb : buildInstance key t = (.ok s, u)) : u.CoveredBy σ := by
  obtain ⟨params, v, hc, -, rfl⟩ := buildInstance_copying hb
  have hcopy := h.copying (coversBindings_ofParams hargs params) hc
  exact ⟨hcopy.types, hcopy.params⟩

/-- Asking for an instance whose arguments are covered keeps the table covered. -/
theorem instantiate (h : t.CoveredBy σ) (hargs : ∀ a ∈ key.args, σ.Covers a) :
    (instantiate key t).2.CoveredBy σ := by
  rcases hr : SymbolTable.instantiate key t with ⟨r, u⟩
  rcases instantiate_step hr with rfl | ⟨s, -, -, hbuild⟩
  · exact h
  · exact h.build hargs hbuild

end CoveredBy

end SymbolTable

end NameLookup
