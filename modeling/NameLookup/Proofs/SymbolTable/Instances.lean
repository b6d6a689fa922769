import NameLookup.Proofs.SymbolTable.Ownership
import NameLookup.Proofs.SymbolTable.Replicas

/-!
# What an instance holds

An instance has the place, the name and the kind of its template, and its members are the copies of
the members of the template, one for one and in order (`buildInstance_built`). `IsCopy` says what a
copy has in common with its original: all but the owner, and a type in which the parameters are
replaced.

From that follows how names are seen from within an instance. A member type stands for what it stands
for in the template, its parameters replaced (`Built.memberType?`). What the template does not declare
means what it means around the template (`Built.typeNamed?_undeclared`), be it the name of one of the
parameters: an instance has no parameters of its own.
-/

set_option autoImplicit false

namespace NameLookup.SymbolTable

/-- The declaration `copy` of `target` is what `e` becomes under the bindings `σ`. What becomes of a
type that is a scope depends on the scopes that are copied along, and is left open. -/
structure IsCopy (σ : Substitution) (target : ScopeId) (e copy : Declaration) : Prop where
  name : copy.name = e.name
  kind : copy.kind = e.kind
  owner : copy.owner = .scope target
  span : copy.span = e.span
  type : (∀ s, e.type ≠ some (.scope s)) → copy.type = e.type.map (·.substitute σ)

/-- The second declaration is a copy of the first. -/
def Copied (t : SymbolTable) (σ : Substitution) (target : ScopeId) (d d' : DeclId) : Prop :=
  ∃ e copy, t.decl? d = some e ∧ t.decl? d' = some copy ∧ IsCopy σ target e copy

variable {t u : SymbolTable} {key : InstanceKey} {σ : Substitution} {source target s : ScopeId}

theorem DeclCopy.isCopy {t₀ : SymbolTable} {made : Copies} {o : ScopeId} {d d' : DeclId}
    (h : DeclCopy t₀ u σ made o target d d') (hext : t₀.Extends u) : u.Copied σ target d d' := by
  obtain ⟨e, type, he, he', htype⟩ := h
  refine ⟨e, _, hext.decl_some he, he', rfl, rfl, rfl, rfl, fun hno => ?_⟩
  generalize hty : e.type = ty at htype hno
  cases htype with
  | own => exact absurd rfl (hno o)
  | nested => exact absurd rfl (hno _)
  | other => rfl

/-! ## Instances -/

/-- In `u` the scope `s` is the instance of `key` as it was built in `t`, where the template is `e`
and has the parameters `params`. -/
structure Built (t u : SymbolTable) (key : InstanceKey) (s : ScopeId) (e : Scope)
    (params : List Name) : Prop where
  template : t.scope? key.template = some e
  templateParams : e.templateParams = some params
  arity : params.length = key.args.length
  extends_ : t.Extends u
  fresh : s = ⟨t.scopes.size⟩
  members : ∃ ms reexports,
    u.scope? s = some ⟨e.name, e.kind, e.parent, ms, none, some key, reexports⟩ ∧
      List.Forall₂ (u.Copied (.ofParams params key.args) s) e.members.decls ms.decls

theorem buildInstance_built (ht : t.Sound) (h : buildInstance key t = (.ok s, u)) :
    ∃ e params, Built t u key s e params := by
  obtain ⟨e, params, made, hr⟩ := buildInstance_replicates ht h
  obtain ⟨ms, rs, hs⟩ := hr.placed
  obtain ⟨e₀, e', he₀, he', -, -, hdecls, -⟩ := hr.copies _ hr.root
  obtain rfl : e = e₀ := Option.some.inj (hr.template.symm.trans he₀)
  cases hs.symm.trans he'
  exact ⟨e, params, hr.template, hr.templateParams, hr.arity, hr.extends_, hr.fresh, ms, rs, hs,
    hdecls.imp fun _ _ hd => hd.isCopy hr.extends_⟩

/-! ## Chains and lookups within an instance -/

/-- All numbers of links that reach the outermost scope give the same chain. -/
theorem Sound.scopeLinks_eq (ht : t.Sound) {n m : Nat} {p : ScopeId} (hn : p.index < n)
    (hm : p.index < m) : t.scopeLinks n p = t.scopeLinks m p := by
  induction n generalizing m p with
  | zero => exact absurd hn (Nat.not_lt_zero _)
  | succ n ih =>
    obtain ⟨m, rfl⟩ : ∃ k, m = k + 1 := ⟨m - 1, by omega⟩
    rw [scopeLinks, scopeLinks]
    cases hp : (t.scope? p).bind (·.parent) with
    | none => rfl
    | some q =>
      obtain ⟨e, he, hq⟩ := Option.bind_eq_some_iff.1 hp
      have hlt := ht.parent_lt he hq
      simp only [ih (m := m) (p := q) (by omega) (by omega)]

/-- The chain that a scope stands in. -/
def chainAround (t : SymbolTable) (e : Scope) : ScopeChain :=
  e.parent.elim [] t.chainOfScope

theorem Sound.chainAround_in (ht : t.Sound) {e : Scope} (hs : t.scope? s = some e) :
    t.ChainIn (t.chainAround e) := by
  rw [chainAround]
  cases hp : e.parent with
  | none => exact fun r hr => absurd hr List.not_mem_nil
  | some p => exact chainOfScope_in ht (ht.hasScope_parent hs hp)

theorem Sound.chainOfScope_eq (ht : t.Sound) {e : Scope} (hs : t.scope? s = some e) :
    t.chainOfScope s = .scope s :: t.chainAround e := by
  rw [chainOfScope, scopeLinks, chainAround, hs, Option.bind_some]
  cases hp : e.parent with
  | none => rfl
  | some p =>
    have hlt := ht.parent_lt hs hp
    exact congrArg _ (ht.scopeLinks_eq hlt (Nat.lt_succ_self _))

theorem firstType?_cons {p : Declaration → Bool} {d : DeclId} {ds : List DeclId} {e : Declaration}
    (hd : t.decl? d = some e) :
    t.firstType? p (d :: ds) = if p e then e.type else t.firstType? p ds := by
  rw [firstType?, List.filterMap_cons_some hd, List.find?_cons]
  cases p e <;> rfl

theorem firstType?_copies {p : Declaration → Bool} (hp : ∀ {e copy}, IsCopy σ s e copy → p copy = p e)
    {ds ds' : List DeclId} (h : List.Forall₂ (t.Copied σ s) ds ds') {ty : TypeExpr}
    (hty : t.firstType? p ds = some ty) (hscope : ∀ r, ty ≠ .scope r) :
    t.firstType? p ds' = some (ty.substitute σ) := by
  induction h with
  | nil => cases hty
  | cons hd _ ih =>
    obtain ⟨e, copy, he, hcopy, his⟩ := hd
    rw [firstType?_cons he] at hty
    rw [firstType?_cons hcopy, hp his]
    split
    · next hpe =>
      rw [if_pos hpe] at hty
      have hno : ∀ r, e.type ≠ some (.scope r) := fun r hr =>
        hscope r (Option.some.inj (hty.symm.trans hr))
      rw [his.type hno, hty, Option.map_some]
    · next hpe =>
      rw [if_neg hpe] at hty
      exact ih hty

namespace Built

variable {e : Scope} {params : List Name} (h : Built t u key s e params)
include h

theorem chainOfScope (ht : t.Sound) (hu : u.Sound) :
    u.chainOfScope s = .scope s :: t.chainAround e := by
  obtain ⟨ms, reexports, hs, -⟩ := h.members
  rw [hu.chainOfScope_eq hs]
  congr 1
  show e.parent.elim [] u.chainOfScope = e.parent.elim [] t.chainOfScope
  cases hp : e.parent with
  | none => rfl
  | some p => exact h.extends_.chainOfScope ht (ht.hasScope_parent h.template hp)

/-- The members of a name are the copies of the members that have it in the template. -/
theorem membersNamed (ht : t.Sound) (name : Name) :
    List.Forall₂ (u.Copied (.ofParams params key.args) s) (t.membersNamed key.template name)
      (u.membersNamed s name) := by
  obtain ⟨ms, reexports, hs, hcopied⟩ := h.members
  have htemplate := hasScope_of_scope? h.template
  rw [← h.extends_.membersNamed ht htemplate]
  have hname : ∀ ⦃d d'⦄, u.Copied (.ofParams params key.args) s d d' →
      (((u.decl? d).any (·.name = name)) = true ↔ ((u.decl? d').any (·.name = name)) = true) := by
    rintro d d' ⟨e, copy, hd, hd', his⟩
    rw [hd, hd', Option.any_some, Option.any_some, his.name]
  have hfiltered := List.rel_filter hname hcopied
  rw [SymbolTable.membersNamed, SymbolTable.membersNamed, membersOf, membersOf, members?, members?,
    h.extends_.scope_some h.template, hs]
  exact hfiltered

/-- A member type stands for what it stands for in the template, with the parameters replaced. -/
theorem memberType? (ht : t.Sound) {m : Name} {ty : TypeExpr}
    (hty : t.memberType? key.template m = some ty) (hscope : ∀ r, ty ≠ .scope r) :
    u.memberType? s m = some (ty.substitute (.ofParams params key.args)) := by
  have htemplate : ∀ d ∈ t.membersNamed key.template m, t.HasDecl d := fun d hd =>
    ht.hasDecl_membersOf (.inl (List.mem_filter.1 hd).1)
  rw [SymbolTable.memberType?, ← h.extends_.firstType? _ htemplate] at hty
  exact firstType?_copies (fun his => by rw [his.kind]) (h.membersNamed ht m) hty hscope

/-- What the template does not declare means within an instance what it means around the template,
also if a parameter has that name. -/
theorem typeNamed?_undeclared (ht : t.Sound) (hu : u.Sound) (hr : u.Registered) {name : Name}
    (hnone : t.membersNamed key.template name = []) :
    u.typeNamed? name (u.chainOfScope s) = t.typeNamed? name (t.chainAround e) := by
  obtain ⟨ms, reexports, hs, -⟩ := h.members
  have hmembers : u.membersNamed s name = [] := by
    have hcopies := h.membersNamed ht name
    rw [hnone] at hcopies
    exact List.forall₂_nil_left_iff.1 hcopies
  have hnamed : (u.membersOf (.scope s)).named name = [] := by
    rw [hr.named_eq_filter]
    exact hmembers
  have hlookup : u.ordinaryLookup name (.scope s :: t.chainAround e) =
      u.ordinaryLookup name (t.chainAround e) := by
    rw [ordinaryLookup_cons, if_pos hnamed]
  have hparam : u.isParamIn (.scope s :: t.chainAround e) name =
      u.isParamIn (t.chainAround e) name := by
    rw [isParamIn, List.any_cons, Owner.scope?, Option.bind_some, hs]
    rfl
  rw [h.chainOfScope ht hu, SymbolTable.typeNamed?, hlookup, hparam, ← SymbolTable.typeNamed?]
  exact h.extends_.typeNamed? ht (ht.chainAround_in h.template) name

end Built

end NameLookup.SymbolTable
