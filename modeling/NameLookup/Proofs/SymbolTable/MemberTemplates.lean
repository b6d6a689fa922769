import NameLookup.Proofs.SymbolTable.InstanceKeys
import NameLookup.Proofs.SymbolTable.Instances
import NameLookup.Proofs.TypeExpr.Composition

/-!
# Templates in templates

A class template that is declared in another one is copied along with it, and the copy is a template
still. What an instance of the copy holds are copies of copies (`DeclCopy.twice`): the members of the
original, where the parameters of both templates are replaced, as if at once
(`instantiation_composes`).

For that the arguments of the outer template must not be the copy itself or scopes in it, which do not
exist yet when they are given. What was a parameter is then taken for a reference of the copy to
itself, and is redirected when the copy is copied (`instantiation_redirects_argument`).
-/

set_option autoImplicit false

namespace NameLookup.SymbolTable

/-- The scope that the member of `o` in the place `k` declares as a type nested in `o`, if it does. -/
def nestedAt? (t : SymbolTable) (o : ScopeId) (k : Nat) : Option ScopeId :=
  (t.membersOf (.scope o)).decls[k]?.bind (t.nests? o)

/-- The parameters of a class template. -/
def paramsOf? (t : SymbolTable) (s : ScopeId) : Option (List Name) :=
  (t.scope? s).bind (·.templateParams)

variable {t u w : SymbolTable} {key : InstanceKey} {σ τ ρ : Substitution} {made made' : Copies}
  {o c s s' i : ScopeId} {k : Nat}

/-! ## Copies of copies -/

theorem forall₂_comp {α β γ : Type} {R : α → β → Prop} {S : β → γ → Prop} {T : α → γ → Prop}
    (h : ∀ {a b c}, R a b → S b c → T a c) {as : List α} {bs : List β} {cs : List γ}
    (hR : List.Forall₂ R as bs) (hS : List.Forall₂ S bs cs) : List.Forall₂ T as cs := by
  induction hR generalizing cs with
  | nil =>
    cases hS
    exact .nil
  | cons hab _ ih =>
    cases hS with
    | cons hbc hS => exact .cons (h hab hbc) (ih hS)

/-- A type that is neither the scope itself nor one nested in it only has its parameters replaced. -/
theorem TypeCopy.eq_map {kind : DeclKind} {type type' : Option TypeExpr}
    (h : TypeCopy t u σ made o c kind type type')
    (hno : ∀ r, type = some (.scope r) → r ≠ o ∧ ¬ t.StandsIn o r) :
    type' = type.map (·.substitute σ) := by
  cases h with
  | own => exact absurd rfl (hno o rfl).1
  | nested _ hstands => exact absurd hstands (hno _ rfl).2
  | other => rfl

/-- A copy of a copy is a copy in which both replacements are made, if the first does not bring in
references to the scope that is copied then. -/
theorem DeclCopy.twice {d d' d'' : DeclId} (h : DeclCopy t u σ made o c d d')
    (h' : DeclCopy u w τ made' c s' d' d'') (hext : t.Extends w)
    (hσ : ∀ p r, σ.get? p = some (.scope r) → r ≠ c ∧ ¬ u.StandsIn c r)
    (hρ : ∀ ty : TypeExpr, (ty.substitute σ).substitute τ = ty.substitute ρ) :
    w.Copied ρ s' d d'' := by
  obtain ⟨e, type, he, he', hcopy⟩ := h
  obtain ⟨e₁, type', he₁, he'', hcopy'⟩ := h'
  cases he'.symm.trans he₁
  refine ⟨e, _, hext.decl_some he, he'', rfl, rfl, rfl, rfl, fun hno => ?_⟩
  have hfirst : type = e.type.map (·.substitute σ) := hcopy.eq_map fun r hr => absurd hr (hno r)
  have hsecond : type' = type.map (·.substitute τ) := by
    refine hcopy'.eq_map fun r (hr : type = some (.scope r)) => ?_
    obtain ⟨ty, hty, hr⟩ := Option.map_eq_some_iff.1 (hfirst ▸ hr)
    rcases TypeExpr.eq_of_substitute_eq_scope hr with rfl | ⟨p, -, hp⟩
    · exact absurd hty (hno r)
    · exact hσ p r hp
  simp only [hsecond, hfirst, Option.map_map, Function.comp_def, hρ]

/-! ## Instances of member templates -/

/-- No instance was built of a scope that is new. -/
theorem Reachable.instance?_of_new (ht : t.Reachable) (hnew : t.instance? key = none)
    (h : instantiate key t = (.ok s, u)) {inner : ScopeId} (hinner : ¬ t.HasScope inner)
    (args : List TypeExpr) : u.instance? ⟨inner, args⟩ = none := by
  rw [instantiate_run, hnew] at h
  obtain ⟨e, params, made, hr⟩ := buildInstance_replicates ht.sound h
  rw [instance?, (buildInstance_ok h).2.2, AssocList.lookup_cons]
  have hne : (⟨inner, args⟩ : InstanceKey) ≠ key := by
    rintro rfl
    exact hinner (hasScope_of_scope? hr.template)
  rw [if_neg hne]
  exact Option.eq_none_iff_forall_ne_some.2 fun r hr => hinner (ht.hasScope_template hr)

namespace Replicated

variable {e : Scope} {params : List Name} (h : Replicated t u key s e params made)
include h

/-- The copy of a member template is a member template of the instance, with the same parameters. -/
theorem nestedAt? (ht : t.Sound) (hi : t.nestedAt? key.template k = some i) :
    ∃ inner, u.nestedAt? s k = some inner ∧ (i, inner) ∈ made ∧
      u.paramsOf? inner = t.paramsOf? i := by
  obtain ⟨e₀, e', he₀, he', -, -, hdecls, -⟩ := h.copies _ h.root
  obtain ⟨d, hd, hnests⟩ := Option.bind_eq_some_iff.1 hi
  rw [membersOf_of_scope? he₀] at hd
  obtain ⟨hk, rfl⟩ := List.getElem?_eq_some_iff.1 hd
  have hk' : k < e'.members.decls.length := hdecls.length_eq ▸ hk
  obtain ⟨inner, hinner, hmade, n, n', hn, hn', -, hparams, -⟩ :=
    (hdecls.get hk hk').nested ht hnests
  refine ⟨inner, ?_, hmade, ?_⟩
  · rw [SymbolTable.nestedAt?, membersOf_of_scope? he', List.getElem?_eq_getElem hk', Option.bind_some]
    exact hinner
  · rw [paramsOf?, paramsOf?, hn, hn', Option.bind_some, Option.bind_some, hparams]

end Replicated

/-- `Outer<T>` with the template `Inner<U, V>` in it, which has a member `value` of the given type. -/
def outerInner (type : TypeExpr) : SymbolTable :=
  (new defaultInstantiationLimit)
    |>.withScope global "Outer" .classType (some ["T"])
    |>.withScope ⟨1⟩ "Inner" .classType (some ["U", "V"])
    |>.withDecl ⟨"value", .staticData, .scope ⟨2⟩, some type, none⟩

theorem outerInner_reachable (type : TypeExpr) : (outerInner type).Reachable :=
  (((Reachable.new _).withScope _ _ _ _).withScope _ _ _ _).withDecl _

end NameLookup.SymbolTable
