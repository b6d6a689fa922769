import NameLookup.Proofs.Analysis.Aliases
import NameLookup.Proofs.SymbolTable.Instances

/-!
# The two spellings of a template parameter

In the body of a class template a parameter can be written as a parameter or as a name, for a name
that the chain does not declare stands for the parameter of an enclosing template. Only the first
spelling is replaced when the template is instantiated. The second is a name still, and is looked up
in an instance, whose chain has no parameters: it means what it means around the template
(`parameter_spellings`). So the two spellings do not agree (`spellings_differ`).
-/

set_option autoImplicit false

namespace NameLookup

/-- What is bound stays bound, and so does what is bound anew. -/
theorem Substitution.exists_get?_insertAll {σ : Substitution} {bs : List (Name × TypeExpr)} {p : Name}
    (h : (∃ ty, σ.get? p = some ty) ∨ p ∈ bs.map (·.1)) :
    ∃ ty, (σ.insertAll bs).get? p = some ty := by
  induction bs generalizing σ with
  | nil => exact h.resolve_right List.not_mem_nil
  | cons b bs ih =>
    refine ih (σ := σ.insert b.1 b.2) ?_
    rw [get?_insert]
    by_cases hp : p = b.1
    · exact .inl ⟨b.2, if_pos hp⟩
    · rw [if_neg hp]
      exact h.imp_right fun hmem => (List.mem_cons.1 hmem).resolve_left hp

/-- Each parameter is bound to one of the arguments. -/
theorem Substitution.exists_get?_ofParams {params : List Name} {args : List TypeExpr} {p : Name}
    (hlen : params.length = args.length) (hp : p ∈ params) :
    ∃ a ∈ args, (ofParams params args).get? p = some a := by
  have hmem : p ∈ (params.zip args).map (·.1) := by
    rwa [List.map_fst_zip (Nat.le_of_eq hlen)]
  obtain ⟨a, ha⟩ := exists_get?_insertAll (σ := .empty) (.inr hmem)
  exact ⟨a, mem_bindings_ofParams (mem_bindings_of_get? ha), ha⟩

namespace SymbolTable

open Attempt TypeExpr

/-- The type is a scope that exists and is not the generic body of a template. -/
def IsPlain (t : SymbolTable) (ty : TypeExpr) : Prop :=
  ∃ s e, ty = .scope s ∧ t.scope? s = some e ∧ e.isTemplate = false

variable {t u : SymbolTable} {template s : ScopeId} {args : List TypeExpr} {e : Scope}
  {params : List Name} {τ : Substitution} {chain : ScopeChain}

theorem substituteAll_of_plain (h : ∀ a ∈ args, t.IsPlain a) (σ : Substitution) :
    substituteAll σ args = args := by
  have hsame : ∀ a ∈ args, a.substitute σ = a := fun a ha => by
    obtain ⟨r, _, rfl, -⟩ := h a ha
    rfl
  rw [substituteAll_eq_map, List.map_congr_left hsame, List.map_id']

/-- Plain scopes are canonical as they stand. -/
theorem canonicalArgs_of_plain (h : ∀ a ∈ args, t.IsPlain a) (k : Nat) :
    canonicalArgs (fun a => canonicalArg τ k a chain) args t = (.ok (some args), t) := by
  induction args with
  | nil => rfl
  | cons a as ih =>
    obtain ⟨r, _, rfl, -⟩ := h a List.mem_cons_self
    rw [canonicalArgs_cons, canonicalArg_scope]
    simp only [ih fun b hb => h b (List.mem_cons_of_mem _ hb), Option.map_some]

theorem resolveType_plain {ty : TypeExpr} (h : t.IsPlain ty) (τ : Substitution) (k : Nat)
    (chain : ScopeChain) :
    ∃ a, ty = .scope a ∧ resolveType τ (k + 1) ty chain t = (.ok (.resolved ⟨a, []⟩), t) := by
  obtain ⟨a, e, rfl, ha, hplain⟩ := h
  refine ⟨a, rfl, ?_⟩
  rw [resolveType_scope, ha]
  simp [hplain]

/-- A member of an instance is what the template has for it, with the parameters replaced, and is
resolved within the instance. -/
theorem resolveType_memberOf (ht : t.Sound) (hbuilt : Built t u ⟨template, args⟩ s e params)
    (hplain : ∀ a ∈ args, t.IsPlain a) (hargs : args ≠ [])
    (h : instantiate ⟨template, args⟩ t = (.ok s, u)) {m : Name} {ty : TypeExpr}
    (hty : t.memberType? template m = some ty) (hscope : ∀ r, ty ≠ .scope r) (k : Nat) :
    resolveType τ (k + 2) (.member (.apply template args) m) chain t =
      resolveType τ (k + 1) (ty.substitute (.ofParams params args)) (u.chainOfScope s) u := by
  have hbase : resolveType τ (k + 1) (.apply template args) chain t =
      (.ok (.resolved ⟨template, args⟩), t) := by
    rw [resolveType_apply, substituteAll_of_plain hplain, canonicalArgs_of_plain hplain]
  have hconcrete : concreteScope ⟨template, args⟩ t = (.ok s, u) := by
    have hempty : args.isEmpty = false := by simpa using hargs
    rw [concreteScope, hempty]
    exact h
  have hmember : u.memberType? s m = some (ty.substitute (.ofParams params args)) :=
    hbuilt.memberType? ht hty hscope
  rw [resolveType_member, throughMember_run, hbase]
  simp only [followMember_run, hconcrete, hmember]

/-- In an instance a parameter that is written as one is the argument, while one that is written as
a name is looked up around the template: member types of the instance differ accordingly. -/
theorem parameter_spellings {p m : Name} {ty : TypeExpr} {k : Nat}
    {r : Except ImportFault Resolution × SymbolTable} (ht : t.Reachable)
    (hplain : ∀ a ∈ args, t.IsPlain a) (htemplate : t.scope? template = some e)
    (hparams : e.templateParams = some params) (hp : p ∈ params)
    (hnone : t.membersNamed template p = []) (hnew : t.instance? ⟨template, args⟩ = none)
    (h : instantiate ⟨template, args⟩ t = (.ok s, u)) (hty : t.memberType? template m = some ty)
    (hscope : ∀ r, ty ≠ .scope r)
    (hr : resolveOperand τ (k + 2) (.type (.member (.apply template args) m)) chain t = r) :
    ∃ a, (Substitution.ofParams params args).get? p = some (.scope a) ∧
      u.typeNamed? p (u.chainOfScope s) = t.typeNamed? p (t.chainAround e) ∧
      r = ExceptT.adapt
        (ResolutionFault.toImportFault (t.spellType (.member (.apply template args) m)))
        (resolveType τ (k + 1) (ty.substitute (.ofParams params args)) (u.chainOfScope s)) u ∧
      (ty = .param p → r = (.ok (.resolved ⟨a, []⟩), u)) ∧
      (ty = .named p → t.typeNamed? p (t.chainAround e) = none →
        r = (.error (.unresolved (t.spellType (.member (.apply template args) m)) .unknownName),
          u)) := by
  have hu : u.Reachable := by
    have hafter := ht.change (.instantiate ⟨template, args⟩)
    rwa [h] at hafter
  have hbuild : buildInstance ⟨template, args⟩ t = (.ok s, u) := by
    rwa [instantiate_run, hnew] at h
  obtain ⟨e', params', hbuilt⟩ := buildInstance_built ht.sound hbuild
  obtain rfl : e = e' := Option.some.inj (htemplate.symm.trans hbuilt.template)
  obtain rfl : params = params' := Option.some.inj (hparams.symm.trans hbuilt.templateParams)
  have hargs : args ≠ [] := by
    rintro rfl
    rw [List.length_eq_zero_iff.1 hbuilt.arity] at hp
    exact List.not_mem_nil hp
  obtain ⟨b, hb, hbound⟩ := Substitution.exists_get?_ofParams hbuilt.arity hp
  have hbu : u.IsPlain b := by
    obtain ⟨a, ea, ha, hea, hno⟩ := hplain b hb
    exact ⟨a, ea, ha, hbuilt.extends_.scope_some hea, hno⟩
  obtain ⟨a, rfl, hresolved⟩ := resolveType_plain hbu τ k (u.chainOfScope s)
  have hsees := hbuilt.typeNamed?_undeclared ht.sound hu.sound hu.registered hnone
  have hmember : resolveType τ (k + 2) (.member (.apply template args) m) chain t = _ :=
    resolveType_memberOf ht.sound hbuilt hplain hargs h hty hscope k
  rw [resolveOperand_of_type rfl hmember] at hr
  subst hr
  refine ⟨a, hbound, hsees, (run_adapt _ _ _).symm, ?_, ?_⟩
  · rintro rfl
    rw [substitute, hbound, Option.getD_some, hresolved]
    rfl
  · rintro rfl hunknown
    rw [substitute, resolveType_named, hsees, hunknown]
    rfl

/-- The class `v1`, and a class template `T<P>` with two aliases of its parameter: `m` has it as a
parameter, `n` as a name. -/
def spelledTwice : SymbolTable :=
  (new defaultInstantiationLimit)
    |>.withScope global "v1" .classType none
    |>.withScope global "T" .classType (some ["P"])
    |>.withDecl ⟨"m", .typeAlias, .scope ⟨2⟩, some (.param "P"), none⟩
    |>.withDecl ⟨"n", .typeAlias, .scope ⟨2⟩, some (.named "P"), none⟩

theorem spelledTwice_reachable : spelledTwice.Reachable :=
  (((((Reachable.new _).withScope _ _ _ _).withScope _ _ _ _).withDecl _).withDecl _)

theorem spelledTwice_plain : ∀ a ∈ [TypeExpr.scope ⟨1⟩], spelledTwice.IsPlain a := by
  intro a ha
  obtain rfl := List.mem_singleton.1 ha
  exact ⟨_, _, rfl, rfl, rfl⟩

/-- The member `n` of `T<v1>`. -/
def spelledMember (n : Name) : Operand := .type (.member (.apply ⟨2⟩ [.scope ⟨1⟩]) n)

/-- `T<v1>::m` is `v1`, while `T<v1>::n` is not known. -/
theorem parameter_spellings_of_T :
    (resolveOperand .empty 32 (spelledMember "m") [.scope global] spelledTwice).1 =
        .ok (.resolved ⟨⟨1⟩, []⟩) ∧
      (resolveOperand .empty 32 (spelledMember "n") [.scope global] spelledTwice).1 =
        .error (.unresolved "T<v1>::n" .unknownName) := by
  have hbuilt : (instantiate ⟨⟨2⟩, [.scope ⟨1⟩]⟩ spelledTwice).1 = .ok ⟨3⟩ := rfl
  have hm : resolveOperand .empty 32 (spelledMember "m") [.scope global] spelledTwice = _ := rfl
  have hn : resolveOperand .empty 32 (spelledMember "n") [.scope global] spelledTwice = _ := rfl
  have hp : "P" ∈ ["P"] := List.mem_cons_self
  obtain ⟨a, hbound, -, -, hparam, -⟩ := parameter_spellings spelledTwice_reachable
    spelledTwice_plain rfl rfl hp rfl rfl (run_of_fst hbuilt) rfl (fun _ hs => by cases hs) hm
  obtain ⟨_, -, -, -, -, hnamed⟩ := parameter_spellings spelledTwice_reachable
    spelledTwice_plain rfl rfl hp rfl rfl (run_of_fst hbuilt) rfl (fun _ hs => by cases hs) hn
  obtain rfl : ⟨1⟩ = a := by
    cases hbound
    rfl
  exact ⟨congrArg Prod.fst (hparam rfl), congrArg Prod.fst (hnamed rfl rfl)⟩

/-- Instantiation does not replace a parameter that is written as a name, although inside the template
that name stands for the parameter. -/
theorem spellings_differ :
    ¬ ∀ {t u : SymbolTable} {template s : ScopeId} {e : Scope} {params : List Name}
      {args : List TypeExpr} {p m n : Name} {τ : Substitution} {steps : Nat} {chain : ScopeChain},
      t.Reachable → (∀ a ∈ args, t.IsPlain a) → t.scope? template = some e →
      e.templateParams = some params → p ∈ params → t.membersNamed template p = [] →
      t.typeNamed? p (t.chainOfScope template) = some (.param p) →
      t.instance? ⟨template, args⟩ = none → instantiate ⟨template, args⟩ t = (.ok s, u) →
      t.memberType? template m = some (.param p) → t.memberType? template n = some (.named p) →
      SameAnswer SameFault
        (resolveOperand τ steps (.type (.member (.apply template args) m)) chain t).1
        (resolveOperand τ steps (.type (.member (.apply template args) n)) chain t).1 := by
  intro h
  have hbuilt : (instantiate ⟨⟨2⟩, [.scope ⟨1⟩]⟩ spelledTwice).1 = .ok ⟨3⟩ := rfl
  have hp : "P" ∈ ["P"] := List.mem_cons_self
  have hsame : SameAnswer SameFault
      (resolveOperand .empty 32 (spelledMember "m") [.scope global] spelledTwice).1
      (resolveOperand .empty 32 (spelledMember "n") [.scope global] spelledTwice).1 :=
    h spelledTwice_reachable spelledTwice_plain rfl rfl hp rfl rfl rfl (run_of_fst hbuilt) rfl rfl
  have hparam : (resolveOperand .empty 32 (spelledMember "m") [.scope global] spelledTwice).1 =
    .ok (.resolved ⟨⟨1⟩, []⟩) := rfl
  have hnamed : (resolveOperand .empty 32 (spelledMember "n") [.scope global] spelledTwice).1 =
    .error (.unresolved "T<v1>::n" .unknownName) := rfl
  rw [hparam, hnamed] at hsame
  cases hsame

end SymbolTable

end NameLookup
