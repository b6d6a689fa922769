import Mathlib.Logic.Relation
import NameLookup.Analysis.Runs
import NameLookup.Proofs.Operand.CanonicalForms
import NameLookup.Proofs.SymbolTable.InstanceRecords

/-!
# Member lookups in generic bodies

Resolving an operand asks for further types to be resolved or brought into canonical form (`Asks`),
and looks members up in the scopes that bases of member types denote (`LooksUp`). A base may not
denote the generic body of a class template: a template named without an argument list is refused.
With an empty list of arguments it is not, and that is the only way by which a member comes to be
looked up in a generic body (`leads_to_empty`). Such a lookup builds no instance, not even where the
template has no parameters (`template_lookups`).
-/

set_option autoImplicit false

namespace NameLookup.SymbolTable

open Attempt TypeExpr Relation

/-- A type is followed to the scope that it denotes, or brought into canonical form. -/
inductive Reading where
  | scope
  | argument

/-- The arguments of an application as they are followed: only those of an operand have their
parameters replaced first. -/
def Reading.args (σ : Substitution) (args : List TypeExpr) : Reading → List TypeExpr
  | scope => substituteAll σ args
  | argument => args

/-- What `resolveType` or `canonicalArg` is asked, and the table at that time. -/
structure Call where
  reading : Reading
  steps : Nat
  type : TypeExpr
  chain : ScopeChain
  table : SymbolTable

/-- The answer to one call is that to the next. -/
inductive Forwards (σ : Substitution) : Call → Call → Prop
  | named {r : Reading} {k : Nat} {n : Name} {chain : ScopeChain} {t : SymbolTable} {ty : TypeExpr}
      (h : t.typeNamed? n chain = some ty) :
      Forwards σ ⟨r, k + 1, .named n, chain, t⟩ ⟨r, k, ty, chain, t⟩
  | param {r : Reading} {k : Nat} {p : Name} {chain : ScopeChain} {t : SymbolTable} {ty : TypeExpr}
      (h : σ.get? p = some ty) : Forwards σ ⟨r, k + 1, .param p, chain, t⟩ ⟨r, k, ty, chain, t⟩
  | member {r : Reading} {k : Nat} {base ty : TypeExpr} {n : Name} {chain inside : ScopeChain}
      {t u v : SymbolTable} {target : Target}
      (hbase : resolveType σ k base chain t = (.ok (.resolved target), u))
      (hmember : followMember target n u = (.ok (ty, inside), v)) :
      Forwards σ ⟨r, k + 1, .member base n, chain, t⟩ ⟨r, k, ty, inside, v⟩

/-- To answer one call the other is made. -/
inductive Asks (σ : Substitution) : Call → Call → Prop
  | forwards {c c' : Call} (h : Forwards σ c c') : Asks σ c c'
  | base {r : Reading} {k : Nat} {base : TypeExpr} {n : Name} {chain : ScopeChain}
      {t : SymbolTable} :
      Asks σ ⟨r, k + 1, .member base n, chain, t⟩ ⟨.scope, k, base, chain, t⟩
  | arg {r : Reading} {k : Nat} {template : ScopeId} {args before after canonical : List TypeExpr}
      {a : TypeExpr} {chain : ScopeChain} {t u : SymbolTable}
      (hargs : r.args σ args = before ++ a :: after)
      (hbefore : canonicalArgs (fun a => canonicalArg σ k a chain) before t =
        (.ok (some canonical), u)) :
      Asks σ ⟨r, k + 1, .apply template args, chain, t⟩ ⟨.argument, k, a, chain, u⟩

/-- A call for a member type, with the call for its base, looks a member up in the scope `s` of the
table `u`. -/
inductive LooksUp (σ : Substitution) : Call → Call → ScopeId → SymbolTable → Prop
  | member {r : Reading} {k : Nat} {base : TypeExpr} {n : Name} {chain : ScopeChain}
      {t u v : SymbolTable} {target : Target} {s : ScopeId}
      (hbase : resolveType σ k base chain t = (.ok (.resolved target), u))
      (hscope : concreteScope target u = (.ok s, v)) :
      LooksUp σ ⟨r, k + 1, .member base n, chain, t⟩ ⟨.scope, k, base, chain, t⟩ s v

variable {σ : Substitution} {c c' base : Call} {s : ScopeId} {t u : SymbolTable}

/-! ## Tables on the way -/

theorem Forwards.grows (h : Forwards σ c c') : c.table.Grows c'.table := by
  cases h with
  | named _ | param _ => exact .refl _
  | member hbase hmember =>
    exact ((resolveType_growing σ _ _ _).of_run hbase).trans
      ((followMember_growing _ _).of_run hmember)

theorem Asks.grows (h : Asks σ c c') : c.table.Grows c'.table := by
  cases h with
  | forwards h => exact h.grows
  | base => exact .refl _
  | arg _ hbefore =>
    exact (canonicalArgs_growing (fun a => canonicalArg_growing σ _ a _) _).of_run hbefore

theorem grows_of_asks (h : ReflTransGen (Asks σ) c c') : c.table.Grows c'.table := by
  induction h with
  | refl => exact .refl _
  | tail _ hlast ih => exact ih.trans hlast.grows

/-! ## Targets without arguments -/

theorem canonicalArgs_empty {f : TypeExpr → TableM ResolutionFault (Option TypeExpr)}
    {args : List TypeExpr} (h : canonicalArgs f args t = (.ok (some []), u)) : args = [] := by
  cases args with
  | nil => rfl
  | cons a as =>
    obtain ⟨a', v, as', -, -, heq⟩ := canonicalArgs_cons_ok h
    cases heq

/-- A type that denotes the generic body of a template has led to the template with an empty list of
arguments. -/
theorem leads_to_empty {k : Nat} {ty : TypeExpr} {chain : ScopeChain}
    (h : resolveType σ k ty chain t = (.ok (.resolved ⟨s, []⟩), u)) (hs : u.isTemplate s = true) :
    ∃ j inside v, ReflTransGen (Forwards σ) ⟨.scope, k, ty, chain, t⟩
      ⟨.scope, j, .apply s [], inside, v⟩ := by
  induction k generalizing ty chain t with
  | zero =>
    rw [resolveType_zero] at h
    cases h
  | succ k ih =>
    cases ty with
    | scalar n => cases h
    | named n =>
      obtain ⟨next, hn, hrest⟩ := resolveType_named_ok h
      obtain ⟨j, inside, v, hnext⟩ := ih hrest
      exact ⟨j, inside, v, .head (.named hn) hnext⟩
    | param p =>
      obtain ⟨bound, hp, hrest⟩ := resolveType_param_ok h
      obtain ⟨j, inside, v, hnext⟩ := ih hrest
      exact ⟨j, inside, v, .head (.param hp) hnext⟩
    | scope r =>
      obtain ⟨heq, e, he, hplain⟩ := plainScope_ok (congrArg Prod.fst h)
      cases heq
      obtain rfl : t = u := (plainScope_readOnly s t).symm.trans (congrArg Prod.snd h)
      rw [isTemplate, he, Option.any_some, hplain] at hs
      cases hs
    | apply template args =>
      obtain ⟨canonical, heq, hargs⟩ := resolveType_apply_ok h
      cases heq
      have hempty := canonicalArgs_empty hargs
      rw [substituteAll_eq_map, List.map_eq_nil_iff] at hempty
      exact ⟨k + 1, chain, t, hempty ▸ .refl⟩
    | member base n =>
      rw [resolveType_member] at h
      obtain ⟨target, v, next, inside, w, hbase, hmember, hrest⟩ :=
        throughMember_ok h (by intro heq; cases heq)
      obtain ⟨j, inside', x, hnext⟩ := ih hrest
      exact ⟨j, inside', x, .head (.member hbase hmember) hnext⟩

theorem LooksUp.leads_to_empty (h : LooksUp σ c base s u) (hc : c.table.Reachable)
    (hs : u.isTemplate s = true) :
    ∃ j inside v, ReflTransGen (Forwards σ) base ⟨.scope, j, .apply s [], inside, v⟩ := by
  cases h with
  | @member _ k _ _ chain t v _ target _ hbase hscope =>
    obtain ⟨template, args⟩ := target
    have hv : v.Reachable := hc.grows ((resolveType_growing σ k _ chain).of_run hbase)
    cases args with
    | nil =>
      cases hscope
      exact SymbolTable.leads_to_empty hbase hs
    | cons a as =>
      -- an instance was given, and no instance is a template
      have hu : u.Reachable := hv.grows ((concreteScope_growing _).of_run hscope)
      have hinstance := hu.isTemplate_of_instance? (instance?_of_instantiate hscope)
      rw [hinstance] at hs
      cases hs

/-! ## Templates without arguments -/

/-- With an empty list of arguments the members of a template are those of its generic body. -/
theorem resolveType_member_empty (template : ScopeId) (m : Name) (k : Nat) (chain : ScopeChain) :
    resolveType σ (k + 2) (.member (.apply template []) m) chain t =
      match t.memberType? template m with
      | none => (.error (.operand (.noSuchMember m)), t)
      | some ty => resolveType σ (k + 1) ty (t.chainOfScope template) t := by
  have hbase : resolveType σ (k + 1) (.apply template []) chain t =
      (.ok (.resolved ⟨template, []⟩), t) := rfl
  have hscope : concreteScope ⟨template, []⟩ t = (.ok template, t) := rfl
  rw [resolveType_member, throughMember_run, hbase]
  simp only [followMember_run, hscope]
  cases t.memberType? template m <;> rfl

/-- Without a list of arguments a template is refused as a base. -/
theorem resolveType_member_template {template : ScopeId} (h : t.isTemplate template = true)
    (m : Name) (k : Nat) (chain : ScopeChain) :
    resolveType σ (k + 2) (.member (.scope template) m) chain t =
      (.error (.operand .missingTemplateArguments), t) := by
  obtain ⟨e, he, htemplate⟩ := (Option.any_eq_true _ _).1 h
  have hbase : resolveType σ (k + 1) (.scope template) chain t =
      (.error (.operand .missingTemplateArguments), t) := by
    rw [resolveType_scope, he]
    simp [htemplate]
  rw [resolveType_member, throughMember_run, hbase]

/-- Where a member is looked up in the generic body of a template, the base has led to the template
with an empty list of arguments. And any member of a template that is named so, is looked up in the
generic body: it is followed from there, or missed there, and no instance is built before. Named
without a list of arguments, the template is refused. -/
theorem template_lookups (ht : t.Reachable) (σ : Substitution) :
    (∀ c c' base s u, c.table = t → ReflTransGen (Asks σ) c c' → LooksUp σ c' base s u →
      u.isTemplate s = true →
      ∃ j inside v, ReflTransGen (Forwards σ) base ⟨.scope, j, .apply s [], inside, v⟩) ∧
    ∀ template m k chain, t.isTemplate template = true →
      let empty := TypeExpr.member (.apply template []) m
      let bare := TypeExpr.member (.scope template) m
      resolveOperand σ (k + 2) (.type empty) chain t =
        (match t.memberType? template m with
        | none => (.error (.unresolved (t.spellType empty) (.noSuchMember m)), t)
        | some ty => ExceptT.adapt (ResolutionFault.toImportFault (t.spellType empty))
            (resolveType σ (k + 1) ty (t.chainOfScope template)) t) ∧
      resolveOperand σ (k + 2) (.type bare) chain t =
        (.error (.unresolved (t.spellType bare) .missingTemplateArguments), t) := by
  refine ⟨fun c c' base s u hc hasks hlook hs => ?_, fun template m k chain htemplate => ⟨?_, ?_⟩⟩
  · exact hlook.leads_to_empty ((hc ▸ ht).grows (grows_of_asks hasks)) hs
  · rw [resolveOperand_run]
    simp only [operandType?, resolveType_member_empty]
    cases t.memberType? template m with
    | none => rfl
    | some ty => exact (run_adapt _ _ t).symm
  · rw [resolveOperand_run]
    simp only [operandType?, resolveType_member_template htemplate]
    rfl

/-- The class template `T<P>`, in which the class `m` is nested. -/
def memberInTemplate : SymbolTable :=
  (new defaultInstantiationLimit)
    |>.withScope global "T" .classType (some ["P"])
    |>.withScope ⟨1⟩ "m" .classType none

theorem memberInTemplate_reachable : memberInTemplate.Reachable :=
  ((Reachable.new _).withScope _ _ _ _).withScope _ _ _ _

/-- The call for `T<>::m`. -/
def memberOfEmpty : Call :=
  ⟨.scope, defaultStepBudget, .member (.apply ⟨1⟩ []) "m", [.scope global], memberInTemplate⟩

theorem memberOfEmpty_looksUp :
    LooksUp .empty memberOfEmpty ⟨.scope, 31, .apply ⟨1⟩ [], [.scope global], memberInTemplate⟩ ⟨1⟩
      memberInTemplate := by
  have hbase : resolveType .empty 31 (.apply ⟨1⟩ []) [.scope global] memberInTemplate =
      (.ok (.resolved ⟨⟨1⟩, []⟩), memberInTemplate) := rfl
  exact .member hbase rfl

/-- `T<>::m` is looked up in `T`, which `T<>` leads to, and denotes the nested class of `T`. -/
theorem template_lookups_of_T :
    (∃ j inside v, ReflTransGen (Forwards .empty)
        ⟨.scope, 31, .apply ⟨1⟩ [], [.scope global], memberInTemplate⟩
        ⟨.scope, j, .apply ⟨1⟩ [], inside, v⟩) ∧
      resolveOperand .empty defaultStepBudget (.type (.member (.apply ⟨1⟩ []) "m")) [.scope global]
        memberInTemplate = (.ok (.resolved ⟨⟨2⟩, []⟩), memberInTemplate) ∧
      (resolveOperand .empty defaultStepBudget (.type (.member (.scope ⟨1⟩) "m")) [.scope global]
        memberInTemplate).1 = .error (.unresolved "T::m" .missingTemplateArguments) := by
  obtain ⟨hlookups, hmembers⟩ := template_lookups memberInTemplate_reachable .empty
  obtain ⟨hempty, hbare⟩ := hmembers ⟨1⟩ "m" 30 [.scope global] rfl
  have htext : memberInTemplate.spellType (.member (.scope ⟨1⟩) "m") = "T::m" := by decide +kernel
  refine ⟨hlookups _ _ _ _ _ rfl .refl memberOfEmpty_looksUp rfl, hempty.trans rfl, ?_⟩
  rw [← htext]
  exact congrArg Prod.fst hbare

/-- A member is looked up in the generic body of a template. -/
theorem generic_body_looked_into :
    ¬ ∀ (t : SymbolTable) (σ : Substitution) (c c' base : Call) (s : ScopeId) (u : SymbolTable),
      t.Reachable → c.table = t → ReflTransGen (Asks σ) c c' → LooksUp σ c' base s u →
      u.isTemplate s = false := by
  intro h
  have hplain := h _ _ _ _ _ _ _ memberInTemplate_reachable rfl .refl memberOfEmpty_looksUp
  have htemplate : memberInTemplate.isTemplate ⟨1⟩ = true := rfl
  rw [htemplate] at hplain
  cases hplain

end NameLookup.SymbolTable
