import NameLookup.Operand.Resolution

/-!
# One step of a resolution

Each lemma says what `resolveType` or `canonicalArg` does on a table with one shape of type, given
that a step is left. Without a step both end in `aliasCycle` (`resolveType_zero`), save that a
scalar or a scope is canonical as it stands. Where a run gave a result, the step can be read off it
(`resolveType_named_ok` and its like).
-/

set_option autoImplicit false

namespace NameLookup.SymbolTable

open Attempt

variable (σ : Substitution) (steps : Nat) (chain : ScopeChain) (t : SymbolTable)

theorem followName_run (n : Name) :
    followName n chain t =
      match t.typeNamed? n chain with
      | none => (.error (.operand .unknownName), t)
      | some ty => (.ok ty, t) := by
  simp only [followName, run_bind, run_get]
  cases t.typeNamed? n chain <;> rfl

theorem plainScope_run (s : ScopeId) :
    plainScope s t =
      match t.scope? s with
      | none => (.error (.operand .unknownName), t)
      | some e =>
        if e.isTemplate then (.error (.operand .missingTemplateArguments), t)
        else (.ok (.resolved ⟨s, []⟩), t) := by
  simp only [plainScope, run_bind, run_get]
  cases t.scope? s with
  | none => rfl
  | some e => cases h : e.isTemplate <;> simp [h]

theorem followMember_run (target : Target) (n : Name) :
    followMember target n t =
      match concreteScope target t with
      | (.error fault, t) => (.error (.instantiation fault), t)
      | (.ok s, t) =>
        match t.memberType? s n with
        | none => (.error (.operand (.noSuchMember n)), t)
        | some ty => (.ok (ty, t.chainOfScope s), t) := by
  simp only [followMember, run_bind, run_adapt, run_get]
  rcases concreteScope target t with ⟨fault | s, t'⟩
  · rfl
  · simp only [mapError_ok]
    cases t'.memberType? s n <;> rfl

/-- What `resolveType` and `canonicalArg` do with a member type: they find the target of its base,
and go on with what the member stands for there. -/
def throughMember {α : Type} (base : TableM ResolutionFault Resolution) (n : Name) (waiting : α)
    (goOn : TypeExpr → ScopeChain → TableM ResolutionFault α) : TableM ResolutionFault α := do
  match ← base with
  | .deferred _ => return waiting
  | .resolved target =>
    let (next, inside) ← followMember target n
    goOn next inside

theorem throughMember_run {α : Type} (base : TableM ResolutionFault Resolution) (n : Name)
    (waiting : α) (goOn : TypeExpr → ScopeChain → TableM ResolutionFault α) :
    throughMember base n waiting goOn t =
      match base t with
      | (.error fault, t) => (.error fault, t)
      | (.ok (.deferred _), t) => (.ok waiting, t)
      | (.ok (.resolved target), t) =>
        match followMember target n t with
        | (.error fault, t) => (.error fault, t)
        | (.ok (next, inside), t) => goOn next inside t := by
  rw [throughMember, run_bind]
  rcases base t with ⟨_ | _ | _, t'⟩
  · rfl
  · simp only [run_bind]
    rcases followMember _ n t' with ⟨_ | _, _⟩ <;> rfl
  · rfl

theorem canonicalArgs_cons (f : TypeExpr → TableM ResolutionFault (Option TypeExpr))
    (a : TypeExpr) (as : List TypeExpr) :
    canonicalArgs f (a :: as) t =
      match f a t with
      | (.error fault, t) => (.error fault, t)
      | (.ok none, t) => (.ok none, t)
      | (.ok (some a), t) =>
        match canonicalArgs f as t with
        | (.error fault, t) => (.error fault, t)
        | (.ok as, t) => (.ok (as.map (a :: ·)), t) := by
  rw [canonicalArgs, run_bind]
  rcases f a t with ⟨_ | _ | a', t'⟩
  · rfl
  · rfl
  · simp only [run_bind]
    rcases canonicalArgs f as t' with ⟨_ | _ | _, _⟩ <;> rfl

theorem resolveType_zero (ty : TypeExpr) :
    resolveType σ 0 ty chain t = (.error (.operand .aliasCycle), t) := by
  cases ty <;> rfl

theorem resolveType_scalar (n : Name) :
    resolveType σ (steps + 1) (.scalar n) chain t = (.error (.operand .notAScope), t) := rfl

theorem resolveType_named (n : Name) :
    resolveType σ (steps + 1) (.named n) chain t =
      match t.typeNamed? n chain with
      | none => (.error (.operand .unknownName), t)
      | some ty => resolveType σ steps ty chain t := by
  show (followName n chain >>= fun next => resolveType σ steps next chain) t = _
  rw [run_bind, followName_run]
  cases t.typeNamed? n chain <;> rfl

theorem resolveType_scope (s : ScopeId) :
    resolveType σ (steps + 1) (.scope s) chain t =
      match t.scope? s with
      | none => (.error (.operand .unknownName), t)
      | some e =>
        if e.isTemplate then (.error (.operand .missingTemplateArguments), t)
        else (.ok (.resolved ⟨s, []⟩), t) :=
  plainScope_run t s

theorem resolveType_param (p : Name) :
    resolveType σ (steps + 1) (.param p) chain t =
      match σ.get? p with
      | none => (.ok (.deferred ⟨.param p, chain⟩), t)
      | some bound => resolveType σ steps bound chain t := by
  show ((σ.get? p).elim _ _ : TableM ResolutionFault Resolution) t = _
  cases σ.get? p <;> rfl

theorem resolveType_apply (s : ScopeId) (args : List TypeExpr) :
    resolveType σ (steps + 1) (.apply s args) chain t =
      match canonicalArgs (fun a => canonicalArg σ steps a chain) (TypeExpr.substituteAll σ args)
          t with
      | (.error fault, t) => (.error fault, t)
      | (.ok none, t) => (.ok (.deferred ⟨.apply s (TypeExpr.substituteAll σ args), chain⟩), t)
      | (.ok (some canonical), t) => (.ok (.resolved ⟨s, canonical⟩), t) := by
  show (canonicalArgs (fun a => canonicalArg σ steps a chain) (TypeExpr.substituteAll σ args) >>=
    _) t = _
  rw [run_bind]
  rcases canonicalArgs (fun a => canonicalArg σ steps a chain) (TypeExpr.substituteAll σ args) t
    with ⟨_ | _ | _, _⟩ <;> rfl

theorem resolveType_member (base : TypeExpr) (n : Name) :
    resolveType σ (steps + 1) (.member base n) chain =
      throughMember (resolveType σ steps base chain) n (.deferred ⟨.member base n, chain⟩)
        (resolveType σ steps) := rfl

theorem canonicalArg_scalar (n : Name) :
    canonicalArg σ steps (.scalar n) chain t = (.ok (some (.scalar n)), t) := by
  cases steps <;> rfl

theorem canonicalArg_scope (s : ScopeId) :
    canonicalArg σ steps (.scope s) chain t = (.ok (some (.scope s)), t) := by
  cases steps <;> rfl

theorem canonicalArg_named (n : Name) :
    canonicalArg σ (steps + 1) (.named n) chain t =
      match t.typeNamed? n chain with
      | none => (.error (.operand .unknownName), t)
      | some ty => canonicalArg σ steps ty chain t := by
  show (followName n chain >>= fun next => canonicalArg σ steps next chain) t = _
  rw [run_bind, followName_run]
  cases t.typeNamed? n chain <;> rfl

theorem canonicalArg_param (p : Name) :
    canonicalArg σ (steps + 1) (.param p) chain t =
      match σ.get? p with
      | none => (.ok none, t)
      | some bound => canonicalArg σ steps bound chain t := by
  show ((σ.get? p).elim _ _ : TableM ResolutionFault (Option TypeExpr)) t = _
  cases σ.get? p <;> rfl

theorem canonicalArg_apply (s : ScopeId) (args : List TypeExpr) :
    canonicalArg σ (steps + 1) (.apply s args) chain t =
      match canonicalArgs (fun a => canonicalArg σ steps a chain) args t with
      | (.error fault, t) => (.error fault, t)
      | (.ok canonical, t) => (.ok (canonical.map (.apply s)), t) := by
  show (canonicalArgs (fun a => canonicalArg σ steps a chain) args >>= _) t = _
  rw [run_bind]
  rcases canonicalArgs (fun a => canonicalArg σ steps a chain) args t with ⟨_ | _, _⟩ <;> rfl

theorem canonicalArg_member (base : TypeExpr) (n : Name) :
    canonicalArg σ (steps + 1) (.member base n) chain =
      throughMember (resolveType σ steps base chain) n none (canonicalArg σ steps) := rfl

/-! ## Runs that give a result -/

section
variable {σ : Substitution} {steps : Nat} {chain : ScopeChain} {t t' : SymbolTable}

theorem followName_ok {n : Name} {ty : TypeExpr} (h : followName n chain t = (.ok ty, t')) :
    t.typeNamed? n chain = some ty := by
  rw [followName_run] at h
  cases hn : t.typeNamed? n chain <;> rw [hn] at h <;> cases h
  rfl

/-- A member type that does not wait was followed into the target of its base. -/
theorem throughMember_ok {α : Type} {base : TableM ResolutionFault Resolution} {n : Name}
    {waiting a : α} {f : TypeExpr → ScopeChain → TableM ResolutionFault α}
    (h : throughMember base n waiting f t = (.ok a, t')) (hne : a ≠ waiting) :
    ∃ target u next inside v, base t = (.ok (.resolved target), u) ∧
      followMember target n u = (.ok (next, inside), v) ∧ f next inside v = (.ok a, t') := by
  rw [throughMember_run] at h
  rcases hb : base t with ⟨fault | target | token, u⟩ <;> rw [hb] at h
  · cases h
  · simp only at h
    rcases hm : followMember target n u with ⟨fault | ⟨next, inside⟩, v⟩ <;> rw [hm] at h
    · cases h
    · exact ⟨target, u, next, inside, v, rfl, hm, h⟩
  · cases h
    exact absurd rfl hne

theorem throughMember_of_ok {α : Type} {base : TableM ResolutionFault Resolution} {n : Name}
    {waiting : α} {f : TypeExpr → ScopeChain → TableM ResolutionFault α} {target : Target}
    {u v : SymbolTable} {next : TypeExpr} {inside : ScopeChain}
    (hb : base t = (.ok (.resolved target), u))
    (hm : followMember target n u = (.ok (next, inside), v)) :
    throughMember base n waiting f t = f next inside v := by
  rw [throughMember_run, hb]
  simp only [hm]

/-- Arguments that all have a canonical form were brought into it one after the other. -/
theorem canonicalArgs_cons_ok {f : TypeExpr → TableM ResolutionFault (Option TypeExpr)}
    {a : TypeExpr} {as bs : List TypeExpr} (h : canonicalArgs f (a :: as) t = (.ok (some bs), t')) :
    ∃ b u bs', f a t = (.ok (some b), u) ∧ canonicalArgs f as u = (.ok (some bs'), t') ∧
      bs = b :: bs' := by
  rw [canonicalArgs_cons] at h
  rcases ha : f a t with ⟨fault | _ | b, u⟩ <;> rw [ha] at h
  · cases h
  · cases h
  · simp only at h
    rcases has : canonicalArgs f as u with ⟨fault | _ | bs', v⟩ <;> rw [has] at h <;> cases h
    exact ⟨b, u, bs', rfl, has, rfl⟩

theorem resolveType_named_ok {n : Name} {o : Resolution}
    (h : resolveType σ (steps + 1) (.named n) chain t = (.ok o, t')) :
    ∃ next, t.typeNamed? n chain = some next ∧ resolveType σ steps next chain t = (.ok o, t') := by
  rw [resolveType_named] at h
  cases hn : t.typeNamed? n chain <;> rw [hn] at h
  · cases h
  · exact ⟨_, rfl, h⟩

theorem resolveType_param_ok {p : Name} {target : Target}
    (h : resolveType σ (steps + 1) (.param p) chain t = (.ok (.resolved target), t')) :
    ∃ bound, σ.get? p = some bound ∧
      resolveType σ steps bound chain t = (.ok (.resolved target), t') := by
  rw [resolveType_param] at h
  cases hp : σ.get? p <;> rw [hp] at h
  · cases h
  · exact ⟨_, rfl, h⟩

theorem resolveType_apply_ok {s : ScopeId} {args : List TypeExpr} {target : Target}
    (h : resolveType σ (steps + 1) (.apply s args) chain t = (.ok (.resolved target), t')) :
    ∃ canonical, target = ⟨s, canonical⟩ ∧
      canonicalArgs (fun a => canonicalArg σ steps a chain) (TypeExpr.substituteAll σ args) t =
        (.ok (some canonical), t') := by
  rw [resolveType_apply] at h
  rcases hargs : canonicalArgs (fun a => canonicalArg σ steps a chain)
    (TypeExpr.substituteAll σ args) t with ⟨fault | _ | canonical, u⟩ <;> rw [hargs] at h <;> cases h
  exact ⟨canonical, rfl, rfl⟩

theorem canonicalArg_named_ok {n : Name} {form : Option TypeExpr}
    (h : canonicalArg σ (steps + 1) (.named n) chain t = (.ok form, t')) :
    ∃ next, t.typeNamed? n chain = some next ∧
      canonicalArg σ steps next chain t = (.ok form, t') := by
  rw [canonicalArg_named] at h
  cases hn : t.typeNamed? n chain <;> rw [hn] at h
  · cases h
  · exact ⟨_, rfl, h⟩

theorem canonicalArg_param_ok {p : Name} {form : TypeExpr}
    (h : canonicalArg σ (steps + 1) (.param p) chain t = (.ok (some form), t')) :
    ∃ bound, σ.get? p = some bound ∧
      canonicalArg σ steps bound chain t = (.ok (some form), t') := by
  rw [canonicalArg_param] at h
  cases hp : σ.get? p <;> rw [hp] at h
  · cases h
  · exact ⟨_, rfl, h⟩

theorem canonicalArg_apply_ok {s : ScopeId} {args : List TypeExpr} {form : TypeExpr}
    (h : canonicalArg σ (steps + 1) (.apply s args) chain t = (.ok (some form), t')) :
    ∃ canonical, form = .apply s canonical ∧
      canonicalArgs (fun a => canonicalArg σ steps a chain) args t = (.ok (some canonical), t') := by
  rw [canonicalArg_apply] at h
  rcases hargs : canonicalArgs (fun a => canonicalArg σ steps a chain) args t
    with ⟨fault | _ | canonical, u⟩ <;> rw [hargs] at h <;> cases h
  exact ⟨canonical, rfl, rfl⟩

end

end NameLookup.SymbolTable
