import NameLookup.Proofs.Operand.QualifiedNames
import NameLookup.Proofs.SymbolTable.Instances

/-!
# Runs of aliases

A scope may declare aliases that name one another, one after the next (`AliasRun`). Followed from
where the scope is visible, a run takes one step for each of its names (`resolveType_run`), and a
budget with no more steps than names ends within it (`resolveType_run_cutOff`). The name of an
operand is followed for free and the scope at the end takes a step of its own, so that the budget
has to be as large as the number of aliases and need not be larger; aliases in a ring exceed every
budget (`alias_budget_exact`).
-/

set_option autoImplicit false

namespace NameLookup.SymbolTable

/-- The scope declares an alias of `target` under the name, and nothing else. -/
def DeclaresAlias (t : SymbolTable) (s : ScopeId) (name : Name) (target : TypeExpr) : Prop :=
  ∃ d, t.declaredIn (.scope s) name = [d] ∧ t.AliasIn d s target

/-- Aliases that a scope declares under the listed names: each is of the next name and of nothing
else, the last is of `target`. No name comes twice where the run ends in a scope, since the name
decides how the run goes on. -/
inductive AliasRun (t : SymbolTable) (s : ScopeId) (target : TypeExpr) : List Name → Prop where
  | last {name : Name} (h : t.DeclaresAlias s name target) : AliasRun t s target [name]
  | next {name after : Name} {names : List Name} (h : t.DeclaresAlias s name (.named after))
      (hrest : AliasRun t s target (after :: names)) : AliasRun t s target (name :: after :: names)

variable {t : SymbolTable} {s : ScopeId} {first name : Name} {names : List Name}
  {target : TypeExpr} {σ : Substitution} {outer : ScopeChain}

/-! ## Names that stand for aliases -/

theorem DeclaresAlias.firstType? (h : t.DeclaresAlias s name target) :
    t.firstType? (·.kind.namesType) (t.declaredIn (.scope s) name) = some target := by
  obtain ⟨d, hd, e, he, hkind, -, htype⟩ := h
  have hnames : e.kind.namesType = true := by rw [hkind]; rfl
  rw [hd, firstType?_cons he, if_pos hnames, htype]

theorem Registered.typeNamed?_of_alias (hr : t.Registered) (h : t.DeclaresAlias s name target) :
    t.typeNamed? name (.scope s :: outer) = some target :=
  hr.typeNamed?_of_member h.firstType?

/-- An alias takes one step. -/
theorem Registered.resolveType_alias (hr : t.Registered) (h : t.DeclaresAlias s name target)
    (steps : Nat) :
    resolveType σ (steps + 1) (.named name) (.scope s :: outer) t =
      resolveType σ steps target (.scope s :: outer) t := by
  rw [resolveType_named, hr.typeNamed?_of_alias h]

/-! ## The steps of a run -/

theorem AliasRun.declares_first (h : AliasRun t s target (first :: names)) :
    ∃ next, t.DeclaresAlias s first next := by
  cases h with
  | last h => exact ⟨_, h⟩
  | next h _ => exact ⟨_, h⟩

/-- A run takes as many steps as it has names, and goes on with what its last alias is of. -/
theorem Registered.resolveType_run (hr : t.Registered) (h : AliasRun t s target (first :: names))
    (steps : Nat) :
    resolveType σ (steps + (first :: names).length) (.named first) (.scope s :: outer) t =
      resolveType σ steps target (.scope s :: outer) t := by
  induction names generalizing first with
  | nil =>
    obtain h | _ := h
    exact hr.resolveType_alias h steps
  | cons after names ih =>
    obtain _ | ⟨h, hrest⟩ := h
    calc resolveType σ (steps + (first :: after :: names).length) (.named first) _ t
      _ = resolveType σ (steps + (after :: names).length) (.named after) (.scope s :: outer) t :=
        hr.resolveType_alias h _
      _ = resolveType σ steps target (.scope s :: outer) t := ih hrest

/-- With no more steps than names a run is not left. -/
theorem Registered.resolveType_run_cutOff (hr : t.Registered)
    (h : AliasRun t s target (first :: names)) {steps : Nat}
    (hle : steps ≤ (first :: names).length) :
    resolveType σ steps (.named first) (.scope s :: outer) t =
      (.error (.operand .aliasCycle), t) := by
  induction steps generalizing first names with
  | zero => exact resolveType_zero _ _ _ _
  | succ steps ih =>
    cases h with
    | last h =>
      obtain rfl : steps = 0 := by simpa using hle
      rw [hr.resolveType_alias h, resolveType_zero]
    | next h hrest => rw [hr.resolveType_alias h, ih hrest (Nat.le_of_succ_le_succ hle)]

/-- A run that leads back to its first name is never left: each time around takes the same number of
steps again, until there are too few for another. -/
theorem Registered.resolveType_ring (hr : t.Registered)
    (h : AliasRun t s (.named first) (first :: names)) (steps : Nat) :
    resolveType σ steps (.named first) (.scope s :: outer) t =
      (.error (.operand .aliasCycle), t) := by
  induction steps using Nat.strongRecOn with
  | ind steps ih =>
    rcases Nat.le_total steps (first :: names).length with hle | hle
    · exact hr.resolveType_run_cutOff h hle
    · have hrest : steps - (first :: names).length < steps :=
        Nat.sub_lt (Nat.lt_of_lt_of_le (Nat.succ_pos _) hle) (Nat.succ_pos _)
      rw [← Nat.sub_add_cancel hle, hr.resolveType_run h, ih _ hrest]

/-! ## The budget of an operand -/

/-- The name of an operand is followed for free. -/
theorem Registered.resolveOperand_alias (hr : t.Registered)
    (h : AliasRun t s target (first :: names)) (steps : Nat) {r : Except ResolutionFault Resolution}
    (hrun : resolveType σ (steps + 1) (.named first) (.scope s :: outer) t = (r, t)) :
    resolveOperand σ steps (.type (.named first)) (.scope s :: outer) t =
      (r.mapError (ResolutionFault.toImportFault first), t) := by
  obtain ⟨next, hnext⟩ := h.declares_first
  rw [hr.resolveType_alias hnext] at hrun
  exact resolveOperand_of_type (hr.typeNamed?_of_alias hnext) hrun

/-- The budget for aliases is exact: of a run that ends in a scope, which is no template, the first
name denotes that scope if there are as many steps as aliases, and is cut off if there are fewer;
the first name of a ring is cut off with any number of steps. The table is left as it was. -/
theorem alias_budget_exact (ht : t.Reachable) (σ : Substitution) (steps : Nat) :
    (∀ {first : Name} {names : List Name} {x : ScopeId},
      AliasRun t s (.scope x) (first :: names) → t.HasScope x → t.isTemplate x = false →
      resolveOperand σ steps (.type (.named first)) (t.chainOfScope s) t =
        if (first :: names).length ≤ steps then (.ok (.resolved ⟨x, []⟩), t)
        else (.error (.unresolved first .aliasCycle), t)) ∧
    ∀ {first : Name} {names : List Name}, AliasRun t s (.named first) (first :: names) →
      resolveOperand σ steps (.type (.named first)) (t.chainOfScope s) t =
        (.error (.unresolved first .aliasCycle), t) := by
  have hr := ht.registered
  obtain ⟨outer, hchain⟩ : ∃ outer, t.chainOfScope s = .scope s :: outer := ⟨_, rfl⟩
  rw [hchain]
  constructor
  · intro first names x h hx hplain
    split
    · next hle =>
      obtain ⟨left, rfl⟩ := Nat.exists_eq_add_of_le' hle
      have hend : resolveType σ (left + 1) (.scope x) (.scope s :: outer) t =
          (.ok (.resolved ⟨x, []⟩), t) := by
        obtain ⟨e, he⟩ := hx.entry
        rw [isTemplate, he, Option.any_some] at hplain
        simp only [resolveType_scope, he, hplain, Bool.false_eq_true, if_false]
      have hsteps : left + (first :: names).length + 1 = left + 1 + (first :: names).length :=
        Nat.add_right_comm _ _ _
      have hrun : resolveType σ (left + (first :: names).length + 1) (.named first)
          (.scope s :: outer) t = (.ok (.resolved ⟨x, []⟩), t) := by
        rw [hsteps, hr.resolveType_run h, hend]
      exact hr.resolveOperand_alias h _ hrun
    · next hlt =>
      exact hr.resolveOperand_alias h _ (hr.resolveType_run_cutOff h (Nat.lt_of_not_le hlt))
  · intro first names h
    exact hr.resolveOperand_alias h _ (hr.resolveType_ring h _)

/-- In the namespace `N`, `a` is an alias of `b`, `b` of `c` and `c` of the class `X`; `p` is one of
`q` and `q` one of `p`. -/
def aliasTable : SymbolTable :=
  (new defaultInstantiationLimit)
    |>.withScope global "N" .nameSpace none
    |>.withScope ⟨1⟩ "X" .classType none
    |>.withDecl ⟨"a", .typeAlias, .scope ⟨1⟩, some (.named "b"), none⟩
    |>.withDecl ⟨"b", .typeAlias, .scope ⟨1⟩, some (.named "c"), none⟩
    |>.withDecl ⟨"c", .typeAlias, .scope ⟨1⟩, some (.scope ⟨2⟩), none⟩
    |>.withDecl ⟨"p", .typeAlias, .scope ⟨1⟩, some (.named "q"), none⟩
    |>.withDecl ⟨"q", .typeAlias, .scope ⟨1⟩, some (.named "p"), none⟩

theorem aliasTable_reachable : aliasTable.Reachable :=
  (((((((Reachable.new _).withScope _ _ _ _).withScope _ _ _ _).withDecl _).withDecl _).withDecl
    _).withDecl _).withDecl _

/-- Three steps suffice for `a`, two do not; a thousand do not suffice for `p`. -/
theorem alias_budget_exact_in_N :
    let t := aliasTable
    resolveOperand .empty 3 (.type (.named "a")) (t.chainOfScope ⟨1⟩) t =
        (.ok (.resolved ⟨⟨2⟩, []⟩), t) ∧
      resolveOperand .empty 2 (.type (.named "a")) (t.chainOfScope ⟨1⟩) t =
        (.error (.unresolved "a" .aliasCycle), t) ∧
      resolveOperand .empty 1000 (.type (.named "p")) (t.chainOfScope ⟨1⟩) t =
        (.error (.unresolved "p" .aliasCycle), t) := by
  intro t
  have hrun : AliasRun t ⟨1⟩ (.scope ⟨2⟩) ["a", "b", "c"] :=
    .next ⟨⟨2⟩, rfl, _, rfl, rfl, rfl, rfl⟩
      (.next ⟨⟨3⟩, rfl, _, rfl, rfl, rfl, rfl⟩ (.last ⟨⟨4⟩, rfl, _, rfl, rfl, rfl, rfl⟩))
  have hring : AliasRun t ⟨1⟩ (.named "p") ["p", "q"] :=
    .next ⟨⟨5⟩, rfl, _, rfl, rfl, rfl, rfl⟩ (.last ⟨⟨6⟩, rfl, _, rfl, rfl, rfl, rfl⟩)
  have hexact (steps : Nat) := alias_budget_exact (s := ⟨1⟩) aliasTable_reachable .empty steps
  have hscope : t.HasScope ⟨2⟩ := by decide
  exact ⟨(hexact 3).1 hrun hscope rfl, (hexact 2).1 hrun hscope rfl, (hexact 1000).2 hring⟩

end NameLookup.SymbolTable
