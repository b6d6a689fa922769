import NameLookup.Analysis.Lookup
import NameLookup.Operand.Steps

/-!
# Runs of the operations of an analysis

Each lemma says what one operation does to an analysis and with what result, in terms of the
operations that it is made of.
-/

set_option autoImplicit false

namespace NameLookup

open Attempt

namespace SymbolTable

theorem resolveOperand_run (σ : Substitution) (steps : Nat) (operand : Operand)
    (chain : ScopeChain) (t : SymbolTable) :
    resolveOperand σ steps operand chain t =
      match t.operandType? chain operand with
      | none => (.error (.unresolved (t.spellOperand operand) .unknownName), t)
      | some ty =>
        ((resolveType σ steps ty chain t).1.mapError
            (ResolutionFault.toImportFault (t.spellOperand operand)),
          (resolveType σ steps ty chain t).2) := by
  simp only [resolveOperand, run_bind, run_get, run_adapt]
  cases t.operandType? chain operand <;> rfl

theorem resumeDeferral_run (σ : Substitution) (steps : Nat) (token : Deferral) (t : SymbolTable) :
    resumeDeferral σ steps token t =
      ((resolveType σ steps token.type token.chain t).1.mapError
        (ResolutionFault.toImportFault (t.spellType token.type)),
        (resolveType σ steps token.type token.chain t).2) := by
  simp only [resumeDeferral, run_bind, run_get, run_adapt]

end SymbolTable

theorem ExportCache.fetch_run (c : ExportCache) (target : Target) (t : SymbolTable) :
    c.fetch target t =
      match c.entries.lookup target with
      | some exports => (.ok (exports, { c with hits := c.hits + 1 }), t)
      | none =>
        match SymbolTable.targetExports target t with
        | (.error fault, t) => (.error fault, t)
        | (.ok exports, t) => (.ok (exports, { c with entries := (target, exports) :: c.entries }), t)
    := by
  unfold fetch
  cases c.entries.lookup target with
  | some exports => rfl
  | none =>
    simp only [run_bind]
    rcases SymbolTable.targetExports target t with ⟨_ | _, _⟩ <;> rfl

namespace Analysis

variable (a : Analysis)

theorem onTable_run {ε α : Type} (x : TableM ε α) :
    onTable x a = ((x a.table).1, { a with table := (x a.table).2 }) := rfl

theorem fetchExports_run (target : Target) :
    fetchExports target a =
      match a.exportCache.fetch target a.table with
      | (.error fault, table) => (.error fault, { a with table })
      | (.ok (exports, exportCache), table) => (.ok exports, { a with table, exportCache }) := by
  simp only [fetchExports, run_bind, run_get, onTable_run]
  rcases a.exportCache.fetch target a.table with ⟨_ | _, _⟩ <;> rfl

theorem openingState_run (operand : Operand) (chain : ScopeChain) :
    openingState operand chain a =
      match SymbolTable.resolveOperand (bindingsOf a.frames) a.options.stepBudget operand chain
        a.table with
      | (.error fault, table) => (.error fault, { a with table })
      | (.ok (.deferred token), table) => (.ok (.deferred token), { a with table })
      | (.ok (.resolved target), table) =>
        match fetchExports target { a with table } with
        | (.error fault, a) => (.error fault, a)
        | (.ok exports, a) => (.ok (.active target exports), a) := by
  simp only [openingState, run_bind, run_get, onTable_run]
  rcases SymbolTable.resolveOperand (bindingsOf a.frames) a.options.stepBudget operand chain a.table
    with ⟨_ | target | token, table⟩
  · rfl
  · simp only [run_bind]
    rcases fetchExports target { a with table } with ⟨_ | _, _⟩ <;> rfl
  · rfl

theorem settle_run (σ : Substitution) (token : Deferral) :
    settle σ token a =
      match SymbolTable.resumeDeferral σ a.options.stepBudget token a.table with
      | (.error fault, table) => (.error fault, { a with table })
      | (.ok (.deferred _), table) => (.ok .pending, { a with table })
      | (.ok (.resolved target), table) =>
        match fetchExports target { a with table } with
        | (.error fault, a) => (.error fault, a)
        | (.ok exports, a) => (.ok (.ready exports), a) := by
  simp only [settle, run_bind, run_get, onTable_run]
  rcases SymbolTable.resumeDeferral σ a.options.stepBudget token a.table
    with ⟨_ | target | token, table⟩
  · rfl
  · simp only [run_bind]
    rcases fetchExports target { a with table } with ⟨_ | _, _⟩ <;> rfl
  · rfl

/-! ## Opening and closing -/

/-- The analysis with one more import. -/
def withImport (kind : ImportKind) (extent : Extent) (operand : Operand) (state : ImportState)
    (fromSwitch : Bool) : Analysis :=
  { a with imports := (a.imports.insert kind extent operand state fromSwitch).2 }

theorem openImport_run (operand : Operand) (kind : ImportKind) (extent : Extent) :
    openImport operand kind extent a =
      match openingState operand (a.table.chainAt extent.block) a with
      | (.error fault, a) => (.error fault, a)
      | (.ok state, a) =>
        (.ok (a.imports.insert kind extent operand state false).1,
          a.withImport kind extent operand state false) := by
  simp only [openImport, run_bind, run_get]
  rcases openingState operand (a.table.chainAt extent.block) a with ⟨_ | _, _⟩ <;> rfl

theorem openSwitchImport_run (controlling : Operand) (extent : Extent) :
    openSwitchImport controlling extent a =
      match openingState controlling (a.table.chainAt extent.block).tail a with
      | (.error fault, a) => (if fault.isNotAScope then .ok none else .error fault, a)
      | (.ok state, a) =>
        match state with
        | .active _ exports =>
          if exports.kind ≠ .enumType then (.ok none, a)
          else (.ok (some (a.imports.insert .fallback extent controlling state true).1),
            a.withImport .fallback extent controlling state true)
        | .deferred _ => (.ok (some (a.imports.insert .fallback extent controlling state true).1),
            a.withImport .fallback extent controlling state true) := by
  simp only [openSwitchImport, run_bind, run_get, run_tryCatch, run_map]
  rcases openingState controlling (a.table.chainAt extent.block).tail a
    with ⟨fault | ⟨target, exports⟩ | token, b⟩
  · simp only [Except.map]
    cases fault.isNotAScope <;> rfl
  · simp only [Except.map]
    by_cases h : exports.kind = .enumType
    · simp [h]
      rfl
    · simp [h]
  · rfl

/-- The analysis without an import, and without what it came to. -/
def withoutImport (id : ImportId) : Analysis :=
  { a with imports := a.imports.erase id, settled := a.settled.filter (·.1.1 ≠ id) }

theorem closeImport_run (id : ImportId) :
    closeImport id a =
      match a.imports.get? id with
      | none => (none, a)
      | some i => (some i, a.withoutImport id) := rfl

/-! ## Contributions -/

theorem outcomeOf_eq_ready {r : Except ImportFault Contribution} {e : Exports}
    (h : outcomeOf r = .ready e) : r = .ok (.ready e) := by
  rcases r with fault | c
  · cases h
  · exact congrArg _ h

theorem contribution_run (id : ImportId) (token : Deferral) :
    contribution id token a =
      match a.bindings? with
      | none => (.pending, a)
      | some σ =>
        match a.settled.lookup (id, σ) with
        | some known => (known, a)
        | none =>
          match settle σ token a with
          | (outcome, b) =>
            (outcomeOf outcome, { b with settled := ((id, σ), outcomeOf outcome) :: b.settled }) := by
  unfold contribution
  show (match a.bindings? with
    | none => (pure .pending : StateM Analysis Contribution)
    | some σ => _) a = _
  cases a.bindings? with
  | none => rfl
  | some σ =>
    show (match a.settled.lookup (id, σ) with
      | some known => (pure known : StateM Analysis Contribution)
      | none => _) a = _
    simp only
    cases a.settled.lookup (id, σ) <;> rfl

theorem contributionOf_run (i : OpenImport) :
    contributionOf i a =
      match i.state with
      | .active _ exports => (.ready exports, a)
      | .deferred token => contribution i.id token a := by
  unfold contributionOf
  cases i.state <;> rfl

theorem visibleAmong_cons (i : OpenImport) (is : List OpenImport) :
    visibleAmong (i :: is) a =
      (if i.fromSwitch && isIdleForSwitch (contributionOf i a).1 then
          (visibleAmong is (contributionOf i a).2).1
        else ⟨i.id, i.kind, (contributionOf i a).1⟩ :: (visibleAmong is (contributionOf i a).2).1,
        (visibleAmong is (contributionOf i a).2).2) := rfl

theorem visibleImports_run (p : Point) :
    visibleImports p a = visibleAmong (a.imports.inForceAt p) a := rfl

theorem lookup_run (name : Name) (p : Point) :
    lookup name p a =
      match visibleImports p a with
      | (imports, b) =>
        (b.table.lookupAt b.options.strictCaseLabels b.associated imports name p, b) := rfl

end Analysis

end NameLookup
