import NameLookup.Analysis.Basic

/-!
# Lookup during an analysis

A lookup first finds out what the imports in force at the point contribute. One that waits is
settled under the bindings in force, once for each import and bindings; outside of any instantiation
it stays pending.
-/

set_option autoImplicit false

namespace NameLookup.Analysis

/-- What a deferred type comes to under some bindings. -/
def settle (σ : Substitution) (token : Deferral) : AnalysisM ImportFault Contribution := do
  match ← onTable (SymbolTable.resumeDeferral σ (← get).options.stepBudget token) with
  | .resolved target => return .ready (← fetchExports target)
  | .deferred _ => return .pending

/-- What an import contributes whose deferred type came to that. -/
def outcomeOf : Except ImportFault Contribution → Contribution
  | .ok c => c
  | .error fault => .failed fault

/-- What a waiting import contributes under the bindings in force. -/
def contribution (id : ImportId) (token : Deferral) : StateM Analysis Contribution := do
  let a ← get
  match a.bindings? with
  | none => return .pending
  | some σ =>
    match a.settled.lookup (id, σ) with
    | some known => return known
    | none =>
      let found := outcomeOf (← (settle σ token).run)
      modify fun a => { a with settled := ((id, σ), found) :: a.settled }
      return found

/-- What an import contributes. -/
def contributionOf (i : OpenImport) : StateM Analysis Contribution :=
  match i.state with
  | .active _ exports => return .ready exports
  | .deferred token => contribution i.id token

/-- A contribution that a `switch` has no use for: it is of no enumeration. -/
def isIdleForSwitch : Contribution → Bool
  | .ready exports => exports.kind ≠ .enumType
  | .pending => false
  | .failed fault => fault.isNotAScope

/-- What imports contribute, in order; one made by a `switch` that turns out to be of no enumeration
is left out. -/
def visibleAmong : List OpenImport → StateM Analysis (List VisibleImport)
  | [] => return []
  | i :: is => do
    let found ← contributionOf i
    let rest ← visibleAmong is
    return if i.fromSwitch && isIdleForSwitch found then rest else ⟨i.id, i.kind, found⟩ :: rest

/-- The imports in force at a point with what they contribute. -/
def visibleImports (p : Point) : StateM Analysis (List VisibleImport) := do
  visibleAmong ((← get).imports.inForceAt p)

/-- Looks a name up at a point. -/
def lookup (name : Name) (p : Point) : StateM Analysis LookupOutcome := do
  let imports ← visibleImports p
  let a ← get
  return a.table.lookupAt a.options.strictCaseLabels a.associated imports name p

end NameLookup.Analysis
