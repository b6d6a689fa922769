import NameLookup.Lookup.Merge

/-!
# The state of an analysis

An `Analysis` walks through a program: it holds the symbol table, the imports in force, and a frame
for each template instantiation that it is inside of. Imports come into force with `openImport` and
`openSwitchImport` and end with `closeImport`. One whose operand needs template arguments is opened
all the same and waits.
-/

set_option autoImplicit false

namespace NameLookup

structure Options where
  /-- A case label of a `switch` over an enumeration sees the enumerators only. -/
  strictCaseLabels : Bool
  /-- How many steps an operand may take. -/
  stepBudget : Nat
deriving DecidableEq

/-- Lenient case labels and the usual budget. -/
def Options.default : Options := ⟨false, defaultStepBudget⟩

/-- What waiting imports came to, by import and bindings; latest first. -/
abbrev SettledImports := List ((ImportId × Substitution) × Contribution)

structure Analysis where
  table : SymbolTable
  options : Options
  associated : AssociatedScopes
  exportCache : ExportCache
  imports : OpenImports
  /-- The bindings of the instantiations under way, innermost first. -/
  frames : List Substitution
  settled : SettledImports

/-- A computation on an analysis. -/
abbrev AnalysisM := Attempt Analysis

namespace Analysis

/-- Starts on a table, with no import open. -/
def new (table : SymbolTable) (options : Options) (associated : AssociatedScopes) : Analysis :=
  ⟨table, options, associated, .empty, .empty, [], []⟩

/-- Runs a computation on the table of the analysis. -/
def onTable {ε α : Type} (x : TableM ε α) : AnalysisM ε α := fun a =>
  let (r, table) := x a.table
  (r, { a with table })

/-! ## Frames -/

/-- Enters an instantiation that binds parameters. -/
def enterFrame (σ : Substitution) (a : Analysis) : Analysis := { a with frames := σ :: a.frames }

/-- Leaves the innermost instantiation, if there is one. -/
def leaveFrame (a : Analysis) : Analysis := { a with frames := a.frames.tail }

/-- The bindings in force inside of some frames, innermost first: of a parameter that several bind,
the innermost counts. -/
def bindingsOf (frames : List Substitution) : Substitution :=
  frames.foldr (fun inner outer => outer.layered inner) .empty

/-- The bindings in force, inside of an instantiation. -/
def bindings? (a : Analysis) : Option Substitution :=
  if a.frames.isEmpty then none else some (bindingsOf a.frames)

/-! ## Opening and closing imports -/

/-- What a target exports, through the cache. -/
def fetchExports (target : Target) : AnalysisM ImportFault Exports := do
  let (exports, exportCache) ← onTable ((← get).exportCache.fetch target)
  modify ({ · with exportCache })
  return exports

/-- The state in which an import of `operand` opens, where `chain` is visible. -/
def openingState (operand : Operand) (chain : ScopeChain) : AnalysisM ImportFault ImportState := do
  let a ← get
  match ← onTable (SymbolTable.resolveOperand (bindingsOf a.frames) a.options.stepBudget operand
    chain) with
  | .resolved target => return .active target (← fetchExports target)
  | .deferred token => return .deferred token

/-- Puts an import in force. -/
def register (kind : ImportKind) (extent : Extent) (operand : Operand) (state : ImportState)
    (fromSwitch : Bool) : StateM Analysis OpenImport :=
  modifyGet fun a =>
    let (i, imports) := a.imports.insert kind extent operand state fromSwitch
    (i, { a with imports })

/-- Opens an import of `operand`. When it is refused nothing is opened. Once it is open the operand is
spelled again, and the opening is over only where that ends. -/
def openImport (operand : Operand) (kind : ImportKind) (extent : Extent) :
    AnalysisM ImportFault OpenImport := do
  let state ← openingState operand ((← get).table.chainAt extent.block)
  register kind extent operand state false

/-- Opens the fallback import of a `switch` with body `extent.block`. Nothing is opened when the
controlling operand is not of an enumeration. The body itself is not visible from the operand. -/
def openSwitchImport (controlling : Operand) (extent : Extent) :
    AnalysisM ImportFault (Option OpenImport) := do
  let chain := ((← get).table.chainAt extent.block).tail
  let some state ← tryCatch (some <$> openingState controlling chain) fun fault =>
      if fault.isNotAScope then return none else throw fault
    | return none
  if let .active _ exports := state then
    if exports.kind ≠ .enumType then return none
  return some (← register .fallback extent controlling state true)

/-- Closes an import, if it is open. What it came to when it waited is forgotten. -/
def closeImport (id : ImportId) : StateM Analysis (Option OpenImport) :=
  modifyGet fun a =>
    match a.imports.get? id with
    | none => (none, a)
    | some i =>
      (some i, { a with
        imports := a.imports.erase id
        settled := a.settled.filter (·.1.1 ≠ id) })

end Analysis

end NameLookup
