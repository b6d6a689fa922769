import NameLookup.Analysis.Lookup

/-!
# Sessions

A session is a list of steps on an analysis. A step is an action, or a construct that encloses
further steps: an import, the import of a `switch`, or an instantiation. A construct opens something
before its steps and, however they end, leaves it afterwards in the way that its `Exit` says. An
action may end the session; the constructs around it are left all the same.

What actions there are is up to the caller, who may keep a state of type `σ` beside the analysis.
-/

set_option autoImplicit false

namespace NameLookup

/-- How a construct is left. -/
inductive Exit where
  /-- What it opened is closed. -/
  | release
  /-- What it opened is closed and handed out. -/
  | handOut
  /-- What it opened stays open. -/
  | leak
deriving DecidableEq

inductive Step (α : Type) where
  | action (a : α)
  | importing (operand : Operand) (kind : ImportKind) (extent : Extent) (exit : Exit)
      (body : List (Step α))
  | switching (controlling : Operand) (extent : Extent) (exit : Exit) (body : List (Step α))
  | instantiating (bindings : Substitution) (exit : Exit) (body : List (Step α))

/-- How the import of a construct ended. -/
inductive ImportEnd where
  | released
  /-- Closed and handed out, unless it was closed before. -/
  | handedOut (i : Option OpenImport)
  | leaked
deriving DecidableEq

/-- What a step came to. -/
inductive Trace (ρ : Type) where
  | answer (r : ρ)
  /-- The import was refused, and the steps inside were skipped. -/
  | refused (fault : ImportFault)
  /-- The `switch` opened nothing, and the steps inside were skipped. -/
  | unopened
  | opened (i : OpenImport) (body : List (Trace ρ)) (ended : ImportEnd)
  | instantiated (body : List (Trace ρ))

/-- A computation on an analysis and a state beside it. -/
abbrev SessionM (σ : Type) := StateT σ (StateM Analysis)

namespace Session

/-- Leaves a construct that opened an import. -/
def leaveImport (id : ImportId) : Exit → StateM Analysis ImportEnd
  | .release => do
    let _ ← Analysis.closeImport id
    return .released
  | .handOut => return .handedOut (← Analysis.closeImport id)
  | .leak => return .leaked

/-- Leaves an instantiation. -/
def leaveInstantiation : Exit → StateM Analysis Unit
  | .leak => return ()
  | _ => modify Analysis.leaveFrame

variable {α σ ρ : Type} (act : α → SessionM σ (ρ × Bool))

mutual

/-- Runs a step, given how to act; tells also whether the session goes on. -/
def runStep : Step α → SessionM σ (Trace ρ × Bool)
  | .action a => do
    let (r, goesOn) ← act a
    return (.answer r, goesOn)
  | .importing operand kind extent exit body => do
    match ← (Analysis.openImport operand kind extent).run with
    | .error fault => return (.refused fault, true)
    | .ok i =>
      let (traces, goesOn) ← runSteps body
      return (.opened i traces (← leaveImport i.id exit), goesOn)
  | .switching controlling extent exit body => do
    match ← (Analysis.openSwitchImport controlling extent).run with
    | .error fault => return (.refused fault, true)
    | .ok none => return (.unopened, true)
    | .ok (some i) =>
      let (traces, goesOn) ← runSteps body
      return (.opened i traces (← leaveImport i.id exit), goesOn)
  | .instantiating bindings exit body => do
    modifyThe Analysis (Analysis.enterFrame bindings)
    let (traces, goesOn) ← runSteps body
    leaveInstantiation exit
    return (.instantiated traces, goesOn)

/-- Runs steps in order until one ends the session. -/
def runSteps : List (Step α) → SessionM σ (List (Trace ρ) × Bool)
  | [] => return ([], true)
  | s :: ss => do
    let (trace, goesOn) ← runStep s
    if goesOn then
      let (traces, goesOn) ← runSteps ss
      return (trace :: traces, goesOn)
    else return ([trace], false)

end

end Session

end NameLookup
