import NameLookup.Source.LineMap
import NameLookup.Source.Range

/-!
# Diagnostics

A `Diagnostic` is a located message, with notes on what else it concerns. A report is a list of
them.
-/

set_option autoImplicit false

namespace NameLookup

inductive Severity where
  | error
  | warning
deriving DecidableEq

def Severity.text : Severity → String
  | error => "error"
  | warning => "warning"

/-- A remark that goes with a diagnostic. -/
structure Note where
  /-- Where the declaration in question is written, if that is known. -/
  location : Option Range
  message : String
deriving DecidableEq

structure Diagnostic where
  range : Range
  severity : Severity
  /-- A short code for the kind of problem. -/
  code : Option String
  message : String
  notes : List Note
deriving DecidableEq

namespace Diagnostic

/-- The file that the diagnostic is about. -/
def file (d : Diagnostic) : FileId := d.range.file

/-- The diagnostic on one line, without its place. -/
def text (d : Diagnostic) : String :=
  match d.code with
  | some code => s!"{d.severity.text}[{code}]: {d.message}"
  | none => s!"{d.severity.text}: {d.message}"

/-- Where the diagnostic starts and ends, in lines and columns. -/
def lineCols (d : Diagnostic) (m : LineMap) : LineCol × LineCol :=
  (m.locate d.range.start, m.locate d.range.stop)

end Diagnostic

/-- Diagnostics in the order in which they came up. -/
abbrev Report := List Diagnostic

namespace Report

def errorCount (r : Report) : Nat := r.countP (·.severity = .error)

def warningCount (r : Report) : Nat := r.countP (·.severity = .warning)

def hasErrors (r : Report) : Bool := r.any (·.severity = .error)

def forFile (r : Report) (file : FileId) : Report := r.filter (·.file = file)

end Report

end NameLookup
