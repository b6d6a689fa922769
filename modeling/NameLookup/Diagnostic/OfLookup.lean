import NameLookup.Diagnostic.Basic
import NameLookup.Lookup.Merge

/-!
# What to report about a lookup

A lookup that finds nothing, or more than one thing, is an error; one that finds an ordinary
declaration where an enumerator is hidden deserves a warning. Each import at fault is an error of
its own.
-/

set_option autoImplicit false

namespace NameLookup

namespace Diagnostic

/-- A diagnostic of one of the kinds below. -/
def coded (severity : Severity) (code : String) (range : Range) (message : String)
    (notes : List Note) : Diagnostic :=
  ⟨range, severity, some code, message, notes⟩

/-- The name is not declared. -/
def undefinedReference := coded .error "E0001"

/-- Several declarations answer to the name. -/
def ambiguousReference := coded .error "E0002"

/-- The operand of an import denotes no scope that can be imported. -/
def unresolvedScope := coded .error "E0003"

/-- A template was not instantiated. -/
def instantiationFailed := coded .error "E0004"

/-- An ordinary declaration hides an enumerator. -/
def hiddenEnumerator := coded .warning "W0001"

/-- The error for an import that was refused. -/
def ofImportFault (range : Range) (fault : ImportFault) : Diagnostic :=
  match fault with
  | .instantiation _ => instantiationFailed range fault.message []
  | .unresolved _ _ | .genericBody _ => unresolvedScope range fault.message []

end Diagnostic

namespace SymbolTable

variable (t : SymbolTable)

/-- A note that names a declaration, and tells where it is. -/
def declNote (what : String) (d : DeclId) : Note :=
  ⟨(t.decl? d).bind (·.span), s!"{what}: {t.spellDecl d}"⟩

/-- A route in words. -/
def spellOrigin : Origin → String
  | .ordinary owner => s!"ordinary lookup in {t.spellOwner owner}"
  | .imported _ s => s!"import of {t.qualifiedName s}"
  | .associated s => s!"associated scope {t.qualifiedName s}"

/-- A note that names a route. -/
def originNote (o : Origin) : Note := ⟨none, s!"visible via {t.spellOrigin o}"⟩

/-- What to report about the verdict of a lookup made at `range`. -/
def reportVerdict (range : Range) (o : LookupOutcome) : Report :=
  match o.verdict with
  | .unique _ =>
    if o.hidden.isEmpty then []
    else [.hiddenEnumerator range
      s!"'{o.name}' refers to a local declaration, not the enumerator"
      (o.hidden.map fun c => t.declNote "hidden candidate" c.decl)]
  | .ambiguous origins =>
    let decls := distinctDecls o.candidates
    let names := ", ".intercalate (decls.map t.spellDecl)
    [.ambiguousReference range s!"ambiguous reference: '{o.name}' could be: {names}"
      (decls.map (t.declNote "candidate") ++ origins.map t.originNote)]
  | .notFound => [.undefinedReference range s!"undefined reference: '{o.name}'" []]
  | .deferred => []

/-- What to report about a lookup made at `range`. -/
def reportLookup (range : Range) (o : LookupOutcome) : Report :=
  t.reportVerdict range o ++ o.unresolved.map fun u => .ofImportFault range u.2

end SymbolTable

end NameLookup
