import NameLookup.Operand.Resolution

/-!
# What a scope exports to an importer

Importing a scope brings in its members that can be used without an object, and those of the scopes
that it re-exports, directly or through others. `ExportCache` remembers what was worked out for a
target and counts how often that was of use.
-/

set_option autoImplicit false

namespace NameLookup

/-- A member of a scope of that kind can be imported: enumerators always, non-static members never,
and nothing else out of an enumeration. -/
def isImportable (kind : ScopeKind) (d : Declaration) : Bool :=
  match d.kind with
  | .enumerator => true
  | .nonStaticMember => false
  | _ => kind ≠ .enumType ∧ d.kind.storage = .perClass

/-- The importable declarations of a scope: its own first, then those it re-exports. -/
structure Exports where
  scope : ScopeId
  kind : ScopeKind
  members : Members
deriving DecidableEq

namespace SymbolTable

variable (t : SymbolTable)

/-- Adds `s`, and what it re-exports down to a depth of `n`, to the scopes already reached; each is
listed once, after the scope that led to it. -/
def reachFrom : Nat → List ScopeId → ScopeId → List ScopeId
  | 0, reached, _ => reached
  | n + 1, reached, s =>
    if s ∈ reached then reached
    else
      match t.scope? s with
      | none => reached ++ [s]
      | some e => e.reexports.foldl (reachFrom n) (reached ++ [s])

/-- The scopes reached from `s` by re-exports, in the order in which their members are listed. Each
step of a path leads to another scope, so the number of scopes bounds the depth. -/
def reexportClosure (s : ScopeId) : List ScopeId := t.reachFrom (t.scopes.size + 1) [] s

/-- Adds the importable members of a scope. -/
def exportFrom (m : Members) (s : ScopeId) : Members :=
  match t.scope? s with
  | none => m
  | some e => e.members.decls.foldl (fun m d =>
      match t.decl? d with
      | some decl => if isImportable e.kind decl then m.push decl.name d else m
      | none => m) m

/-- What a scope of that kind exports. -/
def exportsOf (s : ScopeId) (kind : ScopeKind) : Exports :=
  ⟨s, kind, (t.reexportClosure s).foldl t.exportFrom .empty⟩

/-- What a target exports. The generic body of a template cannot be imported. -/
def targetExports (target : Target) : TableM ImportFault Exports := do
  let s ← (concreteScope target).adapt ImportFault.instantiation
  let t ← get
  let some e := t.scope? s | throw (.instantiation (.unknownScope s))
  if e.isTemplate then throw (.genericBody (t.qualifiedName s))
  return t.exportsOf s e.kind

end SymbolTable

/-- The exports worked out so far, by target. -/
structure ExportCache where
  /-- Latest first. -/
  entries : List (Target × Exports)
  /-- How many requests were answered from the entries. -/
  hits : Nat
deriving DecidableEq

namespace ExportCache

def empty : ExportCache := ⟨[], 0⟩

/-- How many targets are remembered. -/
def size (c : ExportCache) : Nat := c.entries.length

/-- The exports of a target, remembered or worked out now, and the cache afterwards. -/
def fetch (c : ExportCache) (target : Target) : TableM ImportFault (Exports × ExportCache) := do
  match c.entries.lookup target with
  | some exports => return (exports, { c with hits := c.hits + 1 })
  | none =>
    let exports ← SymbolTable.targetExports target
    return (exports, { c with entries := (target, exports) :: c.entries })

end ExportCache

end NameLookup
