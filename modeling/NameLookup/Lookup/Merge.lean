import NameLookup.Lookup.Verdict
import NameLookup.OpenImport

/-!
# Looking a name up at a point

`SymbolTable.lookupAt` merges what the scope chain declares with what the imports in force
contribute. An ordinary match hides the names of fallback imports but not those of unconditional
ones; without an ordinary match both count. In strict mode a case label of a `switch` over an
enumeration sees the enumerators only. Associated scopes are asked when nothing else was found.
-/

set_option autoImplicit false

namespace NameLookup

/-- What an import in force supplies. -/
inductive Contribution where
  | ready (exports : Exports)
  /-- The operand waits for template arguments. -/
  | pending
  /-- The operand turned out to be at fault. -/
  | failed (fault : ImportFault)
deriving DecidableEq

/-- An import in force at the point of a lookup. -/
structure VisibleImport where
  id : ImportId
  kind : ImportKind
  contribution : Contribution
deriving DecidableEq

namespace VisibleImport

/-- What the import exports, if that is known. -/
def exports? (i : VisibleImport) : Option Exports :=
  match i.contribution with
  | .ready exports => some exports
  | _ => none

/-- The candidates that the import supplies for a name. -/
def candidates (name : Name) (i : VisibleImport) : List Candidate :=
  match i.exports? with
  | none => []
  | some e => (e.members.named name).map (⟨·, .imported i.id e.scope⟩)

/-- A fallback import that is known to be of an enumeration. -/
def isEnumFallback (i : VisibleImport) : Bool :=
  i.kind = .fallback && i.exports?.any (·.kind = .enumType)

/-- Why the import supplies nothing, if its operand is at fault. -/
def fault? (i : VisibleImport) : Option (ImportId × ImportFault) :=
  match i.contribution with
  | .failed fault => some (i.id, fault)
  | _ => none

end VisibleImport

/-- A source of scopes to search when nothing else matches, such as those of a call's arguments. -/
abbrev AssociatedScopes := Name → Point → List ScopeId

/-- Why a lookup does not come to one declaration. -/
inductive LookupFault where
  | notFound (name : Name)
  | ambiguous (name : Name) (origins : List Origin)
  | deferred (name : Name)
deriving DecidableEq

def LookupFault.message : LookupFault → String
  | notFound name => s!"use of undeclared identifier `{name}`"
  | ambiguous name origins =>
    s!"reference to `{name}` is ambiguous ({origins.length} candidate scopes)"
  | deferred name => s!"`{name}` can only be resolved once the enclosing template is instantiated"

structure LookupOutcome where
  name : Name
  /-- In the order of the merge. -/
  candidates : List Candidate
  verdict : Verdict
  /-- The candidates of fallback imports that an ordinary match hides. -/
  hidden : List Candidate
  /-- The imports in force whose operand is at fault. -/
  unresolved : List (ImportId × ImportFault)
deriving DecidableEq

/-- The one declaration, or why there is none. -/
def LookupOutcome.result (o : LookupOutcome) : Except LookupFault DeclId :=
  match o.verdict with
  | .unique d => .ok d
  | .ambiguous origins => .error (.ambiguous o.name origins)
  | .notFound => .error (.notFound o.name)
  | .deferred => .error (.deferred o.name)

/-- The candidates that the chosen imports supply for a name. -/
def suppliedBy (imports : List VisibleImport) (name : Name) (chosen : VisibleImport → Bool) :
    List Candidate :=
  (imports.filter chosen).flatMap (·.candidates name)

/-- The candidates that are enumerators of the `switch`, then those enumerators that no candidate
gave. -/
def narrowTo (enumerators candidates : List Candidate) : List Candidate :=
  enumerators.foldl (fun kept c => if c ∈ kept then kept else kept ++ [c])
    (candidates.filter fun c => enumerators.any (·.decl = c.decl))

/-- Only the enumerators count: at a case label of a `switch` over an enumeration, in strict mode. -/
def isNarrowed (strict : Bool) (imports : List VisibleImport) (p : Point) : Bool :=
  strict && p.isCaseLabel && imports.any (·.isEnumFallback)

namespace SymbolTable

variable (t : SymbolTable)

/-- What ordinary lookup finds. -/
def ordinaryCandidates (name : Name) (chain : ScopeChain) : List Candidate :=
  (t.ordinaryLookup name chain).filterMap fun d => (t.decl? d).map fun e => ⟨d, .ordinary e.owner⟩

/-- The importable members that a scope has under a name. -/
def associatedCandidates (name : Name) (s : ScopeId) : List Candidate :=
  match t.scope? s with
  | none => []
  | some e => ((t.membersNamed s name).filter fun d => (t.decl? d).any (isImportable e.kind)).map
      (⟨·, .associated s⟩)

/-- What ordinary lookup finds at a point. -/
def ordinaryAt (name : Name) (p : Point) : List Candidate :=
  t.ordinaryCandidates name (t.chainAt p.block)

section
variable (strict : Bool) (associated : AssociatedScopes) (imports : List VisibleImport)
  (name : Name) (p : Point)

/-- The ordinary candidates, or else those of the fallback imports, and then those of the others. -/
def mergedAt : List Candidate :=
  (if (t.ordinaryAt name p).isEmpty then suppliedBy imports name (·.kind = .fallback)
    else t.ordinaryAt name p) ++ suppliedBy imports name (·.kind = .unconditional)

/-- The merged candidates, narrowed to the enumerators where only these count. -/
def foundAt : List Candidate :=
  if isNarrowed strict imports p then
    narrowTo (suppliedBy imports name (·.isEnumFallback)) (t.mergedAt imports name p)
  else t.mergedAt imports name p

/-- What was found, or else what the associated scopes have. -/
def candidatesAt : List Candidate :=
  if (t.foundAt strict imports name p).isEmpty then
    (associated name p).flatMap (t.associatedCandidates name)
  else t.foundAt strict imports name p

/-- The candidates of fallback imports that an ordinary match hides. -/
def hiddenAt : List Candidate :=
  if (t.ordinaryAt name p).isEmpty || isNarrowed strict imports p then []
  else (suppliedBy imports name (·.kind = .fallback)).filter fun c =>
    !(t.ordinaryAt name p).any (·.decl = c.decl)

/-- The verdict on the candidates. Without any, one that waits may still supply some. -/
def verdictAt : Verdict :=
  if (t.candidatesAt strict associated imports name p).isEmpty &&
      imports.any (·.contribution = .pending) then .deferred
  else .ofCandidates (t.candidatesAt strict associated imports name p)

/-- Looks `name` up at a point where `imports` are in force. -/
def lookupAt : LookupOutcome where
  name := name
  candidates := t.candidatesAt strict associated imports name p
  verdict := t.verdictAt strict associated imports name p
  hidden := t.hiddenAt strict imports name p
  unresolved := imports.filterMap (·.fault?)

end

end SymbolTable

end NameLookup
