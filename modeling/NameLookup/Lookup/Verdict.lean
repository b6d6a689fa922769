import NameLookup.Symbol

/-!
# Candidates and verdicts

A lookup collects candidates: declarations, each with the route by which it was found. Candidates
that are the same declaration agree, whatever their routes; two different declarations are
ambiguous.
-/

set_option autoImplicit false

namespace NameLookup

/-- How a candidate was found. -/
inductive Origin where
  /-- Declared by a link of the scope chain. -/
  | ordinary (owner : Owner)
  /-- Brought in by an import of `scope`. -/
  | imported (id : ImportId) (scope : ScopeId)
  /-- A member of an associated scope. -/
  | associated (scope : ScopeId)
deriving DecidableEq

structure Candidate where
  decl : DeclId
  origin : Origin
deriving DecidableEq

/-- What a lookup comes to. -/
inductive Verdict where
  | unique (d : DeclId)
  /-- Different declarations were found, by these routes. -/
  | ambiguous (origins : List Origin)
  | notFound
  /-- Nothing was found yet, but an import that waits for template arguments may have it. -/
  | deferred
deriving DecidableEq

/-- The declarations among some candidates, each once, in order of first occurrence. -/
def distinctDecls (cs : List Candidate) : List DeclId := (cs.map (·.decl)).eraseDups

/-- The routes among some candidates, each once, in order of first occurrence. -/
def distinctOrigins (cs : List Candidate) : List Origin := (cs.map (·.origin)).eraseDups

namespace Verdict

/-- The verdict that candidates alone give. -/
def ofCandidates (cs : List Candidate) : Verdict :=
  match distinctDecls cs with
  | [] => notFound
  | [d] => unique d
  | _ => ambiguous (distinctOrigins cs)

/-- The declaration, if there is exactly one. -/
def decl? : Verdict → Option DeclId
  | unique d => some d
  | _ => none

def isUnique (v : Verdict) : Bool := v.decl?.isSome

def isAmbiguous : Verdict → Bool
  | ambiguous _ => true
  | _ => false

end Verdict

end NameLookup
