/-!
# Names and handles

Names are compared by their spelling. Scopes, declarations, lexical blocks and imports are known by
handles, numbered from 0 in order of creation; the four kinds of handle are types of their own.
-/

set_option autoImplicit false

namespace NameLookup

/-- A name is its spelling. -/
abbrev Name := String

/-- A namespace, class or enumeration. -/
structure ScopeId where
  index : Nat
deriving DecidableEq

/-- A declaration. -/
structure DeclId where
  index : Nat
deriving DecidableEq

/-- A lexical block. -/
structure BlockId where
  index : Nat
deriving DecidableEq

/-- An import. -/
structure ImportId where
  index : Nat
deriving DecidableEq

/-- How messages spell a scope that has no better name. -/
def ScopeId.tag (s : ScopeId) : String := s!"ScopeId({s.index})"

/-- How messages spell a declaration that has no better name. -/
def DeclId.tag (d : DeclId) : String := s!"DeclId({d.index})"

/-- What a declaration is a member of: a scope, or a lexical block. -/
inductive Owner where
  | scope (s : ScopeId)
  | block (b : BlockId)
deriving DecidableEq

/-- The scope, if the owner is one. -/
def Owner.scope? : Owner → Option ScopeId
  | .scope s => some s
  | .block _ => none

end NameLookup
