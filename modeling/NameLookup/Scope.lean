import NameLookup.Members
import NameLookup.TypeExpr.Basic

/-!
# Scopes and blocks

A scope is a namespace, a class or an enumeration. A class template is a class with template
parameters; an instance of it remembers the template and the arguments it was built for. A block is
a piece of code between braces.
-/

set_option autoImplicit false

namespace NameLookup

inductive ScopeKind where
  | nameSpace
  | classType
  | enumType
deriving DecidableEq

/-- The kind in words. -/
def ScopeKind.text : ScopeKind → String
  | nameSpace => "namespace"
  | classType => "class"
  | enumType => "enum"

/-- A class template with an argument list: what an instance is built for and found by. -/
structure InstanceKey where
  template : ScopeId
  args : List TypeExpr
deriving DecidableEq

structure Scope where
  /-- The global namespace has no name. -/
  name : Option Name
  kind : ScopeKind
  /-- The scope around this one. -/
  parent : Option ScopeId
  members : Members
  /-- The parameters of a class template. -/
  templateParams : Option (List Name)
  /-- What this scope is an instance of. -/
  instanceOf : Option InstanceKey
  /-- The scopes whose names are handed on to whoever imports this one. -/
  reexports : List ScopeId
deriving DecidableEq

/-- The scope is the generic body of a class template. -/
def Scope.isTemplate (s : Scope) : Bool := s.templateParams.isSome

/-- A lexical block, inside a scope or another block. -/
structure Block where
  parent : Owner
  members : Members
deriving DecidableEq

end NameLookup
