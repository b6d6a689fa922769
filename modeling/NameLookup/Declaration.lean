import NameLookup.Source.Range
import NameLookup.TypeExpr.Basic

/-!
# Declarations

What a declaration declares decides two things that lookup asks about: whether its name can stand
for a type (`DeclKind.namesType`) and whether it can be used without an object of its class
(`DeclKind.storage`).
-/

set_option autoImplicit false

namespace NameLookup

/-- Whether a member belongs to the class or to each object of it. -/
inductive Storage where
  | perClass
  | perObject
deriving DecidableEq

inductive DeclKind where
  | typeAlias
  | staticData
  | staticFunction
  | nonStaticMember
  | enumerator
  | nestedType
  | var
  | func
deriving DecidableEq

namespace DeclKind

/-- Only non-static members need an object. -/
def storage : DeclKind → Storage
  | nonStaticMember => .perObject
  | _ => .perClass

/-- The declared name stands for a type. -/
def namesType : DeclKind → Bool
  | typeAlias | nestedType => true
  | _ => false

/-- The kind in words. -/
def text : DeclKind → String
  | typeAlias => "type alias"
  | staticData => "static data member"
  | staticFunction => "static member function"
  | nonStaticMember => "non-static member"
  | enumerator => "enumerator"
  | nestedType => "nested type"
  | var => "variable"
  | func => "function"

end DeclKind

/-- A declaration as its owner lists it. -/
structure Declaration where
  name : Name
  kind : DeclKind
  owner : Owner
  /-- The declared type, or the type that an alias or nested type stands for. -/
  type : Option TypeExpr
  /-- Where it is written, if that is known. -/
  span : Option Range
deriving DecidableEq

end NameLookup
