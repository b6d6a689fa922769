import NameLookup.Symbol

/-!
# What can go wrong

The causes for which a template is not instantiated, an operand denotes no scope, or an import is
refused. Each has its wording in one function.
-/

set_option autoImplicit false

namespace NameLookup

/-- Why a template was not instantiated. -/
inductive InstantiationFault where
  | notATemplate (s : ScopeId)
  | arityMismatch (template : ScopeId) (expected found : Nat)
  | depthExceeded (limit : Nat)
  | unknownScope (s : ScopeId)
deriving DecidableEq

def InstantiationFault.message : InstantiationFault → String
  | notATemplate s => s!"{s.tag} is not a class template"
  | arityMismatch template expected found =>
    s!"template {template.tag} expects {expected} argument(s), {found} given"
  | depthExceeded limit => s!"template instantiation depth exceeds the limit of {limit}"
  | unknownScope s => s!"unknown scope {s.tag}"

/-- Why an operand denotes no scope. -/
inductive OperandFault where
  | notAScope
  | unknownName
  | missingTemplateArguments
  | noSuchMember (name : Name)
  | aliasCycle
deriving DecidableEq

def OperandFault.message : OperandFault → String
  | notAScope => "it is not a namespace, class, or enumeration"
  | unknownName => "the name is not declared"
  | missingTemplateArguments => "template arguments are required"
  | noSuchMember name => s!"it has no member type `{name}`"
  | aliasCycle => "the alias chain does not terminate"

/-- Why an import was refused. -/
inductive ImportFault where
  /-- The operand, in source form, denotes no scope. -/
  | unresolved (operand : String) (fault : OperandFault)
  /-- The operand denotes the generic body of a template. -/
  | genericBody (template : String)
  | instantiation (fault : InstantiationFault)
deriving DecidableEq

namespace ImportFault

def message : ImportFault → String
  | unresolved operand fault => s!"cannot import `{operand}`: {fault.message}"
  | genericBody template => s!"cannot import the generic body of template `{template}`"
  | instantiation fault => fault.message

/-- The operand is something that has no members. -/
def isNotAScope : ImportFault → Bool
  | unresolved _ .notAScope => true
  | _ => false

end ImportFault

end NameLookup
