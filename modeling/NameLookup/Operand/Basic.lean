import NameLookup.SymbolTable.Chain
import NameLookup.SymbolTable.Spelling

/-!
# Operands of imports

An `Operand` is what an import names: a type, or a value whose type is meant. It denotes a `Target`,
or else it mentions a template parameter that is not bound yet, and a `Deferral` keeps what is
needed to ask again.
-/

set_option autoImplicit false

namespace NameLookup

inductive Operand where
  | type (ty : TypeExpr)
  | value (name : Name)
deriving DecidableEq

/-- A scope, or with arguments the instance of a class template. -/
structure Target where
  scope : ScopeId
  args : List TypeExpr
deriving DecidableEq

/-- A type that waits for template arguments, and the chain in which its names are looked up. -/
structure Deferral where
  type : TypeExpr
  chain : ScopeChain
deriving DecidableEq

inductive Resolution where
  | resolved (target : Target)
  | deferred (token : Deferral)
deriving DecidableEq

/-- An operand in source form. -/
def SymbolTable.spellOperand (t : SymbolTable) : Operand → String
  | .type ty => t.spellType ty
  | .value name => name

/-- The type that an operand names, its own names not yet followed. -/
def SymbolTable.operandType? (t : SymbolTable) (chain : ScopeChain) : Operand → Option TypeExpr
  | .type (.named n) => t.typeNamed? n chain
  | .type ty => some ty
  | .value n => t.typeOfValue? n chain

end NameLookup
