import NameLookup.Operand.Basic
import NameLookup.SymbolTable.Instance

/-!
# What operands denote

`resolveType` follows a type to the scope it denotes: names and aliases, bound parameters, members
of other types. Every hop takes one step of a budget, which is how alias cycles end. A type that
needs an unbound parameter is deferred. Template arguments are brought into canonical form by
`canonicalArg`, so that however they are spelled they select the same instance. Looking into an
instance builds it.
-/

set_option autoImplicit false

namespace NameLookup

/-- The step budget that suits ordinary programs. -/
def defaultStepBudget : Nat := 32

/-- Why a type was not followed to a scope. -/
inductive ResolutionFault where
  | operand (fault : OperandFault)
  | instantiation (fault : InstantiationFault)
deriving DecidableEq

/-- The fault of an import whose operand, in source form, is `operand`. -/
def ResolutionFault.toImportFault (operand : String) : ResolutionFault → ImportFault
  | .operand fault => .unresolved operand fault
  | .instantiation fault => .instantiation fault

namespace SymbolTable

/-- The scope whose members a target has; the instance is built if it is missing. -/
def concreteScope (target : Target) : TableM InstantiationFault ScopeId :=
  if target.args.isEmpty then return target.scope else instantiate ⟨target.scope, target.args⟩

/-- A scope as it stands, which must not be the generic body of a template. -/
def plainScope (s : ScopeId) : TableM ResolutionFault Resolution := do
  match (← get).scope? s with
  | none => throw (.operand .unknownName)
  | some e =>
    if e.isTemplate then throw (.operand .missingTemplateArguments) else return .resolved ⟨s, []⟩

/-- Follows a name where `chain` is visible. -/
def followName (name : Name) (chain : ScopeChain) : TableM ResolutionFault TypeExpr := do
  let some ty := (← get).typeNamed? name chain | throw (.operand .unknownName)
  return ty

/-- Follows a member of a target: what it stands for, and the chain in which that was written. -/
def followMember (target : Target) (name : Name) :
    TableM ResolutionFault (TypeExpr × ScopeChain) := do
  let s ← (concreteScope target).adapt ResolutionFault.instantiation
  let t ← get
  let some ty := t.memberType? s name | throw (.operand (.noSuchMember name))
  return (ty, t.chainOfScope s)

/-- Applies `f` to each argument in turn, up to the first that has no canonical form yet. -/
def canonicalArgs (f : TypeExpr → TableM ResolutionFault (Option TypeExpr)) :
    List TypeExpr → TableM ResolutionFault (Option (List TypeExpr))
  | [] => return some []
  | a :: as => do
    let some a ← f a | return none
    let some as ← canonicalArgs f as | return none
    return some (a :: as)

mutual

/-- The scope that a type denotes where `chain` is visible, or the part of it that waits. -/
def resolveType (σ : Substitution) :
    Nat → TypeExpr → ScopeChain → TableM ResolutionFault Resolution
  | 0, _, _ => throw (.operand .aliasCycle)
  | _ + 1, .scalar _, _ => throw (.operand .notAScope)
  | steps + 1, .named n, chain => do
    let next ← followName n chain
    resolveType σ steps next chain
  | _ + 1, .scope s, _ => plainScope s
  | steps + 1, .param p, chain =>
    (σ.get? p).elim (return .deferred ⟨.param p, chain⟩) fun bound =>
      resolveType σ steps bound chain
  | steps + 1, .apply template args, chain => do
    let args := TypeExpr.substituteAll σ args
    match ← canonicalArgs (fun a => canonicalArg σ steps a chain) args with
    | some canonical => return .resolved ⟨template, canonical⟩
    | none => return .deferred ⟨.apply template args, chain⟩
  | steps + 1, .member base n, chain => do
    match ← resolveType σ steps base chain with
    | .deferred _ => return .deferred ⟨.member base n, chain⟩
    | .resolved target =>
      let (next, inside) ← followMember target n
      resolveType σ steps next inside

/-- The canonical form of a template argument: a scalar, a scope, or a template applied to canonical
arguments. There is none while the argument needs an unbound parameter. -/
def canonicalArg (σ : Substitution) :
    Nat → TypeExpr → ScopeChain → TableM ResolutionFault (Option TypeExpr)
  | _, .scalar n, _ => return some (.scalar n)
  | _, .scope s, _ => return some (.scope s)
  | 0, _, _ => throw (.operand .aliasCycle)
  | steps + 1, .named n, chain => do
    let next ← followName n chain
    canonicalArg σ steps next chain
  | steps + 1, .param p, chain =>
    (σ.get? p).elim (return none) fun bound => canonicalArg σ steps bound chain
  | steps + 1, .apply template args, chain => do
    let canonical ← canonicalArgs (fun a => canonicalArg σ steps a chain) args
    return canonical.map (.apply template)
  | steps + 1, .member base n, chain => do
    match ← resolveType σ steps base chain with
    | .deferred _ => return none
    | .resolved target =>
      let (next, inside) ← followMember target n
      canonicalArg σ steps next inside

end

/-- The scope that an operand denotes where `chain` is visible, within a budget of steps. The operand
is spelled first, so there is an answer only where that ends. -/
def resolveOperand (σ : Substitution) (steps : Nat) (operand : Operand) (chain : ScopeChain) :
    TableM ImportFault Resolution := do
  let t ← get
  ExceptT.adapt (ResolutionFault.toImportFault (t.spellOperand operand)) do
    let some ty := t.operandType? chain operand | throw (.operand .unknownName)
    resolveType σ steps ty chain

/-- Asks again for a type that had to wait, and spells it first as well. -/
def resumeDeferral (σ : Substitution) (steps : Nat) (token : Deferral) :
    TableM ImportFault Resolution := do
  ExceptT.adapt (ResolutionFault.toImportFault ((← get).spellType token.type))
    (resolveType σ steps token.type token.chain)

end SymbolTable

end NameLookup
