import NameLookup.SymbolTable.Basic

/-!
# Scope chains and ordinary lookup

The chain of a place is the list of owners around it, innermost first. `ordinaryLookup` gives the
declarations of a name in the first link that has any. On top of it stand the two readings of a
name: as a type (`typeNamed?`) and as a value, which stands for the type of that value
(`typeOfValue?`).
-/

set_option autoImplicit false

namespace NameLookup

/-- The owners around a place, innermost first. -/
abbrev ScopeChain := List Owner

/-- The first scope of a chain. -/
def innermostScope? (chain : ScopeChain) : Option ScopeId := chain.findSome? Owner.scope?

namespace SymbolTable

variable (t : SymbolTable)

/-- At most `n` links from `s` outwards. -/
def scopeLinks : Nat → ScopeId → ScopeChain
  | 0, _ => []
  | n + 1, s => .scope s ::
    match (t.scope? s).bind (·.parent) with
    | none => []
    | some p => scopeLinks n p

/-- The scope and the scopes around it. A parent is older than its scope, so its number bounds how
many there are. -/
def chainOfScope (s : ScopeId) : ScopeChain := t.scopeLinks (s.index + 1) s

/-- The links from an owner outwards, through at most `n` blocks. -/
def ownerLinks : Nat → Owner → ScopeChain
  | _, .scope s => t.chainOfScope s
  | 0, .block _ => []
  | n + 1, .block b => .block b ::
    match t.block? b with
    | none => []
    | some e => ownerLinks n e.parent

/-- The block, the blocks around it and then the scopes around those. No way out has more blocks
than there are; where a block stands in itself, alone or through others, the way out never ends, and
the bound cuts it off. -/
def chainAt (b : BlockId) : ScopeChain := t.ownerLinks (t.blocks.size + 1) (.block b)

/-- The declarations of a name in the innermost link that has any. -/
def ordinaryLookup (name : Name) (chain : ScopeChain) : List DeclId :=
  ((chain.map fun o => (t.membersOf o).named name).find? (!·.isEmpty)).getD []

/-- The members of a scope that are declared under a name. -/
def membersNamed (s : ScopeId) (name : Name) : List DeclId :=
  (t.membersOf (.scope s)).decls.filter fun d => (t.decl? d).any (·.name = name)

/-- The name is a parameter of one of the class templates of the chain. -/
def isParamIn (chain : ScopeChain) (name : Name) : Bool :=
  chain.any fun o =>
    ((o.scope?.bind t.scope?).bind (·.templateParams)).any fun params => params.contains name

/-- The recorded type of the first of some declarations that satisfies `p`. -/
def firstType? (p : Declaration → Bool) (decls : List DeclId) : Option TypeExpr :=
  ((decls.filterMap t.decl?).find? p).bind (·.type)

/-- What a name stands for as a type: the target of the first declaration found that names a type,
or else the template parameter of that name. -/
def typeNamed? (name : Name) (chain : ScopeChain) : Option TypeExpr :=
  (t.firstType? (·.kind.namesType) (t.ordinaryLookup name chain)).or
    (if t.isParamIn chain name then some (.param name) else none)

/-- The type of the first declaration found that does not name a type. -/
def typeOfValue? (name : Name) (chain : ScopeChain) : Option TypeExpr :=
  t.firstType? (!·.kind.namesType) (t.ordinaryLookup name chain)

/-- What the first member of that name that names a type stands for. -/
def memberType? (s : ScopeId) (name : Name) : Option TypeExpr :=
  t.firstType? (·.kind.namesType) (t.membersNamed s name)

end SymbolTable

end NameLookup
