import NameLookup.SymbolTable.Basic

/-!
# Spelling scopes and types

A scope is spelled with the scopes around it, `a::b`, and an instance with its arguments,
`List<int>`. The global namespace, and what does not exist, is spelled `::`.

Spelling an instance that is mentioned among its own arguments never ends. The texts that such
scopes are given here stand for that, and are no answers.
-/

set_option autoImplicit false

namespace NameLookup

namespace TypeExpr

/-- An argument list between angle brackets. -/
def bracketed (args : List String) : String := "<" ++ ", ".intercalate args ++ ">"

mutual

/-- The type in source form, given how scopes are spelled. -/
def spell (scopeName : ScopeId → String) : TypeExpr → String
  | .scalar n | .named n | .param n => n
  | .scope s => scopeName s
  | .apply t args => scopeName t ++ bracketed (spellAll scopeName args)
  | .member base n => base.spell scopeName ++ "::" ++ n

/-- Each of the arguments in source form. -/
def spellAll (scopeName : ScopeId → String) : List TypeExpr → List String
  | [] => []
  | a :: as => a.spell scopeName :: spellAll scopeName as

end

end TypeExpr

/-- The parts of a qualified name joined; without any part it is the global namespace. -/
def joinSegments : List String → String
  | [] => "::"
  | parts => "::".intercalate parts

namespace SymbolTable

variable (t : SymbolTable)

/-- The parts of the qualified name of a scope, outermost first, down to a depth of `n`, while the
scopes of `path` are being spelled. If one of these comes up again its name has no end. It is left
out then for the definition to be total, not because spelling would stop there. -/
def segments : Nat → List ScopeId → ScopeId → List String
  | 0, _, _ => []
  | n + 1, path, s =>
    if s ∈ path then []
    else
      match t.scope? s with
      | none => []
      | some e =>
        let outer := match e.parent with
          | none => []
          | some p => segments n (s :: path) p
        let own := match e.name, e.instanceOf with
          | none, _ => []
          | some name, none => [name]
          | some name, some key =>
            let spelled := fun r => joinSegments (segments n (s :: path) r)
            [name ++ TypeExpr.bracketed (TypeExpr.spellAll spelled key.args)]
        outer ++ own

/-- The scope with the scopes around it. A name that ends comes to no scope twice on the way down, so
the number of scopes bounds how deep it goes. -/
def qualifiedName (s : ScopeId) : String := joinSegments (t.segments (t.scopes.size + 1) [] s)

/-- A type in source form. -/
def spellType (ty : TypeExpr) : String := ty.spell t.qualifiedName

/-- An owner as messages name it. -/
def spellOwner : Owner → String
  | .scope s => t.qualifiedName s
  | .block _ => "local scope"

/-- A declaration with its owner. -/
def spellDecl (d : DeclId) : String :=
  match t.decl? d with
  | none => d.tag
  | some e =>
    let owner := t.spellOwner e.owner
    if owner = "::" then s!"::{e.name}" else s!"{owner}::{e.name}"

end SymbolTable

end NameLookup
