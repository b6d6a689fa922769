import NameLookup.SymbolTable.Instance

/-!
# Histories of a symbol table

`Reachable t` says that `t` came about from a fresh table by the operations of this library alone.
-/

set_option autoImplicit false

namespace NameLookup.SymbolTable

/-- One operation turns `t` into another table. An instantiation counts also when it fails. -/
inductive Change (t : SymbolTable) : SymbolTable → Prop where
  | addScope {parent s : ScopeId} {name : Name} {kind : ScopeKind} {params : Option (List Name)}
      {t' : SymbolTable} (h : t.addScope? parent name kind params = some (s, t')) : Change t t'
  | addEnum {parent s : ScopeId} {name : Name} {enumerators : List Name} {t' : SymbolTable}
      (h : t.addEnum? parent name enumerators = some (s, t')) : Change t t'
  | addBlock (parent : Owner) : Change t (t.addBlock parent).2
  | declare {d : Declaration} {id : DeclId} {t' : SymbolTable} (h : t.declare? d = some (id, t')) :
      Change t t'
  | addReexport {s target : ScopeId} {t' : SymbolTable} (h : t.addReexport? s target = some t') :
      Change t t'
  | setSpan (d : DeclId) (span : Range) : Change t (t.setSpan d span)
  | instantiate (key : InstanceKey) : Change t (instantiate key t).2

/-- The table came about from a fresh one. -/
inductive Reachable : SymbolTable → Prop where
  | new (limit : Nat) : Reachable (new limit)
  | change {t t' : SymbolTable} (h : Reachable t) (hc : Change t t') : Reachable t'

/-- Asking for an instance is an operation. -/
theorem Reachable.of_instantiate {t t' : SymbolTable} {key : InstanceKey}
    {r : Except InstantiationFault ScopeId} (h : t.Reachable) (hr : instantiate key t = (r, t')) :
    t'.Reachable := by
  have hafter := h.change (.instantiate key)
  rwa [hr] at hafter

/-! ## Tables built step by step -/

variable (t : SymbolTable)

/-- The table with one more scope, or as it was if that is refused. -/
def withScope (parent : ScopeId) (name : Name) (kind : ScopeKind) (params : Option (List Name)) :
    SymbolTable :=
  (t.addScope? parent name kind params).elim t (·.2)

/-- The table with one more declaration, or as it was if that is refused. -/
def withDecl (d : Declaration) : SymbolTable := (t.declare? d).elim t (·.2)

/-- The table with one more re-export, or as it was if that is refused. -/
def withReexport (s target : ScopeId) : SymbolTable := (t.addReexport? s target).getD t

variable {t}

theorem Reachable.withScope (h : t.Reachable) (parent : ScopeId) (name : Name) (kind : ScopeKind)
    (params : Option (List Name)) : (t.withScope parent name kind params).Reachable := by
  unfold SymbolTable.withScope
  cases ha : t.addScope? parent name kind params with
  | none => exact h
  | some r => exact h.change (.addScope ha)

theorem Reachable.withDecl (h : t.Reachable) (d : Declaration) : (t.withDecl d).Reachable := by
  unfold SymbolTable.withDecl
  cases hd : t.declare? d with
  | none => exact h
  | some r => exact h.change (.declare hd)

theorem Reachable.withReexport (h : t.Reachable) (s target : ScopeId) :
    (t.withReexport s target).Reachable := by
  unfold SymbolTable.withReexport
  cases hr : t.addReexport? s target with
  | none => exact h
  | some t' => exact h.change (.addReexport hr)

end NameLookup.SymbolTable
