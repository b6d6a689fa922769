import NameLookup.Declaration
import NameLookup.Scope

/-!
# The symbol table

A `SymbolTable` stores scopes, declarations and blocks by their handles, and the instances built so
far by their keys. It grows by `allocScope`, `declare` and `addBlock`; every declaration is entered
with its owner's members. What names an owner that does not exist is refused.
-/

set_option autoImplicit false

namespace NameLookup

structure SymbolTable where
  scopes : Array Scope
  decls : Array Declaration
  blocks : Array Block
  /-- The instances built so far, latest first. -/
  instances : List (InstanceKey × ScopeId)
  /-- How deep the nested scopes of a template may go for it to be instantiated. -/
  instantiationLimit : Nat

namespace SymbolTable

/-- The nesting limit that suits ordinary programs. -/
def defaultInstantiationLimit : Nat := 64

/-- The global namespace. -/
def global : ScopeId := ⟨0⟩

/-- A table that holds the global namespace only. -/
def new (limit : Nat) : SymbolTable where
  scopes := #[⟨none, .nameSpace, none, .empty, none, none, []⟩]
  decls := #[]
  blocks := #[]
  instances := []
  instantiationLimit := limit

variable (t : SymbolTable)

def scope? (s : ScopeId) : Option Scope := t.scopes[s.index]?

def decl? (d : DeclId) : Option Declaration := t.decls[d.index]?

def block? (b : BlockId) : Option Block := t.blocks[b.index]?

/-- The scope exists and is the generic body of a class template. -/
def isTemplate (s : ScopeId) : Bool := (t.scope? s).any (·.isTemplate)

/-- The members of an owner that exists. -/
def members? : Owner → Option Members
  | .scope s => (t.scope? s).map (·.members)
  | .block b => (t.block? b).map (·.members)

/-- The members of an owner; one that does not exist has none. -/
def membersOf (o : Owner) : Members := (t.members? o).getD .empty

/-- The instance that was built for a key. -/
def instance? (key : InstanceKey) : Option ScopeId := t.instances.lookup key

/-! ## Growing the table -/

/-- Enters a scope under the next handle. -/
def allocScope (e : Scope) : ScopeId × SymbolTable :=
  (⟨t.scopes.size⟩, { t with scopes := t.scopes.push e })

@[simp] theorem allocScope_fst (e : Scope) : (t.allocScope e).1 = ⟨t.scopes.size⟩ := rfl

/-- Lists a declaration as a member of its owner. -/
def listMember (name : Name) (d : DeclId) : Owner → SymbolTable
  | .scope s =>
    { t with
      scopes := t.scopes.modify s.index fun e => { e with members := e.members.push name d } }
  | .block b =>
    { t with
      blocks := t.blocks.modify b.index fun e => { e with members := e.members.push name d } }

/-- Enters a declaration, whose owner exists, under the next handle. -/
def declare (d : Declaration) : DeclId × SymbolTable :=
  let id : DeclId := ⟨t.decls.size⟩
  (id, { t.listMember d.name id d.owner with decls := t.decls.push d })

/-- Enters a declaration if its owner exists. -/
def declare? (d : Declaration) : Option (DeclId × SymbolTable) :=
  (t.members? d.owner).map fun _ => t.declare d

/-- Adds a scope inside `parent`, which also declares it as a nested type. The parent has to exist
before. A scope that is put inside of itself, under the handle that it is about to get, is left out
of account: the way outwards from there never ends, nor does its name. -/
def addScope? (parent : ScopeId) (name : Name) (kind : ScopeKind)
    (templateParams : Option (List Name)) : Option (ScopeId × SymbolTable) :=
  (t.scope? parent).map fun _ =>
    let (id, t) := t.allocScope ⟨some name, kind, some parent, .empty, templateParams, none, []⟩
    (id, (t.declare ⟨name, .nestedType, .scope parent, some (.scope id), none⟩).2)

/-- Adds an enumeration inside `parent`. Its enumerators have it as their type. -/
def addEnum? (parent : ScopeId) (name : Name) (enumerators : List Name) :
    Option (ScopeId × SymbolTable) :=
  (t.addScope? parent name .enumType none).map fun (id, t) =>
    (id, enumerators.foldl
      (fun t n => (t.declare ⟨n, .enumerator, .scope id, some (.scope id), none⟩).2) t)

/-- Adds a block; nothing is asked of its parent. -/
def addBlock (parent : Owner) : BlockId × SymbolTable :=
  (⟨t.blocks.size⟩, { t with blocks := t.blocks.push ⟨parent, .empty⟩ })

/-- Makes `targets` the re-exports of a scope. -/
def setReexports (s : ScopeId) (targets : List ScopeId) : SymbolTable :=
  { t with scopes := t.scopes.modify s.index fun e => { e with reexports := targets } }

/-- Lets whoever imports `s` also import `target`; a repetition changes nothing. -/
def addReexport? (s target : ScopeId) : Option SymbolTable :=
  (t.scope? s).map fun e =>
    if target ∈ e.reexports then t else t.setReexports s (e.reexports ++ [target])

/-- Records where a declaration is written. -/
def setSpan (d : DeclId) (span : Range) : SymbolTable :=
  { t with decls := t.decls.modify d.index fun e => { e with span := some span } }

/-- Forgets the scopes and declarations entered after the first so many of each. -/
def truncate (scopes decls : Nat) : SymbolTable :=
  { t with scopes := t.scopes.take scopes, decls := t.decls.take decls }

end SymbolTable

end NameLookup
