import NameLookup.SymbolTable.Basic

/-!
# What the operations do to the entries

Each lemma reads an entry of the table after an operation in terms of the table before. A new scope,
declaration or block stands under the next handle and leaves the others alone; a declaration is
listed by its owner and by no one else.
-/

set_option autoImplicit false

namespace NameLookup.SymbolTable

variable (t : SymbolTable)

/-! ## New scopes -/

theorem scope?_allocScope (e : Scope) (s : ScopeId) :
    (t.allocScope e).2.scope? s = if s = ⟨t.scopes.size⟩ then some e else t.scope? s := by
  obtain ⟨i⟩ := s
  simp [allocScope, scope?, Array.getElem?_push]

@[simp] theorem decl?_allocScope (e : Scope) (d : DeclId) :
    (t.allocScope e).2.decl? d = t.decl? d := rfl

@[simp] theorem block?_allocScope (e : Scope) (b : BlockId) :
    (t.allocScope e).2.block? b = t.block? b := rfl

theorem members?_allocScope (e : Scope) (o : Owner) :
    (t.allocScope e).2.members? o =
      if o = .scope ⟨t.scopes.size⟩ then some e.members else t.members? o := by
  cases o with
  | block b => simp [members?]
  | scope s => by_cases h : s = ⟨t.scopes.size⟩ <;> simp [members?, scope?_allocScope, h]

/-! ## New blocks -/

theorem block?_addBlock (parent : Owner) (b : BlockId) :
    (t.addBlock parent).2.block? b =
      if b = ⟨t.blocks.size⟩ then some ⟨parent, .empty⟩ else t.block? b := by
  obtain ⟨i⟩ := b
  simp [addBlock, block?, Array.getElem?_push]

theorem members?_addBlock (parent : Owner) (o : Owner) :
    (t.addBlock parent).2.members? o =
      if o = .block ⟨t.blocks.size⟩ then some .empty else t.members? o := by
  cases o with
  | scope s => simp [members?, addBlock, scope?]
  | block b => by_cases h : b = ⟨t.blocks.size⟩ <;> simp [members?, block?_addBlock, h]

/-! ## New declarations -/

theorem scope?_listMember (name : Name) (d : DeclId) (o : Owner) (s : ScopeId) :
    (t.listMember name d o).scope? s = (t.scope? s).map fun e =>
      if o = .scope s then { e with members := e.members.push name d } else e := by
  obtain ⟨i⟩ := s
  cases o with
  | block b => simp [listMember, scope?]
  | scope s' =>
    obtain ⟨j⟩ := s'
    by_cases h : j = i <;> simp [listMember, scope?, Array.getElem?_modify, h]

theorem block?_listMember (name : Name) (d : DeclId) (o : Owner) (b : BlockId) :
    (t.listMember name d o).block? b = (t.block? b).map fun e =>
      if o = .block b then { e with members := e.members.push name d } else e := by
  obtain ⟨i⟩ := b
  cases o with
  | scope s => simp [listMember, block?]
  | block b' =>
    obtain ⟨j⟩ := b'
    by_cases h : j = i <;> simp [listMember, block?, Array.getElem?_modify, h]

theorem members?_listMember (name : Name) (d : DeclId) (o o' : Owner) :
    (t.listMember name d o).members? o' =
      if o = o' then (t.members? o').map (·.push name d) else t.members? o' := by
  cases o' with
  | scope s =>
    simp only [members?, scope?_listMember]
    cases t.scope? s <;> by_cases h : o = .scope s <;> simp [h]
  | block b =>
    simp only [members?, block?_listMember]
    cases t.block? b <;> by_cases h : o = .block b <;> simp [h]

@[simp] theorem declare_fst (d : Declaration) : (t.declare d).1 = ⟨t.decls.size⟩ := rfl

@[simp] theorem decls_declare (d : Declaration) : (t.declare d).2.decls = t.decls.push d := rfl

theorem decl?_declare (d : Declaration) (id : DeclId) :
    (t.declare d).2.decl? id = if id = ⟨t.decls.size⟩ then some d else t.decl? id := by
  obtain ⟨i⟩ := id
  simp [decl?, Array.getElem?_push]

theorem scope?_declare (d : Declaration) (s : ScopeId) :
    (t.declare d).2.scope? s = (t.scope? s).map fun e =>
      if d.owner = .scope s then { e with members := e.members.push d.name ⟨t.decls.size⟩ }
      else e :=
  scope?_listMember t d.name ⟨t.decls.size⟩ d.owner s

theorem block?_declare (d : Declaration) (b : BlockId) :
    (t.declare d).2.block? b = (t.block? b).map fun e =>
      if d.owner = .block b then { e with members := e.members.push d.name ⟨t.decls.size⟩ }
      else e :=
  block?_listMember t d.name ⟨t.decls.size⟩ d.owner b

theorem members?_declare (d : Declaration) (o : Owner) :
    (t.declare d).2.members? o =
      if d.owner = o then (t.members? o).map (·.push d.name ⟨t.decls.size⟩) else t.members? o :=
  members?_listMember t d.name ⟨t.decls.size⟩ d.owner o

@[simp] theorem scopes_size_declare (d : Declaration) :
    (t.declare d).2.scopes.size = t.scopes.size := by
  cases h : d.owner <;> simp [declare, listMember, h]

@[simp] theorem instances_declare (d : Declaration) :
    (t.declare d).2.instances = t.instances := by
  cases h : d.owner <;> simp [declare, listMember, h]

@[simp] theorem limit_declare (d : Declaration) :
    (t.declare d).2.instantiationLimit = t.instantiationLimit := by
  cases h : d.owner <;> simp [declare, listMember, h]

theorem blocks_declare_scope {d : Declaration} {s : ScopeId} (h : d.owner = .scope s) :
    (t.declare d).2.blocks = t.blocks := by
  simp [declare, listMember, h]

/-! ## Re-exports -/

theorem scope?_setReexports (s r : ScopeId) (targets : List ScopeId) :
    (t.setReexports s targets).scope? r = (t.scope? r).map fun e =>
      if s = r then { e with reexports := targets } else e := by
  obtain ⟨i⟩ := s
  obtain ⟨j⟩ := r
  by_cases h : i = j <;> simp [setReexports, scope?, Array.getElem?_modify, h]

@[simp] theorem decl?_setReexports (s : ScopeId) (targets : List ScopeId) (d : DeclId) :
    (t.setReexports s targets).decl? d = t.decl? d := rfl

@[simp] theorem block?_setReexports (s : ScopeId) (targets : List ScopeId) (b : BlockId) :
    (t.setReexports s targets).block? b = t.block? b := rfl

@[simp] theorem members?_setReexports (s : ScopeId) (targets : List ScopeId) (o : Owner) :
    (t.setReexports s targets).members? o = t.members? o := by
  cases o with
  | block b => rfl
  | scope r =>
    simp only [members?, scope?_setReexports]
    cases t.scope? r <;> by_cases h : s = r <;> simp [h]

@[simp] theorem scopes_size_setReexports (s : ScopeId) (targets : List ScopeId) :
    (t.setReexports s targets).scopes.size = t.scopes.size := by
  simp [setReexports]

/-! ## Spans -/

@[simp] theorem members?_setSpan (d : DeclId) (span : Range) (o : Owner) :
    (t.setSpan d span).members? o = t.members? o := rfl

@[simp] theorem scope?_setSpan (d : DeclId) (span : Range) (s : ScopeId) :
    (t.setSpan d span).scope? s = t.scope? s := rfl

@[simp] theorem decls_size_setSpan (d : DeclId) (span : Range) :
    (t.setSpan d span).decls.size = t.decls.size := by
  simp [setSpan]

theorem decl?_setSpan (d id : DeclId) (span : Range) :
    (t.setSpan d span).decl? id = (t.decl? id).map fun e =>
      if d = id then { e with span := some span } else e := by
  obtain ⟨i⟩ := d
  obtain ⟨j⟩ := id
  by_cases h : i = j <;> simp [setSpan, decl?, Array.getElem?_modify, h]

end NameLookup.SymbolTable
