import NameLookup.Attempt
import NameLookup.Fault
import NameLookup.SymbolTable.Basic
import NameLookup.TypeExpr.Substitution

/-!
# Instances of class templates

An instance is a copy of the body of a class template in which the parameters are replaced by the
arguments; scopes nested in the body are copied along. `instantiate` builds the instance of a key
once, and gives it again when asked again. When it fails, at whatever depth, the scopes and
declarations that the attempt entered are forgotten.
-/

set_option autoImplicit false

namespace NameLookup

/-- A computation on the symbol table. -/
abbrev TableM := Attempt SymbolTable

/-- The copies of nested scopes made so far, latest first. -/
abbrev Copies := List (ScopeId × ScopeId)

namespace SymbolTable

/-- The scope is one to copy along with `source`: it lies directly inside it, or does not exist,
which copying it will tell. -/
def isNestedIn (t : SymbolTable) (source s : ScopeId) : Bool :=
  (t.scope? s).all (·.parent = some source)

/-- The type of a declaration copied from `source` to `target`. A reference to `source` becomes one
to `target`, a nested type is copied with `copyNested`, and in other types the parameters are
replaced. -/
def copyType (copyNested : ScopeId → TableM InstantiationFault ScopeId) (source target : ScopeId)
    (σ : Substitution) (kind : DeclKind) (copies : Copies) :
    Option TypeExpr → TableM InstantiationFault (Option TypeExpr × Copies)
  | some (.scope s) => do
    if s = source then
      return (some (.scope target), copies)
    else if kind = .nestedType ∧ (← get).isNestedIn source s then
      let copy ← copyNested s
      return (some (.scope copy), (s, copy) :: copies)
    else
      return (some (.scope s), copies)
  | type => return (type.map (·.substitute σ), copies)

/-- Copies declarations of `source` to `target`, in order. -/
def copyDecls (copyNested : ScopeId → TableM InstantiationFault ScopeId) (source target : ScopeId)
    (σ : Substitution) : List DeclId → Copies → TableM InstantiationFault Copies
  | [], copies => return copies
  | d :: ds, copies => do
    let some decl := (← get).decl? d | throw (.unknownScope source)
    let (type, copies) ← copyType copyNested source target σ decl.kind copies decl.type
    modify fun t => (t.declare { decl with owner := .scope target, type }).2
    copyDecls copyNested source target σ ds copies

/-- What a copy of `src` starts as. Only a copy that is no instance itself keeps the template
parameters: a member template stays one. -/
def blankCopy (src : Scope) (parent : Option ScopeId) (instanceOf : Option InstanceKey) : Scope :=
  ⟨src.name, src.kind, parent, .empty, if instanceOf.isNone then src.templateParams else none,
    instanceOf, []⟩

/-- Copies a scope into a new one inside `parent`, with room for so many levels of nesting. -/
def copyScope (σ : Substitution) : Nat → ScopeId → Option ScopeId → Option InstanceKey →
    TableM InstantiationFault ScopeId
  | 0, _, _, _ => do throw (.depthExceeded (← get).instantiationLimit)
  | room + 1, source, parent, instanceOf => do
    let some src := (← get).scope? source | throw (.unknownScope source)
    let target ← modifyGet (·.allocScope (blankCopy src parent instanceOf))
    let copies ← copyDecls (fun s => copyScope σ room s (some target) none) source target σ
      src.members.decls []
    modify (·.setReexports target (src.reexports.map fun r => (copies.lookup r).getD r))
    return target

/-- Builds the instance of a key that has none yet. -/
def buildInstance (key : InstanceKey) : TableM InstantiationFault ScopeId := do
  let t ← get
  let some entity := t.scope? key.template | throw (.unknownScope key.template)
  let some params := entity.templateParams | throw (.notATemplate key.template)
  if params.length ≠ key.args.length then
    throw (.arityMismatch key.template params.length key.args.length)
  let σ := Substitution.ofParams params key.args
  let instance_ ← tryCatch (copyScope σ t.instantiationLimit key.template entity.parent (some key))
    fun fault => do
      modify (·.truncate t.scopes.size t.decls.size)
      throw fault
  modify fun t => { t with instances := (key, instance_) :: t.instances }
  return instance_

/-- The instance of a key, built if it is missing. -/
def instantiate (key : InstanceKey) : TableM InstantiationFault ScopeId := do
  match (← get).instance? key with
  | some s => return s
  | none => buildInstance key

/-! ## Running on a table -/

open Attempt

section
variable (copyNested : ScopeId → TableM InstantiationFault ScopeId) (source target : ScopeId)
  (σ : Substitution) (copies : Copies) (t : SymbolTable)

theorem copyType_scope (kind : DeclKind) (s : ScopeId) :
    copyType copyNested source target σ kind copies (some (.scope s)) t =
      if s = source then (.ok (some (.scope target), copies), t)
      else if kind = .nestedType ∧ t.isNestedIn source s then
        match copyNested s t with
        | (.error fault, t) => (.error fault, t)
        | (.ok copy, t) => (.ok (some (.scope copy), (s, copy) :: copies), t)
      else (.ok (some (.scope s), copies), t) := by
  simp only [copyType]
  split
  · rfl
  · rw [run_bind, run_get]
    simp only
    split
    · rw [run_bind]
      rcases copyNested s t with ⟨_ | _, _⟩ <;> rfl
    · rfl

theorem copyType_of_not_scope (kind : DeclKind) {type : Option TypeExpr}
    (h : ∀ s, type ≠ some (.scope s)) :
    copyType copyNested source target σ kind copies type t =
      (.ok (type.map (·.substitute σ), copies), t) := by
  cases type with
  | none => rfl
  | some ty =>
    cases ty with
    | scope s => exact absurd rfl (h s)
    | _ => rfl

theorem copyDecls_nil : copyDecls copyNested source target σ [] copies t = (.ok copies, t) := rfl

theorem copyDecls_cons (d : DeclId) (ds : List DeclId) :
    copyDecls copyNested source target σ (d :: ds) copies t =
      match t.decl? d with
      | none => (.error (.unknownScope source), t)
      | some decl =>
        match copyType copyNested source target σ decl.kind copies decl.type t with
        | (.error fault, t) => (.error fault, t)
        | (.ok (type, copies), t) =>
          copyDecls copyNested source target σ ds copies
            (t.declare { decl with owner := .scope target, type }).2 := by
  simp only [copyDecls, run_bind, run_get]
  cases t.decl? d with
  | none => simp
  | some decl =>
    simp only [run_bind]
    rcases copyType copyNested source target σ decl.kind copies decl.type t with ⟨_ | _, _⟩ <;> simp

end

theorem copyScope_zero (σ : Substitution) (source : ScopeId) (parent : Option ScopeId)
    (instanceOf : Option InstanceKey) (t : SymbolTable) :
    copyScope σ 0 source parent instanceOf t =
      (.error (.depthExceeded t.instantiationLimit), t) := by
  simp [copyScope, run_bind]

theorem copyScope_succ (σ : Substitution) (room : Nat) (source : ScopeId)
    (parent : Option ScopeId) (instanceOf : Option InstanceKey) (t : SymbolTable) :
    copyScope σ (room + 1) source parent instanceOf t =
      match t.scope? source with
      | none => (.error (.unknownScope source), t)
      | some src =>
        match copyDecls (fun s => copyScope σ room s (some ⟨t.scopes.size⟩) none) source
            ⟨t.scopes.size⟩ σ src.members.decls []
            (t.allocScope (blankCopy src parent instanceOf)).2 with
        | (.error fault, t') => (.error fault, t')
        | (.ok copies, t') => (.ok ⟨t.scopes.size⟩, t'.setReexports ⟨t.scopes.size⟩
            (src.reexports.map fun r => (copies.lookup r).getD r)) := by
  simp only [copyScope, run_bind, run_get]
  cases t.scope? source with
  | none => simp
  | some src =>
    simp only [run_bind, run_modifyGet, allocScope_fst]
    rcases copyDecls (fun s => copyScope σ room s (some ⟨t.scopes.size⟩) none) source
      ⟨t.scopes.size⟩ σ src.members.decls [] (t.allocScope (blankCopy src parent instanceOf)).2
      with ⟨_ | _, _⟩ <;> simp

/-- An instance that cannot be completed leaves the table cut back to its former length. -/
theorem buildInstance_run (key : InstanceKey) (t : SymbolTable) :
    buildInstance key t =
      match t.scope? key.template with
      | none => (.error (.unknownScope key.template), t)
      | some e =>
        match e.templateParams with
        | none => (.error (.notATemplate key.template), t)
        | some params =>
          if params.length ≠ key.args.length then
            (.error (.arityMismatch key.template params.length key.args.length), t)
          else
            match copyScope (.ofParams params key.args) t.instantiationLimit key.template e.parent
                (some key) t with
            | (.ok s, t') => (.ok s, { t' with instances := (key, s) :: t'.instances })
            | (.error fault, t') => (.error fault, t'.truncate t.scopes.size t.decls.size) := by
  simp only [buildInstance, run_bind, run_get]
  cases t.scope? key.template with
  | none => simp
  | some e =>
    cases he : e.templateParams with
    | none => simp [he]
    | some params =>
      simp only [he]
      split
      · simp [run_bind]
      · simp only [run_bind, run_pure, run_tryCatch]
        rcases copyScope (.ofParams params key.args) t.instantiationLimit key.template e.parent
          (some key) t with ⟨_ | _, _⟩ <;> simp

theorem instantiate_run (key : InstanceKey) (t : SymbolTable) :
    instantiate key t =
      match t.instance? key with
      | some s => (.ok s, t)
      | none => buildInstance key t := by
  simp only [instantiate, run_bind, run_get]
  cases t.instance? key <;> rfl

end SymbolTable

end NameLookup
