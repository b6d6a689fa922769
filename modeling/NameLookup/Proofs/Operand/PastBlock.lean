import NameLookup.Analysis.Runs
import NameLookup.Proofs.SymbolTable.SameOutside

/-!
# Resolving past a block

What resolution looks at along a chain without a block is the same in tables that are the same
outside of it, and so are the instances that it builds on the way. Two runs therefore keep in step
(`RunsAlike`), from one copied declaration up to the resolution of an operand: they come to the same
result and leave the tables the same outside of the block. There is one place where resolution makes
up a chain of its own, which is where it follows a member; that chain is of scopes alone
(`block_not_mem_chainOfScope`).
-/

set_option autoImplicit false

namespace NameLookup.SymbolTable

open Attempt

/-- Two runs with one result, which leave tables that are the same outside of the block. -/
structure RunsAlike (b : BlockId) (n k : Nat) {ε α : Type} (r r' : Except ε α × SymbolTable) :
    Prop where
  result : r'.1 = r.1
  table : SameOutside b n k r.2 r'.2

/-- In the chain of a scope there are scopes only. -/
theorem block_not_mem_chainOfScope (t : SymbolTable) (b : BlockId) (s : ScopeId) :
    .block b ∉ t.chainOfScope s := by
  have hlinks (m : Nat) : ∀ s, .block b ∉ t.scopeLinks m s := by
    induction m with
    | zero => exact fun s => List.not_mem_nil
    | succ m ih =>
      intro s
      rw [scopeLinks, List.mem_cons, not_or]
      refine ⟨by simp, ?_⟩
      cases (t.scope? s).bind (·.parent) with
      | none => exact List.not_mem_nil
      | some p => exact ih p
  exact hlinks _ s

variable {b : BlockId} {n k : Nat} {t u : SymbolTable} {ε ε' α β : Type}

theorem block_not_mem_of_followMember {target : Target} {name : Name} {next : TypeExpr}
    {inside : ScopeChain} (hm : followMember target name t = (.ok (next, inside), u))
    (b : BlockId) : .block b ∉ inside := by
  rw [followMember_run] at hm
  rcases hs : concreteScope target t with ⟨fault | s, t'⟩ <;> rw [hs] at hm
  · cases hm
  · simp only at hm
    cases htype : t'.memberType? s name with
    | none =>
      rw [htype] at hm
      cases hm
    | some ty =>
      rw [htype] at hm
      cases hm
      exact block_not_mem_chainOfScope _ b s

namespace RunsAlike

theorem exists_run {r r' : Except ε α × SymbolTable} (h : RunsAlike b n k r r') :
    ∃ x t' u', SameOutside b n k t' u' ∧ r = (x, t') ∧ r' = (x, u') :=
  ⟨r.1, r.2, r'.2, h.table, rfl, Prod.ext h.result rfl⟩

theorem bind {x : TableM ε α} {f : α → TableM ε β} (hx : RunsAlike b n k (x t) (x u))
    (hf : ∀ {a t' u'}, x t = (.ok a, t') → SameOutside b n k t' u' →
      RunsAlike b n k (f a t') (f a u')) : RunsAlike b n k ((x >>= f) t) ((x >>= f) u) := by
  obtain ⟨fault | a, t', u', h, ht, hu⟩ := hx.exists_run <;> rw [run_bind, run_bind, ht, hu]
  · exact ⟨rfl, h⟩
  · exact hf ht h

theorem adapt {x : TableM ε α} (hx : RunsAlike b n k (x t) (x u)) (f : ε → ε') :
    RunsAlike b n k (ExceptT.adapt f x t) (ExceptT.adapt f x u) := by
  rw [run_adapt, run_adapt]
  exact ⟨congrArg (Except.mapError f) hx.result, hx.table⟩

end RunsAlike

namespace SameOutside

variable (h : SameOutside b n k t u)
include h

/-! ## Copies and instances -/

section
variable {copyNested : ScopeId → TableM InstantiationFault ScopeId}
  (hnested : ∀ (s : ScopeId) {t u}, SameOutside b n k t u →
    RunsAlike b n k (copyNested s t) (copyNested s u)) (source target : ScopeId) (σ : Substitution)
include hnested

theorem copyType (kind : DeclKind) (copies : Copies) (type : Option TypeExpr) :
    RunsAlike b n k (copyType copyNested source target σ kind copies type t)
      (SymbolTable.copyType copyNested source target σ kind copies type u) := by
  by_cases hs : ∃ s, type = some (.scope s)
  · obtain ⟨s, rfl⟩ := hs
    rw [copyType_scope, copyType_scope, h.isNestedIn]
    split
    · exact ⟨rfl, h⟩
    split
    · obtain ⟨fault | copy, t', u', h', ht, hu⟩ := (hnested s h).exists_run <;> rw [ht, hu] <;>
        exact ⟨rfl, h'⟩
    · exact ⟨rfl, h⟩
  · have hne : ∀ s, type ≠ some (.scope s) := fun s he => hs ⟨s, he⟩
    rw [copyType_of_not_scope _ _ _ _ _ _ _ hne, copyType_of_not_scope _ _ _ _ _ _ _ hne]
    exact ⟨rfl, h⟩

theorem copyDecls (ds : List DeclId) (copies : Copies) :
    RunsAlike b n k (copyDecls copyNested source target σ ds copies t)
      (SymbolTable.copyDecls copyNested source target σ (ds.map (.shift n k)) copies u) := by
  induction ds generalizing copies t u with
  | nil => exact ⟨rfl, h⟩
  | cons d ds ih =>
    rw [List.map_cons, copyDecls_cons, copyDecls_cons, h.decl]
    cases t.decl? d with
    | none => exact ⟨rfl, h⟩
    | some decl =>
      have htype := h.copyType hnested source target σ decl.kind copies decl.type
      obtain ⟨fault | ⟨type, copies'⟩, t', u', h', ht, hu⟩ := htype.exists_run <;>
        simp only [ht, hu]
      · exact ⟨rfl, h'⟩
      · exact ih (h'.declare rfl) copies'

end

theorem copyScope (σ : Substitution) (room : Nat) (source : ScopeId) (parent : Option ScopeId)
    (instanceOf : Option InstanceKey) :
    RunsAlike b n k (copyScope σ room source parent instanceOf t)
      (SymbolTable.copyScope σ room source parent instanceOf u) := by
  induction room generalizing source parent instanceOf t u with
  | zero =>
    rw [copyScope_zero, copyScope_zero, h.limit]
    exact ⟨rfl, h⟩
  | succ room ih =>
    rw [copyScope_succ, copyScope_succ]
    cases hs : t.scope? source with
    | none =>
      rw [h.scope_none hs]
      exact ⟨rfl, h⟩
    | some src =>
      obtain ⟨members, hm, hu⟩ := h.scope_some hs
      have hblank : blankCopy { src with members } parent instanceOf =
          blankCopy src parent instanceOf := rfl
      rw [hu]
      simp only [hm.decls, h.scopes_size, hblank]
      have hcopy := (h.allocScope (blankCopy src parent instanceOf) rfl).copyDecls
        (fun s {_ _} h => ih h s (some ⟨t.scopes.size⟩) none) source ⟨t.scopes.size⟩ σ src.members.decls []
      obtain ⟨fault | copies, t', u', h', ht, hu⟩ := hcopy.exists_run <;> simp only [ht, hu]
      · exact ⟨rfl, h'⟩
      · exact ⟨rfl, h'.setReexports _ _⟩

theorem buildInstance (key : InstanceKey) :
    RunsAlike b n k (buildInstance key t) (SymbolTable.buildInstance key u) := by
  rw [buildInstance_run, buildInstance_run]
  cases hs : t.scope? key.template with
  | none =>
    rw [h.scope_none hs]
    exact ⟨rfl, h⟩
  | some e =>
    obtain ⟨members, -, hu⟩ := h.scope_some hs
    rw [hu]
    cases hparams : e.templateParams with
    | none =>
      simp only [hparams]
      exact ⟨rfl, h⟩
    | some params =>
      simp only [hparams]
      split
      · exact ⟨rfl, h⟩
      · have hcopy := h.copyScope (.ofParams params key.args) t.instantiationLimit key.template
          e.parent (some key)
        obtain ⟨fault | s, t', u', h', ht, hu⟩ := hcopy.exists_run <;>
          simp only [ht, h.limit, hu]
        · exact ⟨rfl, by rw [h.scopes_size, h.decls_size]; exact h'.truncate h.le_size⟩
        · exact ⟨rfl, h'.register key s⟩

theorem instantiate (key : InstanceKey) :
    RunsAlike b n k (instantiate key t) (SymbolTable.instantiate key u) := by
  rw [instantiate_run, instantiate_run, instance?, instance?, h.instances]
  cases t.instances.lookup key with
  | some s => exact ⟨rfl, h⟩
  | none => exact h.buildInstance key

theorem concreteScope (target : Target) :
    RunsAlike b n k (concreteScope target t) (SymbolTable.concreteScope target u) := by
  unfold SymbolTable.concreteScope
  split
  · exact ⟨rfl, h⟩
  · exact h.instantiate _

/-! ## One hop -/

theorem followName {chain : ScopeChain} (hc : .block b ∉ chain) (name : Name) :
    RunsAlike b n k (followName name chain t) (SymbolTable.followName name chain u) := by
  rw [followName_run, followName_run, h.typeNamed? hc]
  cases t.typeNamed? name chain <;> exact ⟨rfl, h⟩

theorem plainScope (s : ScopeId) :
    RunsAlike b n k (plainScope s t) (SymbolTable.plainScope s u) := by
  rw [plainScope_run, plainScope_run]
  cases hs : t.scope? s with
  | none =>
    rw [h.scope_none hs]
    exact ⟨rfl, h⟩
  | some e =>
    obtain ⟨members, -, hu⟩ := h.scope_some hs
    rw [hu]
    show RunsAlike b n k (if e.isTemplate then _ else _) (if e.isTemplate then _ else _)
    split <;> exact ⟨rfl, h⟩

theorem followMember (target : Target) (name : Name) :
    RunsAlike b n k (followMember target name t) (SymbolTable.followMember target name u) := by
  rw [followMember_run, followMember_run]
  obtain ⟨fault | s, t', u', h', ht, hu⟩ := (h.concreteScope target).exists_run <;> rw [ht, hu]
  · exact ⟨rfl, h'⟩
  · simp only [h'.memberType?, h'.chainOfScope]
    cases t'.memberType? s name <;> exact ⟨rfl, h'⟩

/-! ## Types and operands -/

theorem spellOperand (operand : Operand) : u.spellOperand operand = t.spellOperand operand := by
  cases operand with
  | type ty => exact h.spellType ty
  | value name => rfl

theorem operandType? {chain : ScopeChain} (hc : .block b ∉ chain) (operand : Operand) :
    u.operandType? chain operand = t.operandType? chain operand := by
  cases operand with
  | value name => exact h.typeOfValue? hc name
  | type ty =>
    cases ty with
    | named name => exact h.typeNamed? hc name
    | _ => rfl

theorem canonicalArgs {f : TypeExpr → TableM ResolutionFault (Option TypeExpr)}
    (hf : ∀ {a t u}, SameOutside b n k t u → RunsAlike b n k (f a t) (f a u))
    (args : List TypeExpr) :
    RunsAlike b n k (canonicalArgs f args t) (SymbolTable.canonicalArgs f args u) := by
  induction args generalizing t u with
  | nil => exact ⟨rfl, h⟩
  | cons a args ih =>
    refine (hf h).bind fun {o t' u'} _ h' => ?_
    cases o with
    | none => exact ⟨rfl, h'⟩
    | some a' =>
      refine (ih h').bind fun {o t' u'} _ h' => ?_
      cases o <;> exact ⟨rfl, h'⟩

end SameOutside

theorem RunsAlike.throughMember {base : TableM ResolutionFault Resolution}
    (hbase : RunsAlike b n k (base t) (base u)) (name : Name) (waiting : α)
    {f : TypeExpr → ScopeChain → TableM ResolutionFault α}
    (hf : ∀ {ty chain t u}, .block b ∉ chain → SameOutside b n k t u →
      RunsAlike b n k (f ty chain t) (f ty chain u)) :
    RunsAlike b n k (throughMember base name waiting f t)
      (SymbolTable.throughMember base name waiting f u) := by
  refine hbase.bind fun {r t' u'} _ h' => ?_
  cases r with
  | deferred token => exact ⟨rfl, h'⟩
  | resolved target =>
    exact (h'.followMember target name).bind fun hnext h'' =>
      hf (block_not_mem_of_followMember hnext b) h''

/-- With so many steps left, the resolution of types along such chains goes on alike. -/
theorem resolution_alike (σ : Substitution) (steps : Nat) :
    (∀ ty {chain t u}, .block b ∉ chain → SameOutside b n k t u →
      RunsAlike b n k (resolveType σ steps ty chain t) (resolveType σ steps ty chain u)) ∧
    ∀ ty {chain t u}, .block b ∉ chain → SameOutside b n k t u →
      RunsAlike b n k (canonicalArg σ steps ty chain t) (canonicalArg σ steps ty chain u) := by
  induction steps with
  | zero =>
    constructor
    · intro ty chain t u _ h
      rw [resolveType_zero, resolveType_zero]
      exact ⟨rfl, h⟩
    · intro ty chain t u _ h
      cases ty <;> exact ⟨rfl, h⟩
  | succ steps ih =>
    obtain ⟨ihr, iha⟩ := ih
    constructor
    · intro ty chain t u hc h
      cases ty with
      | scalar name => exact ⟨rfl, h⟩
      | named name => exact (h.followName hc name).bind fun _ h' => ihr _ hc h'
      | scope s => exact h.plainScope s
      | param p =>
        rw [resolveType_param, resolveType_param]
        cases σ.get? p with
        | none => exact ⟨rfl, h⟩
        | some bound => exact ihr bound hc h
      | apply s args =>
        refine (h.canonicalArgs (fun a {_ _} h => iha a hc h) _).bind fun {o t' u'} _ h' => ?_
        cases o <;> exact ⟨rfl, h'⟩
      | member base name => exact (ihr base hc h).throughMember name _ (ihr _)
    · intro ty chain t u hc h
      cases ty with
      | scalar | scope => exact ⟨rfl, h⟩
      | named name => exact (h.followName hc name).bind fun _ h' => iha _ hc h'
      | param p =>
        rw [canonicalArg_param, canonicalArg_param]
        cases σ.get? p with
        | none => exact ⟨rfl, h⟩
        | some bound => exact iha bound hc h
      | apply s args =>
        exact (h.canonicalArgs (fun a {_ _} h => iha a hc h) args).bind fun _ h' => ⟨rfl, h'⟩
      | member base name => exact (ihr base hc h).throughMember name _ (iha _)

theorem SameOutside.resolveOperand (h : SameOutside b n k t u) {chain : ScopeChain}
    (hc : .block b ∉ chain) (σ : Substitution) (steps : Nat)
    (operand : Operand) :
    RunsAlike b n k (resolveOperand σ steps operand chain t)
      (SymbolTable.resolveOperand σ steps operand chain u) := by
  rw [resolveOperand_run, resolveOperand_run, h.operandType? hc, h.spellOperand]
  cases t.operandType? chain operand with
  | none => exact ⟨rfl, h⟩
  | some ty =>
    have htype := (resolution_alike σ steps).1 ty hc h
    exact ⟨congrArg (Except.mapError _) htype.result, htype.table⟩

end NameLookup.SymbolTable
