import NameLookup.Operand.Basic
import NameLookup.Proofs.SymbolTable.Instances
import NameLookup.Proofs.SymbolTable.Ownership

/-!
# At which level a template parameter is found

A link of a chain introduces a name if it declares the name, or else if it is a class template that
has a parameter of that name. By this reading the innermost link that introduces a name decides what
it stands for (`introduced?`). The table looks for declarations first, along the whole chain, and
for parameters only where there are none. The two agree but for one case: a parameter is passed over
if a link farther out declares its name (`named_by_levels`, `parameter_passed_over`).
-/

set_option autoImplicit false

namespace NameLookup.SymbolTable

/-- What the link declares under the name is types, which are recorded. -/
def DeclaresTypes (t : SymbolTable) (name : Name) (o : Owner) : Prop :=
  ∀ d ∈ t.declaredIn o name,
    ∃ e ty, t.decl? d = some e ∧ e.kind.namesType = true ∧ e.type = some ty

/-- What the name stands for at one link: the type that it declares, or else its parameter. -/
def introducedBy? (t : SymbolTable) (name : Name) (o : Owner) : Option TypeExpr :=
  (t.firstType? (·.kind.namesType) (t.declaredIn o name)).or
    (if t.isParamIn [o] name then some (.param name) else none)

/-- What the name stands for at the innermost link that introduces it. -/
def introduced? (t : SymbolTable) (name : Name) (chain : ScopeChain) : Option TypeExpr :=
  chain.findSome? (t.introducedBy? name)

variable {t : SymbolTable} {name : Name} {chain inner outer : ScopeChain} {o : Owner}

theorem isParamIn_cons (o : Owner) (chain : ScopeChain) :
    t.isParamIn (o :: chain) name = (t.isParamIn [o] name || t.isParamIn chain name) := by
  simp only [isParamIn, List.any_cons, List.any_nil, Bool.or_false]

theorem introducedBy?_undeclared (h : t.declaredIn o name = []) :
    t.introducedBy? name o = if t.isParamIn [o] name then some (.param name) else none := by
  rw [introducedBy?, h]
  rfl

/-- A link that declares the name introduces it by that. -/
theorem introducedBy?_declared (h : t.DeclaresTypes name o) (hne : t.declaredIn o name ≠ []) :
    ∃ ty, t.firstType? (·.kind.namesType) (t.declaredIn o name) = some ty ∧
      t.introducedBy? name o = some ty := by
  rcases hds : t.declaredIn o name with _ | ⟨d, ds⟩
  · exact absurd hds hne
  · obtain ⟨e, ty, he, hkind, hty⟩ := h d (hds ▸ List.mem_cons_self)
    have hfirst : t.firstType? (·.kind.namesType) (t.declaredIn o name) = some ty := by
      rw [hds, firstType?_cons he, if_pos hkind, hty]
    exact ⟨ty, hds ▸ hfirst, by rw [introducedBy?, hfirst, Option.some_or]⟩

/-- Links that do not declare the name introduce it as a parameter or not at all. -/
theorem introduced?_undeclared (h : ∀ o ∈ chain, t.declaredIn o name = []) :
    t.introduced? name chain = if t.isParamIn chain name then some (.param name) else none := by
  induction chain with
  | nil => rfl
  | cons o chain ih =>
    obtain ⟨ho, hrest⟩ := List.forall_mem_cons.1 h
    rw [introduced?, List.findSome?_cons, introducedBy?_undeclared ho, isParamIn_cons o chain]
    cases t.isParamIn [o] name with
    | true => rfl
    | false => exact ih hrest

theorem introduced?_append (h : ∀ i ∈ inner, t.declaredIn i name = []) {ty : TypeExpr}
    (ho : t.introducedBy? name o = some ty) :
    t.introduced? name (inner ++ o :: outer) =
      if t.isParamIn inner name then some (.param name) else some ty := by
  have hinner := introduced?_undeclared h
  rw [introduced?] at hinner
  rw [introduced?, List.findSome?_append, hinner, List.findSome?_cons, ho]
  cases t.isParamIn inner name <;> rfl

/-- On a chain that declares the name as a type, if at all, the name stands for what the innermost
link that introduces it says, unless some link declares it and a template farther in has it as a
parameter: then it still stands for what is declared. -/
theorem named_by_levels (ht : t.Reachable) (htypes : ∀ o ∈ chain, t.DeclaresTypes name o) :
    ((∀ o ∈ chain, t.declaredIn o name = []) ∧
        t.operandType? chain (.type (.named name)) = t.introduced? name chain ∧
        t.introduced? name chain = if t.isParamIn chain name then some (.param name) else none) ∨
      ∃ inner o outer ty, chain = inner ++ o :: outer ∧ (∀ i ∈ inner, t.declaredIn i name = []) ∧
        t.declaredIn o name ≠ [] ∧ t.introducedBy? name o = some ty ∧
        t.operandType? chain (.type (.named name)) = some ty ∧
        t.introduced? name chain =
          if t.isParamIn inner name then some (.param name) else some ty := by
  rcases ht.registered.ordinaryLookup_cases name chain with
    ⟨hnone, hall⟩ | ⟨inner, o, outer, rfl, hinner, hne, hfound⟩
  · have hintroduced := introduced?_undeclared hall
    refine .inl ⟨hall, ?_, hintroduced⟩
    rw [operandType?, typeNamed?, hnone, hintroduced]
    rfl
  · have ho : o ∈ inner ++ o :: outer := List.mem_append_right _ List.mem_cons_self
    obtain ⟨ty, hfirst, hby⟩ := introducedBy?_declared (htypes o ho) hne
    refine .inr ⟨inner, o, outer, ty, rfl, hinner, hne, hby, ?_, introduced?_append hinner hby⟩
    rw [operandType?, typeNamed?, hfound, hfirst, Option.some_or]

/-- A class `P`, and a class template `T` with a parameter `P`. -/
def classAndParameter : SymbolTable :=
  (new defaultInstantiationLimit)
    |>.withScope global "P" .classType none
    |>.withScope global "T" .classType (some ["P"])

theorem classAndParameter_reachable : classAndParameter.Reachable :=
  ((Reachable.new _).withScope _ _ _ _).withScope _ _ _ _

theorem classAndParameter_types :
    ∀ o ∈ classAndParameter.chainOfScope ⟨2⟩, classAndParameter.DeclaresTypes "P" o := by
  have hchain : classAndParameter.chainOfScope ⟨2⟩ = [.scope ⟨2⟩, .scope global] := rfl
  rw [hchain]
  intro o ho d hd
  rcases List.mem_pair.1 ho with rfl | rfl
  · exact absurd hd List.not_mem_nil
  · obtain rfl : d = ⟨0⟩ := List.mem_singleton.1 hd
    exact ⟨_, _, rfl, rfl, rfl⟩

/-- In the body of `T` the name `P` stands for the class. -/
theorem named_by_levels_in_T :
    ∃ inner o outer, classAndParameter.chainOfScope ⟨2⟩ = inner ++ o :: outer ∧
      classAndParameter.declaredIn o "P" ≠ [] ∧
      classAndParameter.introducedBy? "P" o = some (.scope ⟨1⟩) ∧
      classAndParameter.operandType? (classAndParameter.chainOfScope ⟨2⟩) (.type (.named "P")) =
        some (.scope ⟨1⟩) := by
  have hclass : classAndParameter.operandType? (classAndParameter.chainOfScope ⟨2⟩)
      (.type (.named "P")) = some (.scope ⟨1⟩) := rfl
  rcases named_by_levels classAndParameter_reachable classAndParameter_types with
    ⟨hnone, -, -⟩ | ⟨inner, o, outer, ty, hchain, -, hne, hby, htype, -⟩
  · exact absurd (hnone (.scope global) (by decide)) (by decide)
  · cases hclass.symm.trans htype
    exact ⟨inner, o, outer, hchain, hne, hby, hclass⟩

/-- The innermost link that introduces `P` is `T`, which has it as a parameter, but the class is
found. -/
theorem parameter_passed_over :
    ¬ ∀ (t : SymbolTable) (name : Name) (chain : ScopeChain), t.Reachable →
      (∀ o ∈ chain, t.DeclaresTypes name o) →
      t.operandType? chain (.type (.named name)) = t.introduced? name chain := by
  intro h
  have hsame := h _ _ _ classAndParameter_reachable classAndParameter_types
  have hclass : classAndParameter.operandType? (classAndParameter.chainOfScope ⟨2⟩)
      (.type (.named "P")) = some (.scope ⟨1⟩) := rfl
  have hparam : classAndParameter.introduced? "P" (classAndParameter.chainOfScope ⟨2⟩) =
      some (.param "P") := rfl
  rw [hclass, hparam] at hsame
  cases hsame

end NameLookup.SymbolTable
