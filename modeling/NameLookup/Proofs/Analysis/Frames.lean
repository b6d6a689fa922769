import NameLookup.Proofs.Analysis.Detour
import NameLookup.Proofs.TypeExpr.Layers

/-!
# Frames

Inside of nested frames a parameter is bound to what the innermost frame binds it to that binds it at
all (`get?_bindingsOf`). How the bindings are spread over frames makes no difference
(`SameBindings.bindings?`): what a waiting import came to inside of some frames is found again inside
of others that bind the same (`contribution_found_again`). `substitution_canonical` puts this together
with the laws of substitutions.
-/

set_option autoImplicit false

namespace NameLookup.Analysis

open Substitution

/-- What the innermost frame that binds a parameter binds it to. -/
def innermost? (frames : List Substitution) (p : Name) : Option TypeExpr :=
  frames.findSome? (·.get? p)

/-- Both are outside of any instantiation, or inside of some with the same bindings in force. -/
structure SameBindings (frames frames' : List Substitution) : Prop where
  outside : frames = [] ↔ frames' = []
  innermost? : ∀ p, innermost? frames p = innermost? frames' p

variable {a : Analysis} {frames frames' : List Substitution}

theorem get?_bindingsOf (frames : List Substitution) (p : Name) :
    (bindingsOf frames).get? p = innermost? frames p := by
  induction frames with
  | nil => rfl
  | cons σ frames ih =>
    change ((bindingsOf frames).layered σ).get? p = _
    rw [get?_layered, ih, Analysis.innermost?, Analysis.innermost?, List.findSome?_cons]
    cases σ.get? p <;> rfl

theorem bindings?_eq_none_iff : a.bindings? = none ↔ a.frames = [] := by
  unfold bindings?
  cases a.frames <;> simp

theorem bind_get?_bindings? (a : Analysis) (p : Name) :
    a.bindings?.bind (·.get? p) = innermost? a.frames p := by
  unfold bindings?
  cases hframes : a.frames with
  | nil => rfl
  | cons σ frames => exact get?_bindingsOf (σ :: frames) p

/-- Frames that bind the same put the same substitution in force. -/
theorem SameBindings.bindings? (h : SameBindings a.frames frames) :
    { a with frames := frames }.bindings? = a.bindings? := by
  have hall : bindingsOf frames = bindingsOf a.frames := by
    refine ext_get? fun p => ?_
    rw [get?_bindingsOf, get?_bindingsOf, h.innermost?]
  have hempty : frames.isEmpty = a.frames.isEmpty := by
    rw [Bool.eq_iff_iff, List.isEmpty_iff, List.isEmpty_iff, h.outside]
  unfold Analysis.bindings?
  rw [hempty, hall]

/-- What a waiting import came to is found, and not worked out anew, inside of frames that bind the
same. -/
theorem contribution_found_again (h : SameBindings a.frames frames) (id : ImportId)
    (token : Deferral) :
    contribution id token { (contribution id token a).2 with frames := frames } =
      ((contribution id token a).1, { (contribution id token a).2 with frames := frames }) := by
  cases hσ : a.bindings? with
  | none =>
    have hnone : contribution id token a = (.pending, a) := by rw [contribution_run, hσ]
    rw [hnone, contribution_run, h.bindings?, hσ]
  | some σ =>
    have hin : { (contribution id token a).2 with frames := frames }.bindings? = some σ :=
      h.bindings?.trans hσ
    have hsettled : (contribution id token a).2.settled.lookup (id, σ) =
        some (contribution id token a).1 := (contribution_settled hσ).2
    rw [contribution_run, hin]
    simp only [hsettled]

/-- However substitutions are put together, each is a list of bindings in strict order of names, in
which a parameter has the type that it was bound to last; two are equal if they bind the same
parameters to the same types, and only then. Layers can be grouped at will, the empty one makes no
difference, and of two the inner one counts where it binds. So inside of frames the innermost binding
of a parameter is in force, and what a waiting import came to is found again inside of any frames that
bind the same. -/
theorem substitution_canonical (x y z : Assembly) (a : Analysis) (id : ImportId)
    (token : Deferral) :
    x.result.bindings.Pairwise (·.1 < ·.1) ∧
    (∀ p ty, (p, ty) ∈ x.result.bindings ↔ x.latest? p = some ty) ∧
    (∀ p, x.result.get? p = x.latest? p) ∧
    (x.result = y.result ↔ ∀ p, x.result.get? p = y.result.get? p) ∧
    (x.result.layered y.result).layered z.result = x.result.layered (y.result.layered z.result) ∧
    (Substitution.empty.layered x.result = x.result ∧ x.result.layered .empty = x.result) ∧
    (∀ p, (x.result.layered y.result).get? p = (y.result.get? p).or (x.result.get? p)) ∧
    (a.bindings? = none ↔ a.frames = []) ∧
    (∀ p, a.bindings?.bind (·.get? p) = innermost? a.frames p) ∧
    ∀ frames, SameBindings a.frames frames →
      { a with frames := frames }.bindings? = a.bindings? ∧
      contribution id token { (contribution id token a).2 with frames := frames } =
        ((contribution id token a).1, { (contribution id token a).2 with frames := frames }) := by
  refine ⟨x.result.sorted, fun p ty => ?_, x.get?_result, ⟨fun h p => h ▸ rfl, ext_get?⟩,
    layered_assoc _ _ _, ⟨empty_layered _, layered_empty _⟩, get?_layered _ _,
    bindings?_eq_none_iff, bind_get?_bindings? a, fun frames h => ?_⟩
  · rw [mem_bindings_iff, x.get?_result]
  · exact ⟨h.bindings?, contribution_found_again h id token⟩

/-- An instantiation with `P` and `Q` bound, and inside of it another one that binds `P` again. -/
def nestedFrames : List Substitution :=
  [.ofList [("P", .scalar "bool")], .ofList [("P", .scalar "int"), ("Q", .scalar "char")]]

/-- Both parameters bound at once. -/
def joinedFrames : List Substitution :=
  [.ofList [("Q", .scalar "char"), ("P", .scalar "bool")]]

theorem nestedFrames_joined : SameBindings nestedFrames joinedFrames := by
  have hjoined : bindingsOf nestedFrames = bindingsOf joinedFrames := by decide
  refine ⟨by decide, fun p => ?_⟩
  rw [← get?_bindingsOf, hjoined, get?_bindingsOf]

/-- An empty program, inside of the nested instantiations. -/
def insideOfTwo : Analysis :=
  { new (.new SymbolTable.defaultInstantiationLimit) .default fun _ _ => [] with frames := nestedFrames }

/-- An import of `P` fails inside of the two frames, where `P` is no scope; inside of the one frame it
is known to. -/
theorem substitution_canonical_of_nested :
    let a := (contribution ⟨0⟩ ⟨.param "P", [.scope SymbolTable.global]⟩ insideOfTwo).2
    SameBindings insideOfTwo.frames joinedFrames ∧
      contribution ⟨0⟩ ⟨.param "P", [.scope SymbolTable.global]⟩ { a with frames := joinedFrames } =
        (.failed (.unresolved "P" .notAScope), { a with frames := joinedFrames }) := by
  intro a
  have hfailed : (contribution ⟨0⟩ ⟨.param "P", [.scope SymbolTable.global]⟩ insideOfTwo).1 =
      .failed (.unresolved "P" .notAScope) := by decide
  obtain ⟨-, -, -, -, -, -, -, -, -, hframes⟩ :=
    substitution_canonical .empty .empty .empty insideOfTwo ⟨0⟩ ⟨.param "P", [.scope SymbolTable.global]⟩
  obtain ⟨-, hfound⟩ := hframes joinedFrames nestedFrames_joined
  rw [hfailed] at hfound
  exact ⟨nestedFrames_joined, hfound⟩

end NameLookup.Analysis
