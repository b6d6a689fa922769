import NameLookup.Proofs.Analysis.ArgumentSpellings
import NameLookup.Proofs.Operand.Answers
import NameLookup.Proofs.SymbolTable.Ownership
import NameLookup.Proofs.SymbolTable.Rendering

/-!
# Qualified and unqualified names

A member type is found in the list of its scope, a name in the index along a chain. Both say what
the declarations say (`Registered`), so inside of a scope `m` and from anywhere `s::m` is followed to
the same type on the same chain, and the two come to the same from there on (`qualified_agrees`). The
qualification costs one step and shows in the text of faults, and is no difference otherwise.
-/

set_option autoImplicit false

namespace NameLookup.SymbolTable

variable {σ : Substitution} {steps : Nat} {t : SymbolTable} {s : ScopeId} {m : Name} {ty : TypeExpr}
  {chain : ScopeChain}

/-! ## One member, found in two ways -/

namespace Registered

variable (h : t.Registered)
include h

/-- A member type is read off the declarations that record the scope as their owner. -/
theorem memberType?_eq (s : ScopeId) (m : Name) :
    t.memberType? s m = t.firstType? (·.kind.namesType) (t.declaredIn (.scope s) m) := by
  rw [memberType?, membersNamed, ← h.named_eq_filter, h.indexed]

/-- So is a name, where the innermost link is a scope that has a type for it. -/
theorem typeNamed?_of_member
    (hm : t.firstType? (·.kind.namesType) (t.declaredIn (.scope s) m) = some ty) :
    t.typeNamed? m (.scope s :: chain) = some ty := by
  have hdeclared : t.declaredIn (.scope s) m ≠ [] := by
    intro hnone
    rw [hnone] at hm
    cases hm
  rw [typeNamed?, ordinaryLookup_cons, h.indexed, if_neg hdeclared, hm, Option.some_or]

end Registered

/-! ## What they come to -/

/-- A member of a scope that is no template is followed inside of the scope, for one step more. -/
theorem resolveType_member_plain (hs : t.HasScope s) (hplain : t.isTemplate s = false)
    (hm : t.memberType? s m = some ty) :
    resolveType σ (steps + 1) (.member (.scope s) m) chain t =
      resolveType σ steps ty (t.chainOfScope s) t := by
  rw [resolveType_member, throughMember_run]
  cases steps with
  | zero => rw [resolveType_zero, resolveType_zero]
  | succ k =>
    obtain ⟨e, he⟩ := hs.entry
    rw [isTemplate, he, Option.any_some] at hplain
    have hbase : resolveType σ (k + 1) (.scope s) chain t = (.ok (.resolved ⟨s, []⟩), t) := by
      simp only [resolveType_scope, he, hplain, Bool.false_eq_true, if_false]
    have hmember : followMember ⟨s, []⟩ m t = (.ok (ty, t.chainOfScope s), t) := by
      have hscope : concreteScope ⟨s, []⟩ t = (.ok s, t) := rfl
      simp only [followMember_run, hscope, hm]
    simp only [hbase, hmember]

/-- A class `S` with a static member `m` and an alias `m` of `k::self`, which is `T<int>`. -/
def twofoldMember : SymbolTable :=
  selfNaming
    |>.withScope global "S" .classType none
    |>.withDecl ⟨"m", .staticData, .scope ⟨3⟩, some (.scalar "int"), none⟩
    |>.withDecl ⟨"m", .typeAlias, .scope ⟨3⟩, some (.member (.named "k") "self"), none⟩

theorem twofoldMember_grounded : twofoldMember.Grounded :=
  ((selfNaming_grounded.withScope _ _ _ _).withDecl _).withDecl _

end NameLookup.SymbolTable
