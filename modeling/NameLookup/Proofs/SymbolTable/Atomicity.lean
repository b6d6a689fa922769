import NameLookup.SymbolTable.History
import NameLookup.Proofs.SymbolTable.Copying

/-!
# Failed instantiations

An instantiation may fail after it has entered scopes and declarations, at any depth of the copy.
Since a copy only adds entries (`Copying.extends`), cutting the table back to its former length undoes
all of it (`failed_instantiation_restores`), and asking again fails in the same way.
-/

set_option autoImplicit false

namespace NameLookup.SymbolTable

/-- An instantiation that fails leaves scopes, declarations, blocks, the members of every owner and
the known instances as they were, and would fail again. -/
theorem failed_instantiation_restores {t t' : SymbolTable} {key : InstanceKey}
    {fault : InstantiationFault} (h : instantiate key t = (.error fault, t')) :
    t'.scopes = t.scopes ∧ t'.decls = t.decls ∧ t'.blocks = t.blocks ∧
      (∀ o name, (t'.membersOf o).named name = (t.membersOf o).named name) ∧
      t'.instances = t.instances ∧ instantiate key t' = (.error fault, t') := by
  obtain rfl : t' = t := instantiate_error h
  exact ⟨rfl, rfl, rfl, fun _ _ => rfl, rfl, h⟩

/-- The template `Outer<T>` with a member `count` and a class `Inner` that has a member `x`. -/
def nestedClass (limit : Nat) : SymbolTable :=
  (new limit)
    |>.withScope global "Outer" .classType (some ["T"])
    |>.withDecl ⟨"count", .staticData, .scope ⟨1⟩, none, none⟩
    |>.withScope ⟨1⟩ "Inner" .classType none
    |>.withDecl ⟨"x", .staticData, .scope ⟨2⟩, none, none⟩

/-- With one level of nesting allowed, `Outer<int>` and its `count` have been entered by the time that
`Inner` is refused. -/
theorem failed_instantiation_restores_nestedClass :
    let key : InstanceKey := ⟨⟨1⟩, [.scalar "int"]⟩
    let t := nestedClass 1
    let brokenOff := (copyScope (.ofParams ["T"] key.args) 1 ⟨1⟩ (some global) (some key) t).2
    (brokenOff.membersOf (.scope ⟨3⟩)).named "count" = [⟨4⟩] ∧
      (instantiate key t).1 = .error (.depthExceeded 1) ∧
      (instantiate key t).2.scopes.size = 3 ∧ (instantiate key t).2.decls.size = 4 ∧
      (instantiate key t).2.instances = [] ∧
      ((instantiate key t).2.membersOf (.scope ⟨3⟩)).named "count" = [] := by
  intro key t brokenOff
  have hfault : (instantiate key t).1 = .error (.depthExceeded 1) := by rfl
  obtain ⟨hscopes, hdecls, -, hnamed, hinstances, -⟩ :=
    failed_instantiation_restores (Attempt.run_of_fst hfault)
  exact ⟨by rfl, hfault, by rw [hscopes]; rfl, by rw [hdecls]; rfl, by rw [hinstances]; rfl,
    by rw [hnamed]; rfl⟩

end NameLookup.SymbolTable
