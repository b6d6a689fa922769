import NameLookup.Proofs.Analysis.Freshness
import NameLookup.Proofs.SymbolTable.InstanceRecords

/-!
# What a refused import leaves behind

A refused import opens nothing and changes nothing of the analysis but its table. There it may leave
instances: to look for a member of `Box<int>` is to build `Box<int>`, and it stays built when the
member is missing (`refused_import_builds`). That is all that may be left (`refused_import`): each of
them is complete and was missing before, all of them come from resolving the operand, and to work out
exports in vain leaves nothing. So a refused import leaves things as they were if no instance was
missing, as in a second attempt.
-/

set_option autoImplicit false

namespace NameLookup

namespace SymbolTable

variable {t u : SymbolTable} {target : Target}

/-- A table that grew has an instance that was missing. -/
theorem Grows.eq_or_built (h : t.Grows u) :
    u = t ∨ ∃ key s, t.instance? key = none ∧ u.instance? key = some s := by
  cases h with
  | refl => exact .inl rfl
  | @build _ t' _ key s hnew hbuild h =>
    have hask : instantiate key t = (.ok s, t') := by rw [instantiate_run, hnew, hbuild]
    exact .inr ⟨key, s, hnew, h.instance_some (instance?_of_instantiate hask)⟩

theorem concreteScope_error {fault : InstantiationFault}
    (h : concreteScope target t = (.error fault, u)) : u = t := by
  unfold concreteScope at h
  split at h
  · cases h
  · exact instantiate_error h

/-- An instance that was built has exports: it exists, and is no template. So if there are none,
nothing was built. -/
theorem targetExports_error (ht : t.Reachable) {fault : ImportFault}
    (h : targetExports target t = (.error fault, u)) : u = t := by
  rw [targetExports_run] at h
  rcases hc : concreteScope target t with ⟨f | s, v⟩ <;> rw [hc] at h
  · cases h
    exact concreteScope_error hc
  · have hread : u = v := by
      have hv := readExports_readOnly s v
      rwa [show readExports s v = (.error fault, u) from h] at hv
    subst hread
    unfold concreteScope at hc
    split at hc
    · cases hc
      rfl
    · exfalso
      have hu : u.Reachable := ht.grows ((instantiate_growing _).of_run hc)
      obtain ⟨e, he, hkey⟩ := hu.keyed _ s (instance?_of_instantiate hc)
      have htemplate : e.isTemplate = false := by
        rw [Scope.isTemplate, (hu.recorded s e _ he hkey).2]
        rfl
      simp only [readExports_run, he, htemplate] at h
      cases h

theorem Extends.operandType? (h : t.Extends u) (ht : t.Sound) {chain : ScopeChain}
    (hc : t.ChainIn chain) (operand : Operand) :
    u.operandType? chain operand = t.operandType? chain operand := by
  cases operand with
  | value n => exact h.typeOfValue? ht hc n
  | type ty =>
    cases ty with
    | named n => exact h.typeNamed? ht hc n
    | _ => rfl

end SymbolTable

/-- Nor does a cache build anything in vain. -/
theorem ExportCache.fetch_error {t u : SymbolTable} (ht : t.Reachable) {c : ExportCache}
    {target : Target} {fault : ImportFault} (h : c.fetch target t = (.error fault, u)) : u = t := by
  rw [ExportCache.fetch_run] at h
  cases hl : c.entries.lookup target with
  | some e =>
    rw [hl] at h
    cases h
  | none =>
    simp only [hl] at h
    rcases hx : SymbolTable.targetExports target t with ⟨f | e, v⟩ <;> rw [hx] at h <;> cases h
    exact SymbolTable.targetExports_error ht hx

namespace Analysis

open SymbolTable

variable {a b : Analysis} {operand : Operand} {chain : ScopeChain} {fault : ImportFault}

theorem fetchExports_error (ht : a.table.Reachable) {target : Target}
    (h : fetchExports target a = (.error fault, b)) : b = a := by
  rw [fetchExports_run] at h
  rcases hf : a.exportCache.fetch target a.table with ⟨f | ⟨e, c⟩, t⟩ <;> rw [hf] at h <;> cases h
  rw [ExportCache.fetch_error ht hf]

/-- What is left of `a` when an import of `operand`, where `chain` is visible, was refused. -/
structure Refused (operand : Operand) (chain : ScopeChain) (a b : Analysis) : Prop where
  /-- Nothing but the table has changed. -/
  only_table : b = { a with table := b.table }
  /-- The table is what finding out what the operand denotes has made of it. -/
  resolved : b.table =
    (resolveOperand (bindingsOf a.frames) a.options.stepBudget operand chain a.table).2
  /-- Instances that were missing were built, and nothing else was done. -/
  grows : a.table.Grows b.table
  unchanged : b = a ∨ ∃ key s, a.table.instance? key = none ∧ b.table.instance? key = some s

theorem openingState_error (ht : a.table.Reachable)
    (h : openingState operand chain a = (.error fault, b)) : Refused operand chain a b := by
  have hg := (openingState_consults h).1.grows
  obtain ⟨t, hr, rfl⟩ : ∃ t, (resolveOperand (bindingsOf a.frames) a.options.stepBudget operand chain
      a.table).2 = t ∧ b = { a with table := t } := by
    have hgr := resolveOperand_growing (bindingsOf a.frames) a.options.stepBudget operand chain a.table
    rw [openingState_run] at h
    rcases hr : resolveOperand (bindingsOf a.frames) a.options.stepBudget operand chain a.table
      with ⟨f | target | token, t⟩ <;> simp only [hr] at h hgr
    · cases h
      exact ⟨t, rfl, rfl⟩
    · rcases hf : fetchExports target { a with table := t } with ⟨f | e, c⟩ <;> rw [hf] at h <;> cases h
      exact ⟨t, rfl, fetchExports_error (ht.grows hgr) hf⟩
    · cases h
  refine ⟨rfl, hr.symm, hg, hg.eq_or_built.imp_left fun heq => ?_⟩
  change t = a.table at heq
  rw [heq]

/-- How the operand is spelled does not decide whether it is a scope. -/
theorem isNotAScope_toImportFault (f : ResolutionFault) (x y : String) :
    (f.toImportFault x).isNotAScope = (f.toImportFault y).isNotAScope := by
  rcases f with f | f
  · cases f <;> rfl
  · rfl

/-- What failed once fails again, and the second attempt leaves nothing. -/
theorem openingState_again (ht : a.table.Reachable) (hc : a.table.ChainIn chain)
    (h : openingState operand chain a = (.error fault, b)) :
    ∃ fault', openingState operand chain b = (.error fault', b) ∧
      fault'.isNotAScope = fault.isNotAScope := by
  rw [openingState_run, resolveOperand_run] at h
  cases hty : a.table.operandType? chain operand with
  | none =>
    simp only [hty] at h
    cases h
    refine ⟨_, ?_, rfl⟩
    rw [openingState_run, resolveOperand_run]
    simp only [hty]
  | some ty =>
    have hg := resolveType_growing (bindingsOf a.frames) a.options.stepBudget ty chain a.table
    have hagain := @(resolveType_repeatable (bindingsOf a.frames) a.options.stepBudget ty ht.sound
      hc).midway
    simp only [hty] at h
    rcases hr : resolveType (bindingsOf a.frames) a.options.stepBudget ty chain a.table
      with ⟨r, t⟩
    rw [hr] at h hg
    have hty' : t.operandType? chain operand = some ty :=
      (hg.extends.operandType? ht.sound hc operand).trans hty
    have hr' : resolveType (bindingsOf a.frames) a.options.stepBudget ty chain t = (r, t) :=
      hagain hr hg (.refl t)
    rcases r with f | target | token
    · cases h
      refine ⟨f.toImportFault (t.spellOperand operand), ?_, isNotAScope_toImportFault ..⟩
      simp only [openingState_run, resolveOperand_run, hty', hr']
      rfl
    · simp only [Attempt.mapError_ok] at h
      rcases hf : fetchExports target { a with table := t } with ⟨f | e, c⟩ <;> rw [hf] at h <;> cases h
      obtain rfl := fetchExports_error (ht.grows hg) hf
      refine ⟨fault, ?_, rfl⟩
      simp only [openingState_run, resolveOperand_run, hty', hr', Attempt.mapError_ok, hf]
    · cases h

/-! ## Refused imports -/

theorem openImport_error {kind : ImportKind} {extent : Extent} :
    openImport operand kind extent a = (.error fault, b) ↔
      openingState operand (a.table.chainAt extent.block) a = (.error fault, b) := by
  rw [openImport_run]
  rcases openingState operand (a.table.chainAt extent.block) a with ⟨f | state, c⟩
  · constructor <;> intro h <;> cases h <;> rfl
  · constructor <;> intro h <;> cases h

theorem openSwitchImport_error {extent : Extent} :
    openSwitchImport operand extent a = (.error fault, b) ↔
      openingState operand (a.table.chainAt extent.block).tail a = (.error fault, b) ∧
        fault.isNotAScope = false := by
  rw [openSwitchImport_run]
  rcases openingState operand (a.table.chainAt extent.block).tail a
    with ⟨f | ⟨target, exports⟩ | token, c⟩
  · simp only
    split
    · next hscope =>
      refine ⟨fun h => (by cases h), fun ⟨h, hno⟩ => ?_⟩
      cases h
      rw [hscope] at hno
      cases hno
    · next hscope =>
      refine ⟨fun h => ?_, fun ⟨h, _⟩ => ?_⟩
      · cases h
        exact ⟨rfl, Bool.eq_false_iff.2 hscope⟩
      · cases h
        rfl
  · refine ⟨fun h => ?_, fun ⟨h, _⟩ => (by cases h)⟩
    simp only at h
    split at h <;> cases h
  · constructor
    · intro h
      cases h
    · rintro ⟨h, -⟩
      cases h

/-- An import that is refused opens nothing, and changes the table at most by building instances,
each complete and missing before, while it finds out what the operand denotes. If none was missing it
changes nothing. Where blocks stand in scopes that exist it is refused again, and then it changes
nothing. -/
theorem refused_import (ha : a.Reachable) (operand : Operand) (extent : Extent) :
    (∀ kind fault b, openImport operand kind extent a = (.error fault, b) →
      Refused operand (a.table.chainAt extent.block) a b ∧
        (a.table.BlocksIn → ∃ fault', openImport operand kind extent b = (.error fault', b))) ∧
    ∀ fault b, openSwitchImport operand extent a = (.error fault, b) →
      Refused operand (a.table.chainAt extent.block).tail a b ∧
        (a.table.BlocksIn → ∃ fault', openSwitchImport operand extent b = (.error fault', b)) := by
  have hchain {b : Analysis} (hg : a.table.Grows b.table) (hb : a.table.BlocksIn) :
      b.table.chainAt extent.block = a.table.chainAt extent.block ∧
        a.table.ChainIn (a.table.chainAt extent.block) :=
    ⟨hg.extends.chainAt ha.table.sound hb _, chainAt_in ha.table.sound hb _⟩
  refine ⟨fun kind fault b h => ?_, fun fault b h => ?_⟩
  · rw [openImport_error] at h
    have hrefused := openingState_error ha.table h
    refine ⟨hrefused, fun hb => ?_⟩
    obtain ⟨heq, hin⟩ := hchain hrefused.grows hb
    obtain ⟨fault', hagain, -⟩ := openingState_again ha.table hin h
    exact ⟨fault', openImport_error.2 (heq ▸ hagain)⟩
  · obtain ⟨h, hscope⟩ := openSwitchImport_error.1 h
    have hrefused := openingState_error ha.table h
    refine ⟨hrefused, fun hb => ?_⟩
    obtain ⟨heq, hin⟩ := hchain hrefused.grows hb
    obtain ⟨fault', hagain, hscope'⟩ :=
      openingState_again ha.table (fun s hs => hin s (List.mem_of_mem_tail hs)) h
    exact ⟨fault', openSwitchImport_error.2 ⟨heq ▸ hagain, hscope'.trans hscope⟩⟩

/-- An import of `Box<int>::missing`. -/
def importMissing : Analysis → Except ImportFault OpenImport × Analysis :=
  openImport (.type (.member (.apply ⟨1⟩ [.scalar "int"]) "missing")) .unconditional
    ⟨⟨0⟩, { file := ⟨0⟩, start := 0, stop := 7 }⟩

/-- `Box<T>` has no such member. -/
theorem importMissing_besideBox :
    ∃ text, (importMissing besideBox).1 = .error (.unresolved text (.noSuchMember "missing")) :=
  ⟨_, rfl⟩

/-- The import is refused once `Box<int>` has been built, and then again. -/
theorem refused_import_builds :
    let b := (importMissing besideBox).2
    b = { besideBox with table := b.table } ∧ besideBox.table.scopes.size = 2 ∧
      b.table.scopes.size = 3 ∧ b.table.instance? ⟨⟨1⟩, [.scalar "int"]⟩ = some ⟨2⟩ ∧
      ∃ fault, importMissing b = (.error fault, b) := by
  intro b
  obtain ⟨text, hrun⟩ := importMissing_besideBox
  obtain ⟨hrefused, hagain⟩ := (refused_import besideBox_closedRun.reachable _ _).1 _ _ _
    (Attempt.run_of_fst hrun)
  exact ⟨hrefused.only_table, by rfl, by decide +kernel, by decide +kernel,
    hagain besideBox_closedRun.coherent.closed.blocks⟩

/-- A refused import does not always leave the table as it was. -/
theorem refused_import_changes_table :
    ¬ ∀ (a b : Analysis) (operand : Operand) (extent : Extent) (fault : ImportFault), a.Reachable →
      ((∃ kind, openImport operand kind extent a = (.error fault, b)) ∨
        openSwitchImport operand extent a = (.error fault, b)) →
      b.table.scopes = a.table.scopes ∧ b.table.decls = a.table.decls ∧
        b.table.instances = a.table.instances ∧ b.imports = a.imports := by
  intro hall
  obtain ⟨text, hrun⟩ := importMissing_besideBox
  obtain ⟨-, -, hinstances, -⟩ := hall _ _ _ _ _ besideBox_closedRun.reachable
    (.inl ⟨_, Attempt.run_of_fst hrun⟩)
  have hbuilt : (importMissing besideBox).2.table.instances ≠ [] := by decide +kernel
  exact hbuilt hinstances

end Analysis

end NameLookup
