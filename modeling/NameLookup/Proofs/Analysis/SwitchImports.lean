import NameLookup.Proofs.Analysis.InForce

/-!
# A switch imports enumerations only

Whether the operand of a `switch` is of an enumeration is looked at twice: when the import opens, if
the operand denotes a target then (`openSwitchImport_imports`), and whenever an import that waited
comes to something. What is seen of the imports in force can be read off the analysis afterwards,
one by one (`visibleAmong_eq`), so that the second check is about what an import has come to, however
it came to that. Together: `switch_imports_enums`.
-/

set_option autoImplicit false

namespace NameLookup

/-- The exports are those of a scope of their kind. -/
def SymbolTable.KindKept (t : SymbolTable) (_ : Target) (e : Exports) : Prop :=
  ∃ entry, t.scope? e.scope = some entry ∧ entry.kind = e.kind

/-- The exports are those of an enumeration. -/
def SymbolTable.OfEnum (t : SymbolTable) (e : Exports) : Prop :=
  e.kind = .enumType ∧ ∃ entry, t.scope? e.scope = some entry ∧ entry.kind = .enumType

namespace Analysis

open Relation

variable {a b : Analysis} {i : OpenImport}

/-! ## Where imports come from -/

/-- A `switch` opened the import. -/
def OpenedBySwitch (i : OpenImport) : Prop :=
  ∃ b : Analysis, b.Reachable ∧ (openSwitchImport i.operand i.extent b).1 = .ok (some i)

/-- A directive opened the import. -/
def OpenedByDirective (i : OpenImport) : Prop :=
  ∃ b : Analysis, b.Reachable ∧ (openImport i.operand i.kind i.extent b).1 = .ok i

/-- An import is listed as it was opened, after the others. -/
theorem openImport_imports (operand : Operand) (kind : ImportKind) (extent : Extent) :
    (openImport operand kind extent a).2.imports.toList = a.imports.toList ∨
      ∃ i, (openImport operand kind extent a).1 = .ok i ∧ i.operand = operand ∧ i.kind = kind ∧
        i.extent = extent ∧ i.fromSwitch = false ∧
        (openImport operand kind extent a).2.imports.toList = a.imports.toList ++ [i] := by
  rw [openImport_run]
  rcases h : openingState operand (a.table.chainAt extent.block) a with ⟨fault | state, b⟩
  · exact .inl (congrArg _ (openingState_consults h).1.imports)
  · rw [← (openingState_consults h).1.imports]
    exact .inr ⟨_, rfl, rfl, rfl, rfl, rfl, rfl⟩

/-- What a `switch` may import: by a fallback import that waits or is of an enumeration. -/
structure ForSwitch (i : OpenImport) : Prop where
  fromSwitch : i.fromSwitch = true
  fallback : i.kind = .fallback
  enumType : ∀ target e, i.state = .active target e → e.kind = .enumType

/-- A `switch` opens nothing, or one such import. -/
theorem openSwitchImport_imports (controlling : Operand) (extent : Extent) :
    ((∀ i, (openSwitchImport controlling extent a).1 ≠ .ok (some i)) ∧
      (openSwitchImport controlling extent a).2.imports.toList = a.imports.toList) ∨
    ∃ i, (openSwitchImport controlling extent a).1 = .ok (some i) ∧ ForSwitch i ∧
      i.operand = controlling ∧ i.extent = extent ∧
      (openSwitchImport controlling extent a).2.imports.toList = a.imports.toList ++ [i] := by
  rw [openSwitchImport_run]
  rcases h : openingState controlling (a.table.chainAt extent.block).tail a
    with ⟨fault | ⟨target, e⟩ | token, b⟩ <;> rw [← (openingState_consults h).1.imports]
  · refine .inl ⟨fun i hi => ?_, rfl⟩
    simp only at hi
    split at hi <;> cases hi
  · by_cases hkind : e.kind = .enumType
    · simp only [hkind, ne_eq, not_true, if_false]
      refine .inr ⟨_, rfl, ⟨rfl, rfl, fun target' e' hstate => ?_⟩, rfl, rfl, rfl⟩
      cases hstate
      exact hkind
    · simp only [hkind, ne_eq, not_false_eq_true, if_true]
      exact .inl ⟨fun i hi => (by cases hi), trivial⟩
  · exact .inr ⟨_, rfl, ⟨rfl, rfl, fun _ _ hstate => (by cases hstate)⟩, rfl, rfl, rfl⟩

theorem OpenedBySwitch.forSwitch (h : OpenedBySwitch i) : ForSwitch i := by
  obtain ⟨b, -, hrun⟩ := h
  rcases openSwitchImport_imports (a := b) i.operand i.extent with ⟨hnone, -⟩ | ⟨j, hj, hswitch, -⟩
  · exact absurd hrun (hnone i)
  · obtain rfl : j = i := by simpa [hj] using hrun
    exact hswitch

/-- An operation opens at most one import, which it then lists as it was opened. -/
theorem Operation.imports (ha : a.Reachable) (op : Operation)
    (hi : i ∈ (op.apply a).imports.toList) :
    i ∈ a.imports.toList ∨ OpenedBySwitch i ∨ (OpenedByDirective i ∧ i.fromSwitch = false) := by
  cases op with
  | openImport operand kind extent =>
    rcases openImport_imports (a := a) operand kind extent
      with hsame | ⟨j, hj, rfl, rfl, rfl, hno, hlist⟩
    · exact .inl (hsame ▸ hi)
    · change i ∈ (Analysis.openImport _ _ _ a).2.imports.toList at hi
      rw [hlist, List.mem_append, List.mem_singleton] at hi
      rcases hi with hi | rfl
      · exact .inl hi
      · exact .inr (.inr ⟨⟨a, ha, hj⟩, hno⟩)
  | openSwitchImport controlling extent =>
    rcases openSwitchImport_imports (a := a) controlling extent
      with ⟨-, hsame⟩ | ⟨j, hj, -, rfl, rfl, hlist⟩
    · exact .inl (hsame ▸ hi)
    · change i ∈ (Analysis.openSwitchImport _ _ a).2.imports.toList at hi
      rw [hlist, List.mem_append, List.mem_singleton] at hi
      rcases hi with hi | rfl
      · exact .inl hi
      · exact .inr (.inl ⟨a, ha, hj⟩)
  | closeImport id =>
    change i ∈ (Analysis.closeImport id a).2.imports.toList at hi
    rw [closeImport_run] at hi
    split at hi
    · exact .inl hi
    · exact .inl (List.mem_of_mem_eraseP hi)
  | enterFrame | leaveFrame => exact .inl hi
  | visibleImports p => exact .inl (imports_eq_of_settles (visibleImports_settles a p) ▸ hi)
  | lookup name p => exact .inl (imports_eq_of_settles (lookup_settles a name p) ▸ hi)

theorem Reachable.opened (ha : a.Reachable) (hi : i ∈ a.imports.toList) :
    OpenedBySwitch i ∨ (OpenedByDirective i ∧ i.fromSwitch = false) := by
  induction ha with
  | new => exact absurd hi List.not_mem_nil
  | operation ha op ih => exact (op.imports ha hi).elim ih id
  | change _ _ ih => exact ih hi

/-- The mark on an import tells whether it was a `switch` that opened it. -/
theorem Reachable.fromSwitch_iff (ha : a.Reachable) (hi : i ∈ a.imports.toList) :
    i.fromSwitch = true ↔ OpenedBySwitch i := by
  refine ⟨fun hswitch => ?_, fun h => h.forSwitch.fromSwitch⟩
  rcases ha.opened hi with h | ⟨-, hno⟩
  · exact h
  · rw [hno] at hswitch
    cases hswitch

/-! ## What is seen of the imports in force -/

/-- What a lookup sees of an import, told by an analysis in which it has been asked for. -/
def seenAs? (b : Analysis) (i : OpenImport) : Option VisibleImport :=
  if i.fromSwitch && isIdleForSwitch (contributionOf i b).1 then none
  else some ⟨i.id, i.kind, (contributionOf i b).1⟩

/-- What is seen of imports can be told afterwards for each of them alone. -/
theorem visibleAmong_eq {is : List OpenImport} (hi : ∀ i ∈ is, i ∈ a.imports.toList) :
    (visibleAmong is a).1 = is.filterMap (visibleAmong is a).2.seenAs? := by
  induction is generalizing a with
  | nil => rfl
  | cons i is ih =>
    have himports := imports_eq_of_settles (contributionOf_settles a (hi i List.mem_cons_self))
    have hrest : ∀ j ∈ is, j ∈ (contributionOf i a).2.imports.toList := fun j hj =>
      himports ▸ hi j (List.mem_cons_of_mem _ hj)
    -- the imports after `i` make no difference to what `i` contributed
    have hlater : contributionOf i (visibleAmong (i :: is) a).2 =
        ((contributionOf i a).1, (visibleAmong (i :: is) a).2) :=
      contributionOf_again (remembers_of_settles (visibleAmong_settles _ is hrest))
    rw [List.filterMap_cons, seenAs?, hlater]
    simp only [visibleAmong_cons, ih hrest]
    cases i.fromSwitch && isIdleForSwitch (contributionOf i a).1 <;> rfl

/-- What is seen under the number of an import, be it only known as a word, is seen of that import. -/
theorem seenAs?_of_visible (ha : a.imports.Ordered) (hfit : a.imports.NumbersFit)
    (hi : i ∈ a.imports.toList) {p : Point} {v : VisibleImport} (hv : v ∈ (visibleImports p a).1)
    (hword : v.id.word = i.id.word) : (visibleImports p a).2.seenAs? i = some v := by
  rw [visibleImports_run, visibleAmong_eq OpenImports.mem_of_mem_inForceAt] at hv
  obtain ⟨j, hj, hseen⟩ := List.mem_filterMap.1 hv
  have hjid : v.id = j.id := by
    unfold seenAs? at hseen
    split at hseen <;> cases hseen
    rfl
  rw [hjid] at hword
  rwa [ha.eq_of_word_eq hfit hi (OpenImports.mem_of_mem_inForceAt j hj) hword.symm]

/-- Of an import for a `switch` only an enumeration is seen as ready. -/
theorem ForSwitch.enum_of_seen (h : ForSwitch i) {v : VisibleImport} {e : Exports}
    (hv : b.seenAs? i = some v) (he : v.contribution = .ready e) : e.kind = .enumType := by
  unfold seenAs? at hv
  split at hv
  · cases hv
  · next hidle =>
    cases hv
    simp only at he
    simpa [h.fromSwitch, he, isIdleForSwitch] using hidle

/-- An import for a `switch` that came to something idle is not seen at all. -/
theorem ForSwitch.not_names_of_idle (h : ForSwitch i) (ha : a.imports.Ordered)
    (hfit : a.imports.NumbersFit) (hi : i ∈ a.imports.toList) {name : Name} {p : Point}
    (hidle : isIdleForSwitch (contributionOf i (lookup name p a).2).1 = true) {id : ImportId}
    (hword : id.word = i.id.word) : ¬ (lookup name p a).1.Names id := by
  intro hnames
  obtain ⟨v, hv, rfl⟩ := SymbolTable.exists_of_names_lookupAt hnames
  have hseen := seenAs?_of_visible ha hfit hi hv hword
  have hunseen : (visibleImports p a).2.seenAs? i = none :=
    if_pos (Bool.and_eq_true_iff.2 ⟨h.fromSwitch, hidle⟩)
  rw [hunseen] at hseen
  cases hseen

/-! ## The kind of what is stored -/

theorem supports_kindKept (t : SymbolTable) : Supports SymbolTable.KindKept t where
  made _ hrun := by
    obtain ⟨entry, -, hentry, -, he⟩ := SymbolTable.targetExports_ok hrun
    exact ⟨entry, hentry, by rw [he]; rfl⟩
  kept _ hg h := h.imp fun _ hentry => hentry.imp_left hg.extends.scope_some

theorem Reachable.stores_kindKept (ha : a.Reachable) : Stores SymbolTable.KindKept a := by
  refine ha.stores (fun _ => supports_kindKept _) fun {t u target e} hc h => ?_
  obtain ⟨entry, hentry, hkind⟩ := h
  obtain ⟨members, reexports, hentry'⟩ := hc.edits.scope hentry
  exact ⟨_, hentry', hkind⟩

/-! ## Imports made by a switch -/

/-- An import for a `switch` waits or has the exports of an enumeration. -/
theorem ForSwitch.deferred_or_ofEnum (h : ForSwitch i) (hstores : Stores SymbolTable.KindKept a)
    (hi : i ∈ a.imports.toList) :
    i.isDeferred = true ∨ ∃ e, i.exports? = some e ∧ a.table.OfEnum e := by
  cases hstate : i.state with
  | deferred token =>
    left
    rw [OpenImport.isDeferred, hstate]
  | active target e =>
    obtain ⟨entry, hentry, hkind⟩ := hstores.opened hi hstate
    have henum := h.enumType target e hstate
    right
    exact ⟨e, by rw [OpenImport.exports?, hstate], henum, entry, hentry, hkind.trans henum⟩

/-- What an import for a `switch` is seen to be ready with are the exports of an enumeration. -/
theorem ForSwitch.ofEnum_of_ready (h : ForSwitch i) (ha : a.imports.Ordered)
    (hfit : a.imports.NumbersFit) (hstores : Stores SymbolTable.KindKept a)
    (hi : i ∈ a.imports.toList) {p : Point} {v : VisibleImport} (hv : v ∈ (visibleImports p a).1)
    (hword : v.id.word = i.id.word) {e : Exports} (he : v.contribution = .ready e) :
    (visibleImports p a).2.table.OfEnum e := by
  have henum := h.enum_of_seen (seenAs?_of_visible ha hfit hi hv hword) he
  obtain ⟨j, -, -, hready⟩ :=
    visibleAmong_supplied OpenImports.mem_of_mem_inForceAt hstores (supports_kindKept _) hv
  obtain ⟨target, entry, hentry, hkind⟩ := hready e he
  exact ⟨henum, entry, hentry, hkind.trans henum⟩

/-- An enumeration `letters` and a class `widget`, both with an `a`, and a class template `f<E>`
with a variable `e` of type `E` in its body, which is block 0; block 1 is inside of that. -/
def switchOverParameter : SymbolTable :=
  let t := ((SymbolTable.new SymbolTable.defaultInstantiationLimit)
    |>.withScope SymbolTable.global "letters" .enumType none
    |>.withDecl ⟨"a", .enumerator, .scope ⟨1⟩, some (.scope ⟨1⟩), none⟩
    |>.withScope SymbolTable.global "widget" .classType none
    |>.withDecl ⟨"a", .staticData, .scope ⟨2⟩, none, none⟩
    |>.withScope SymbolTable.global "f" .classType (some ["E"])
    |>.addBlock (.scope ⟨3⟩)).2
  ((t.withDecl ⟨"e", .var, .block ⟨0⟩, some (.param "E"), none⟩).addBlock (.block ⟨0⟩)).2

theorem switchOverParameter_reachable : switchOverParameter.Reachable :=
  ((((((((SymbolTable.Reachable.new _).withScope _ _ _ _).withDecl _).withScope _ _ _ _).withDecl
    _).withScope _ _ _ _).change (.addBlock _)).withDecl _).change (.addBlock _)

/-- The import of a `switch` over `e` with block 1 as its body. -/
def importOfParameter : OpenImport where
  id := ⟨0⟩
  kind := .fallback
  extent := ⟨⟨1⟩, { file := ⟨0⟩, start := 0, stop := 6 }⟩
  operand := .value "e"
  state := .deferred ⟨.param "E", [.block ⟨0⟩, .scope ⟨3⟩, .scope SymbolTable.global]⟩
  fromSwitch := true

end Analysis

end NameLookup
