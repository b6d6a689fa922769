import NameLookup.Diagnostic.OfLookup
import NameLookup.Proofs.Lookup.Stages
import NameLookup.Proofs.SymbolTable.Rendering

/-!
# What is reported about a lookup

A report has first what the verdict calls for, and then an error for each import at fault
(`lookup_reported`). What the verdict calls for is `VerdictReported`, one constructor for each case;
its notes tell where a declaration is written and name it with its owner (`NotesDecl`), or name a route
(`NotesRoute`). All that is named has to be spelled, so there is a report where that ends
(`CanReport`). The warning about hidden enumerators rests on how the stages of a lookup work together
(`unique_of_hidden`): there is something hidden only where the chain declares the name, so the one
declaration that was found is the one that hides the others, and is none of them.
-/

set_option autoImplicit false

namespace NameLookup

/-- The members of a list are those in `P`, and it has each of them once. -/
structure ListsOnce {α : Type} (xs : List α) (P : α → Prop) : Prop where
  nodup : xs.Nodup
  mem_iff : ∀ x, x ∈ xs ↔ P x

/-- The diagnostic is one of that severity and code, about that range. -/
structure Diagnostic.Marks (d : Diagnostic) (severity : Severity) (code : String) (range : Range) :
    Prop where
  severity : d.severity = severity
  code : d.code = some code
  range : d.range = range

/-- The error for an import whose operand is at fault. -/
structure FaultReported (range : Range) (fault : ImportFault) (d : Diagnostic) : Prop where
  marks : d.Marks .error "E0004" range ∧ (∃ f, fault = .instantiation f) ∨
    d.Marks .error "E0003" range ∧ ∀ f, fault ≠ .instantiation f
  message : d.message = fault.message
  notes : d.notes = []

/-- The candidate is from a fallback import, and no import of the other kind has its declaration. -/
structure FallbackOnly (imports : List VisibleImport) (name : Name) (c : Candidate) : Prop where
  supplied : ∃ i ∈ imports, i.kind = .fallback ∧ c ∈ i.candidates name
  only : ∀ i ∈ imports, ∀ c' ∈ i.candidates name, c'.decl = c.decl → i.kind = .fallback

/-- A route in words. -/
inductive RouteText (t : SymbolTable) : Origin → String → Prop
  | ordinary {owner : Owner} {text : String} (h : t.OwnerText owner text) :
      RouteText t (.ordinary owner) ("ordinary lookup in " ++ text)
  | imported (id : ImportId) {s : ScopeId} {parts : List String} (h : t.NameParts s parts) :
      RouteText t (.imported id s) ("import of " ++ joinSegments parts)
  | associated {s : ScopeId} {parts : List String} (h : t.NameParts s parts) :
      RouteText t (.associated s) ("associated scope " ++ joinSegments parts)

theorem RouteText.spellOrigin {t : SymbolTable} {o : Origin} {text : String}
    (h : RouteText t o text) : t.spellOrigin o = text := by
  unfold SymbolTable.spellOrigin
  cases h with
  | ordinary h =>
    rw [← h.spellOwner]
    rfl
  | imported _ h | associated h =>
    rw [← h.qualifiedName]
    rfl

/-- The note tells where the declaration is written, if that is known, and names it. -/
structure NotesDecl (t : SymbolTable) (what : String) (d : DeclId) (n : Note) : Prop where
  location : n.location = (t.decl? d).bind (·.span)
  message : ∃ text, t.DeclText d text ∧ n.message = what ++ ": " ++ text

/-- The note names a route, which is written nowhere. -/
structure NotesRoute (t : SymbolTable) (o : Origin) (n : Note) : Prop where
  location : n.location = none
  message : ∃ text, RouteText t o text ∧ n.message = "visible via " ++ text

/-- What the verdict of a lookup at `p` calls for, where `imports` are in force. -/
inductive VerdictReported (t : SymbolTable) (imports : List VisibleImport) (p : Point) (range : Range)
    (o : LookupOutcome) : Report → Prop
  /-- Nothing was found. -/
  | notFound {d : Diagnostic} (hv : o.verdict = .notFound) (hd : d.Marks .error "E0001" range)
      (hmessage : d.message = "undefined reference: '" ++ o.name ++ "'") (hnotes : d.notes = []) :
      VerdictReported t imports p range o [d]
  /-- The notes name each declaration that was found, and then each route. -/
  | ambiguous {d : Diagnostic} {decls : List DeclId} {origins : List Origin} {names : List String}
      {found routes : List Note}
      (hv : o.verdict = .ambiguous origins) (hd : d.Marks .error "E0002" range)
      (hnames : List.Forall₂ t.DeclText decls names)
      (hmessage : d.message =
        "ambiguous reference: '" ++ o.name ++ "' could be: " ++ ", ".intercalate names)
      (hnotes : d.notes = found ++ routes)
      (hfound : List.Forall₂ (NotesDecl t "candidate") decls found)
      (hroutes : List.Forall₂ (NotesRoute t) origins routes)
      (hdecls : ListsOnce decls fun x => ∃ c ∈ o.candidates, c.decl = x)
      (horigins : ListsOnce origins fun x => ∃ c ∈ o.candidates, c.origin = x) :
      VerdictReported t imports p range o [d]
  /-- An ordinary declaration hides others, which none but fallback imports have. -/
  | hidden {d : Diagnostic} {x : DeclId} (hv : o.verdict = .unique x) (hhidden : o.hidden ≠ [])
      (hd : d.Marks .warning "W0001" range)
      (hmessage : d.message = "'" ++ o.name ++ "' refers to a local declaration, not the enumerator")
      (hnotes : List.Forall₂ (fun c => NotesDecl t "hidden candidate" c.decl) o.hidden d.notes)
      (hordinary : x ∈ t.ordinaryLookup o.name (t.chainAt p.block))
      (hfound : ∃ owner, ⟨x, .ordinary owner⟩ ∈ o.candidates)
      (hothers : ∀ c ∈ o.hidden, c.decl ≠ x ∧ FallbackOnly imports o.name c) :
      VerdictReported t imports p range o [d]
  | unique {x : DeclId} (hv : o.verdict = .unique x) (hhidden : o.hidden = []) :
      VerdictReported t imports p range o []
  | deferred (hv : o.verdict = .deferred) : VerdictReported t imports p range o []

/-- Spelling what a report on the lookup names ends. -/
def CanReport (t : SymbolTable) (o : LookupOutcome) : Prop :=
  match o.verdict with
  | .unique _ => ∀ c ∈ o.hidden, ∃ text, t.DeclText c.decl text
  | .ambiguous _ => ∀ c ∈ o.candidates,
      (∃ text, t.DeclText c.decl text) ∧ ∃ text, RouteText t c.origin text
  | .notFound | .deferred => True

/-! ## Verdicts -/

namespace Verdict

theorem decl_eq_of_unique {cs : List Candidate} {x : DeclId}
    (h : ofCandidates cs = .unique x) : ∀ c ∈ cs, c.decl = x := by
  have hfits : (ofCandidates cs).Fits (fun d => ∃ c ∈ cs, c.decl = d) False :=
    fits_ofCandidates (fun _ => Iff.rfl) fun _ => id
  rw [h] at hfits
  exact fun c hc => hfits.2 c.decl ⟨c, hc, rfl⟩

end Verdict

namespace SymbolTable

variable {t : SymbolTable} {strict : Bool} {associated : AssociatedScopes}
  {imports : List VisibleImport} {name : Name} {p : Point} {range : Range}

/-! ## Hidden candidates -/

/-- Something is hidden only by what the chain declares, and where not only enumerators count. -/
theorem ordinary_of_hidden (h : t.hiddenAt strict imports name p ≠ []) :
    t.ordinaryAt name p ≠ [] ∧ isNarrowed strict imports p = false := by
  unfold hiddenAt at h
  split at h
  · exact absurd rfl h
  · next hnot =>
    rw [Bool.or_eq_true, not_or, List.isEmpty_iff, Bool.not_eq_true] at hnot
    exact hnot

/-- Wherever others are hidden, the candidates are what the chain declares and what the other imports
supply. -/
theorem mem_candidatesAt_of_hidden (h : t.hiddenAt strict imports name p ≠ []) {c : Candidate}
    (hc : c ∈ t.ordinaryAt name p ∨
      ∃ i ∈ imports, i.kind = .unconditional ∧ c ∈ i.candidates name) :
    c ∈ t.candidatesAt strict associated imports name p := by
  obtain ⟨hordinary, hnarrow⟩ := ordinary_of_hidden h
  rw [candidatesAt_of_ordinary hnarrow hordinary, List.mem_append]
  refine hc.imp_right fun ⟨i, hi, hkind, hc⟩ => List.mem_flatMap.2 ⟨i, ?_, hc⟩
  exact List.mem_filter.2 ⟨hi, decide_eq_true hkind⟩

/-- What is hidden is supplied by a fallback import, and the chain does not declare it. -/
theorem hidden_not_ordinary {c : Candidate} (h : c ∈ t.hiddenAt strict imports name p) :
    (∃ i ∈ imports, i.kind = .fallback ∧ c ∈ i.candidates name) ∧
      ∀ c' ∈ t.ordinaryAt name p, c'.decl ≠ c.decl := by
  unfold hiddenAt at h
  split at h
  · exact absurd h List.not_mem_nil
  · obtain ⟨hsupplied, hnot⟩ := List.mem_filter.1 h
    obtain ⟨i, hi, hc⟩ := List.mem_flatMap.1 hsupplied
    obtain ⟨hi, hkind⟩ := List.mem_filter.1 hi
    rw [Bool.not_eq_true', List.any_eq_false] at hnot
    exact ⟨⟨i, hi, of_decide_eq_true hkind, hc⟩, fun c' hc' heq =>
      hnot c' hc' (decide_eq_true heq)⟩

/-- Where others are hidden, the one declaration that was found is declared by the chain, and it is
none of those, which no import but the fallback ones has. -/
theorem unique_of_hidden {x : DeclId}
    (hv : t.verdictAt strict associated imports name p = .unique x)
    (h : t.hiddenAt strict imports name p ≠ []) :
    x ∈ t.ordinaryLookup name (t.chainAt p.block) ∧
      (∃ owner, ⟨x, .ordinary owner⟩ ∈ t.candidatesAt strict associated imports name p) ∧
      ∀ c ∈ t.hiddenAt strict imports name p, c.decl ≠ x ∧ FallbackOnly imports name c := by
  obtain ⟨first, hfirst⟩ := List.exists_mem_of_ne_nil _ (ordinary_of_hidden h).1
  have hmem : first ∈ t.candidatesAt strict associated imports name p :=
    mem_candidatesAt_of_hidden h (.inl hfirst)
  rw [verdictAt_of_found (List.ne_nil_of_mem hmem)] at hv
  have hfound := Verdict.decl_eq_of_unique hv
  obtain rfl : first.decl = x := hfound first hmem
  obtain ⟨hdeclared, owner, horigin⟩ := mem_ordinaryCandidates hfirst
  refine ⟨hdeclared, ⟨owner, horigin ▸ hmem⟩, fun c hc => ?_⟩
  obtain ⟨hsupplied, hnot⟩ := hidden_not_ordinary hc
  refine ⟨(hnot first hfirst).symm, hsupplied, fun i hi c' hc' heq => ?_⟩
  -- of an unconditional import it would be a candidate, and so what was found
  cases hkind : i.kind with
  | fallback => rfl
  | unconditional =>
    have hdecl : c'.decl = first.decl :=
      hfound c' (mem_candidatesAt_of_hidden h (.inr ⟨i, hi, hkind, hc'⟩))
    exact absurd (hdecl.symm.trans heq) (hnot first hfirst)

/-! ## Notes -/

theorem declNote_notes {d : DeclId} (h : ∃ text, t.DeclText d text) (what : String) :
    NotesDecl t what d (t.declNote what d) := by
  obtain ⟨text, htext⟩ := h
  refine ⟨rfl, text, htext, ?_⟩
  rw [← htext.spellDecl]
  rfl

theorem originNote_notes {o : Origin} (h : ∃ text, RouteText t o text) :
    NotesRoute t o (t.originNote o) := by
  obtain ⟨text, htext⟩ := h
  refine ⟨rfl, text, htext, ?_⟩
  rw [← htext.spellOrigin]
  rfl

theorem forall₂_map_right {α β : Type} {R : α → β → Prop} {f : α → β} {xs : List α}
    (h : ∀ x ∈ xs, R x (f x)) : List.Forall₂ R xs (xs.map f) :=
  List.forall₂_map_right_iff.2 (List.forall₂_same.2 h)

/-! ## Reports -/

/-- In an ordered table all that a report names can be spelled. -/
theorem Ordered.canReport (h : t.Ordered) (o : LookupOutcome) : CanReport t o := by
  have hroute : ∀ origin, ∃ text, RouteText t origin text := by
    intro origin
    cases origin with
    | ordinary owner =>
      obtain ⟨text, htext⟩ := h.exists_ownerText owner
      exact ⟨_, .ordinary htext⟩
    | imported id s =>
      obtain ⟨parts, hparts⟩ := h.exists_nameParts s
      exact ⟨_, .imported id hparts⟩
    | associated s =>
      obtain ⟨parts, hparts⟩ := h.exists_nameParts s
      exact ⟨_, .associated hparts⟩
  unfold CanReport
  cases o.verdict with
  | unique d => exact fun c _ => h.exists_declText c.decl
  | ambiguous origins => exact fun c _ => ⟨h.exists_declText c.decl, hroute c.origin⟩
  | notFound | deferred => trivial

theorem reportVerdict_reported (t : SymbolTable) (strict : Bool) (associated : AssociatedScopes)
    (imports : List VisibleImport) (name : Name) (p : Point) (range : Range)
    (h : CanReport t (t.lookupAt strict associated imports name p)) :
    VerdictReported t imports p range (t.lookupAt strict associated imports name p)
      (t.reportVerdict range (t.lookupAt strict associated imports name p)) := by
  unfold reportVerdict
  unfold CanReport at h
  cases hv : (t.lookupAt strict associated imports name p).verdict with
  | notFound => exact .notFound hv ⟨rfl, rfl, rfl⟩ rfl rfl
  | deferred => exact .deferred hv
  | ambiguous origins =>
    rw [hv] at h
    have hdecls : ∀ d ∈ distinctDecls (t.lookupAt strict associated imports name p).candidates,
        ∃ text, t.DeclText d text := by
      intro d hd
      obtain ⟨c, hc, rfl⟩ := mem_distinctDecls.1 hd
      exact (h c hc).1
    have hroutes : ∀ o ∈ origins, ∃ text, RouteText t o text := by
      intro o ho
      rw [origins_of_ambiguous hv] at ho
      obtain ⟨c, hc, rfl⟩ := mem_distinctOrigins.1 ho
      exact (h c hc).2
    refine .ambiguous hv ⟨rfl, rfl, rfl⟩ (forall₂_map_right fun d hd => ?_) rfl rfl
      (forall₂_map_right fun d hd => declNote_notes (hdecls d hd) "candidate")
      (forall₂_map_right fun o ho => originNote_notes (hroutes o ho))
      ⟨nodup_eraseDups _, fun _ => mem_distinctDecls⟩ ?_
    · obtain ⟨text, htext⟩ := hdecls d hd
      rwa [htext.spellDecl]
    · rw [origins_of_ambiguous hv]
      exact ⟨nodup_eraseDups _, fun _ => mem_distinctOrigins⟩
  | unique x =>
    rw [hv] at h
    by_cases hhidden : (t.lookupAt strict associated imports name p).hidden = []
    · rw [hhidden]
      exact .unique hv hhidden
    · obtain ⟨hordinary, hfound, hothers⟩ := unique_of_hidden hv hhidden
      rw [List.isEmpty_eq_false_iff.2 hhidden]
      exact .hidden hv hhidden ⟨rfl, rfl, rfl⟩ rfl
        (forall₂_map_right fun c hc => declNote_notes (h c hc) "hidden candidate") hordinary hfound
        hothers

theorem ofImportFault_reported (range : Range) (fault : ImportFault) :
    FaultReported range fault (.ofImportFault range fault) := by
  cases fault with
  | instantiation f => exact ⟨.inl ⟨⟨rfl, rfl, rfl⟩, f, rfl⟩, rfl, rfl⟩
  | unresolved operand f => exact ⟨.inr ⟨⟨rfl, rfl, rfl⟩, fun _ h => by cases h⟩, rfl, rfl⟩
  | genericBody template => exact ⟨.inr ⟨⟨rfl, rfl, rfl⟩, fun _ h => by cases h⟩, rfl, rfl⟩

theorem faults_reported (range : Range) (faults : List (ImportId × ImportFault)) :
    List.Forall₂ (fun u d => FaultReported range u.2 d) faults
      (faults.map fun u => .ofImportFault range u.2) := by
  induction faults with
  | nil => exact .nil
  | cons u us ih => exact .cons (ofImportFault_reported range u.2) ih

end SymbolTable

/-! ## Errors -/

theorem Diagnostic.Marks.isError_iff {d : Diagnostic} {severity : Severity} {code : String}
    {range : Range} (h : d.Marks severity code range) :
    Report.hasErrors [d] = true ↔ severity = .error := by
  rw [← h.severity]
  simp [Report.hasErrors]

theorem Report.hasErrors_append (r s : Report) :
    Report.hasErrors (r ++ s) = true ↔ r.hasErrors = true ∨ s.hasErrors = true := by
  rw [hasErrors, List.any_append, Bool.or_eq_true]
  rfl

/-- A verdict calls for an error if the lookup came to nothing, or to more than one declaration. -/
theorem VerdictReported.hasErrors_iff {t : SymbolTable} {imports : List VisibleImport} {p : Point}
    {range : Range} {o : LookupOutcome} {r : Report} (h : VerdictReported t imports p range o r) :
    r.hasErrors = true ↔ o.result = .error (.notFound o.name) ∨
      ∃ origins, o.result = .error (.ambiguous o.name origins) := by
  unfold LookupOutcome.result
  cases h with
  | notFound hv hd _ _ => simp [hd.isError_iff, hv]
  | ambiguous hv hd => simp [hd.isError_iff, hv]
  | hidden hv _ hd => simp [hd.isError_iff, hv]
  | unique hv _ => simp [Report.hasErrors, hv]
  | deferred hv => simp [Report.hasErrors, hv]

theorem hasErrors_of_faults {range : Range} {faults : List (ImportId × ImportFault)} {r : Report}
    (h : List.Forall₂ (fun u d => FaultReported range u.2 d) faults r) :
    r.hasErrors = true ↔ faults ≠ [] := by
  cases h with
  | nil => simp [Report.hasErrors]
  | cons hd _ =>
    rcases hd.marks with ⟨hmarks, -⟩ | ⟨hmarks, -⟩ <;> simp [Report.hasErrors, hmarks.severity]

theorem filterMap_fault?_ne_nil {imports : List VisibleImport} :
    imports.filterMap (·.fault?) ≠ [] ↔ ∃ i ∈ imports, ∃ fault, i.contribution = .failed fault := by
  have hfault : ∀ i : VisibleImport, i.fault? ≠ none ↔ ∃ fault, i.contribution = .failed fault := by
    intro i
    unfold VisibleImport.fault?
    cases i.contribution <;> simp
  simp only [ne_eq, List.filterMap_eq_nil_iff, not_forall, exists_prop]
  exact exists_congr fun i => and_congr_right fun _ => hfault i

namespace SymbolTable

/-- The namespaces `N` and `M` have a variable `x` each. -/
def twoVariables : SymbolTable :=
  (new defaultInstantiationLimit)
    |>.withScope global "N" .nameSpace none
    |>.withDecl ⟨"x", .var, .scope ⟨1⟩, none, none⟩
    |>.withScope global "M" .nameSpace none
    |>.withDecl ⟨"x", .var, .scope ⟨2⟩, none, none⟩
    |>.addBlock (.scope global) |>.2

theorem twoVariables_grounded : twoVariables.Grounded :=
  ((((((Grounded.new _).withScope _ _ _ _).withDecl _).withScope _ _ _ _).withDecl _).change
    (.addBlock _ (by decide)))

end SymbolTable

end NameLookup
