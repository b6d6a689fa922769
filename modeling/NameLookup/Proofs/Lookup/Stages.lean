import NameLookup.Proofs.ExportListing
import NameLookup.Proofs.Lookup.StrictLabels

/-!
# The stages of a lookup

What the chain declares comes first. If there is any, fallback imports have no say: the candidates
and the verdict are those that would be without them, and their own declarations of the name are
hidden (`ordinary_silences_fallbacks`). If there is none, imports of both kinds count alike.

Associated scopes come last (`associated_lastResort`). They are asked where nothing was found, and
also at a strict case label where something was found and then dropped, since it is no enumerator of
the `switch` (`associated_despite_match`).
-/

set_option autoImplicit false

namespace NameLookup

open SymbolTable

/-- The chain declares the name, or an import in force supplies it. -/
def SymbolTable.Matched (t : SymbolTable) (imports : List VisibleImport) (name : Name) (p : Point) :
    Prop :=
  t.ordinaryAt name p ≠ [] ∨ ∃ c, Supplied imports name c

/-- The imports that are not fallbacks are the same, in the same order. -/
def SameUnconditional (imports imports' : List VisibleImport) : Prop :=
  imports'.filter (·.kind = .unconditional) = imports.filter (·.kind = .unconditional)

/-- What the import exports, if anything, was worked out on some table. -/
def VisibleImport.WorkedOut (i : VisibleImport) : Prop :=
  ∀ e, i.contribution = .ready e → ∃ (t : SymbolTable) (s : ScopeId) (kind : ScopeKind),
    t.Reachable ∧ e = t.exportsOf s kind

variable {imports imports' : List VisibleImport} {name : Name}

/-! ## What imports supply -/

theorem suppliedBy_congr {chosen : VisibleImport → Bool}
    (h : imports'.filter chosen = imports.filter chosen) :
    suppliedBy imports' name chosen = suppliedBy imports name chosen := by
  rw [suppliedBy, h, suppliedBy]

/-- Each import is of one of the two kinds. -/
theorem suppliedBy_kinds_perm (imports : List VisibleImport) (name : Name) :
    (suppliedBy imports name (·.kind = .fallback) ++
      suppliedBy imports name (·.kind = .unconditional)).Perm
      (imports.flatMap (·.candidates name)) := by
  have hkinds : imports.filter (fun i => i.kind = .unconditional) =
      imports.filter fun i => !decide (i.kind = .fallback) := by
    refine List.filter_congr fun i _ => ?_
    cases i.kind <;> rfl
  rw [suppliedBy, suppliedBy, ← List.flatMap_append, hkinds]
  exact (List.filter_append_perm _ imports).flatMap_right _

theorem supplied_iff {c : Candidate} :
    Supplied imports name c ↔ c ∈ imports.flatMap (·.candidates name) :=
  List.mem_flatMap.symm

theorem SuppliedByEnum.supplied {d : DeclId} (h : SuppliedByEnum imports name d) :
    ∃ c, Supplied imports name c := by
  obtain ⟨i, hi, -, e, he, -, hd⟩ := h
  exact ⟨⟨d, .imported i.id e.scope⟩, i, hi, mem_candidates_iff.2 ⟨e, he, rfl, hd⟩⟩

/-- An import lists each declaration once, so it supplies each candidate once. -/
theorem VisibleImport.WorkedOut.nodup {i : VisibleImport} (h : i.WorkedOut) (name : Name) :
    (i.candidates name).Nodup := by
  unfold candidates exports?
  cases hi : i.contribution with
  | pending | failed => exact .nil
  | ready e =>
    obtain ⟨t, s, kind, ht, rfl⟩ := h e hi
    refine List.Nodup.map (fun d d' heq => congrArg Candidate.decl heq) ?_
    rw [named_exportsOf]
    exact (ht.registered.nodup_exportsOf s kind).filter _

/-- Imports that list each declaration once supply a candidate as often as there are imports that
do. -/
theorem count_flatMap_candidates (h : ∀ i ∈ imports, i.WorkedOut) (c : Candidate) :
    (imports.flatMap (·.candidates name)).count c = imports.countP (c ∈ ·.candidates name) := by
  induction imports with
  | nil => rfl
  | cons i is ih =>
    obtain ⟨hi, his⟩ := List.forall_mem_cons.1 h
    rw [List.flatMap_cons, List.count_append, ih his, (hi.nodup name).count, List.countP_cons,
      Nat.add_comm]
    simp only [decide_eq_true_eq]

namespace SymbolTable

variable {t : SymbolTable} {p : Point} {strict : Bool} {associated : AssociatedScopes}

/-! ## What is found -/

theorem mergedAt_of_ordinary (h : t.ordinaryAt name p ≠ []) : t.mergedAt imports name p =
    t.ordinaryAt name p ++ suppliedBy imports name (·.kind = .unconditional) := by
  rw [mergedAt, if_neg (mt List.isEmpty_iff.1 h)]

theorem mergedAt_perm_supplied (h : t.ordinaryAt name p = []) :
    (t.mergedAt imports name p).Perm (imports.flatMap (·.candidates name)) := by
  rw [mergedAt, h]
  exact suppliedBy_kinds_perm imports name

theorem mergedAt_eq_nil_iff : t.mergedAt imports name p = [] ↔ ¬ t.Matched imports name p := by
  unfold Matched
  by_cases h : t.ordinaryAt name p = []
  · have hperm : (t.mergedAt imports name p).Perm (imports.flatMap (·.candidates name)) :=
      mergedAt_perm_supplied h
    constructor
    · rintro hnil (hord | ⟨c, hc⟩)
      · exact hord h
      · rw [hnil] at hperm
        exact List.not_mem_nil (hperm.symm.subset (supplied_iff.1 hc))
    · intro hnone
      refine List.eq_nil_iff_forall_not_mem.2 fun c hc => hnone (.inr ⟨c, ?_⟩)
      exact supplied_iff.2 (hperm.subset hc)
  · rw [mergedAt_of_ordinary h]
    simp [h]

theorem narrowTo_eq_nil_iff {enumerators cs : List Candidate} :
    narrowTo enumerators cs = [] ↔ enumerators = [] := by
  constructor
  · intro hnil
    refine List.eq_nil_iff_forall_not_mem.2 fun c hc => ?_
    have hmem : c ∈ narrowTo enumerators cs := mem_narrowTo_iff.2 (.inl hc)
    rw [hnil] at hmem
    exact List.not_mem_nil hmem
  · rintro rfl
    refine List.eq_nil_iff_forall_not_mem.2 fun c hc => ?_
    rcases mem_narrowTo_iff.1 hc with hc | ⟨-, e, he, -⟩
    · exact List.not_mem_nil hc
    · exact List.not_mem_nil he

theorem suppliedBy_enumFallback_eq_nil_iff :
    suppliedBy imports name (·.isEnumFallback) = [] ↔ ∀ d, ¬ SuppliedByEnum imports name d := by
  rw [List.eq_nil_iff_forall_not_mem]
  constructor
  · intro hnone d hd
    obtain ⟨c, hc, -⟩ := suppliedBy_enumFallback.2 hd
    exact hnone c hc
  · exact fun hnone c hc => hnone c.decl (suppliedBy_enumFallback.1 ⟨c, hc, rfl⟩)

/-- Nothing is found where nothing matched, and at a narrowed label where the enumerations lack the
name. -/
theorem foundAt_eq_nil_iff : t.foundAt strict imports name p = [] ↔
    ¬ t.Matched imports name p ∨
      isNarrowed strict imports p = true ∧ ∀ d, ¬ SuppliedByEnum imports name d := by
  unfold foundAt
  split
  · next hnarrow =>
    rw [narrowTo_eq_nil_iff, suppliedBy_enumFallback_eq_nil_iff]
    constructor
    · exact fun hnone => .inr ⟨hnarrow, hnone⟩
    · rintro (hnone | ⟨-, hnone⟩)
      · exact fun d hd => hnone (.inr hd.supplied)
      · exact hnone
  · next hnarrow =>
    rw [mergedAt_eq_nil_iff]
    exact (or_iff_left fun h => hnarrow h.1).symm

theorem origin_of_mem_foundAt {c : Candidate} (h : c ∈ t.foundAt strict imports name p) (s : ScopeId) :
    c.origin ≠ .associated s := by
  rcases mem_foundAt h with h | h
  · obtain ⟨i, -, e, -, horigin, -⟩ := h.exports
    rw [horigin]
    exact Origin.noConfusion
  · obtain ⟨-, o, horigin⟩ := mem_ordinaryCandidates h
    rw [horigin]
    exact Origin.noConfusion

/-! ## Fallback imports -/

theorem verdictAt_of_found (h : t.candidatesAt strict associated imports name p ≠ []) :
    t.verdictAt strict associated imports name p =
      .ofCandidates (t.candidatesAt strict associated imports name p) := by
  rw [verdictAt, List.isEmpty_eq_false_iff.2 h]
  rfl

theorem candidatesAt_of_ordinary (hnarrow : isNarrowed strict imports p = false)
    (h : t.ordinaryAt name p ≠ []) :
    t.candidatesAt strict associated imports name p =
      t.ordinaryAt name p ++ suppliedBy imports name (·.kind = .unconditional) := by
  have hfound : t.foundAt strict imports name p =
      t.ordinaryAt name p ++ suppliedBy imports name (·.kind = .unconditional) := by
    rw [foundAt, hnarrow]
    exact mergedAt_of_ordinary h
  rw [candidatesAt, hfound, List.isEmpty_eq_false_iff.2 (List.append_ne_nil_of_left_ne_nil h _)]
  rfl

theorem hiddenAt_of_ordinary (h : t.ordinaryAt name p ≠ []) :
    t.hiddenAt false imports name p = (suppliedBy imports name (·.kind = .fallback)).filter fun c =>
      c.decl ∉ (t.ordinaryAt name p).map (·.decl) := by
  rw [hiddenAt, List.isEmpty_eq_false_iff.2 h]
  refine List.filter_congr fun c _ => ?_
  rw [Bool.eq_iff_iff]
  simp

theorem candidatesAt_perm_supplied (h : t.ordinaryAt name p = [])
    (hsome : ∃ c, Supplied imports name c) :
    (t.candidatesAt false associated imports name p).Perm (imports.flatMap (·.candidates name)) := by
  have hfound : t.foundAt false imports name p = t.mergedAt imports name p := rfl
  have hmerged : t.mergedAt imports name p ≠ [] := fun hnil =>
    mergedAt_eq_nil_iff.1 hnil (.inr hsome)
  rw [candidatesAt, hfound, List.isEmpty_eq_false_iff.2 hmerged]
  exact mergedAt_perm_supplied h

/-- In lenient mode, a name that the chain declares has the candidates and the verdict that it would
have with any other fallback imports, be they known, pending or at fault; what the fallback imports
have under the name is hidden, in their order, unless it is one of the declarations that the chain
gives. A name that the chain does not declare has all that imports supply, of either kind, as often
as they supply it: each candidate once for each import that has it. -/
theorem ordinary_silences_fallbacks (t : SymbolTable) (associated : AssociatedScopes)
    (imports : List VisibleImport) (name : Name) (p : Point) :
    let o := t.lookupAt false associated imports name p
    (t.ordinaryAt name p ≠ [] →
      (∀ imports', SameUnconditional imports imports' →
        let o' := t.lookupAt false associated imports' name p
        o'.candidates = o.candidates ∧ o'.verdict = o.verdict) ∧
      o.hidden = (suppliedBy imports name (·.kind = .fallback)).filter fun c =>
        c.decl ∉ (t.ordinaryAt name p).map (·.decl)) ∧
    (t.ordinaryAt name p = [] →
      o.hidden = [] ∧
      ((∃ c, Supplied imports name c) → o.candidates.Perm (imports.flatMap (·.candidates name))) ∧
      ((∀ i ∈ imports, i.WorkedOut) → ∀ c, Supplied imports name c →
        o.candidates.count c = imports.countP (c ∈ ·.candidates name))) := by
  refine ⟨fun hordinary => ⟨fun imports' hsame => ?_, hiddenAt_of_ordinary hordinary⟩,
    fun hordinary => ⟨?_, candidatesAt_perm_supplied hordinary, fun hworked c hc => ?_⟩⟩
  · have hcandidates : t.candidatesAt false associated imports' name p =
        t.candidatesAt false associated imports name p := by
      rw [candidatesAt_of_ordinary rfl hordinary, candidatesAt_of_ordinary rfl hordinary,
        suppliedBy_congr hsame]
    have hfound : t.candidatesAt false associated imports name p ≠ [] := by
      rw [candidatesAt_of_ordinary rfl hordinary]
      exact List.append_ne_nil_of_left_ne_nil hordinary _
    refine ⟨hcandidates, ?_⟩
    change t.verdictAt false associated imports' name p = t.verdictAt false associated imports name p
    rw [verdictAt_of_found hfound, verdictAt_of_found (hcandidates ▸ hfound), hcandidates]
  · change t.hiddenAt false imports name p = []
    rw [hiddenAt, hordinary]
    rfl
  · exact ((candidatesAt_perm_supplied hordinary ⟨c, hc⟩).count_eq c).trans
      (count_flatMap_candidates hworked c)

/-- Enumerations `Color`, with `red`, and `Shade`, with `limit` and `red`; a namespace `N` that has
both names; and a global `limit`. -/
def paintShop : SymbolTable :=
  (new defaultInstantiationLimit)
    |>.withScope global "Color" .enumType none
    |>.withDecl ⟨"red", .enumerator, .scope ⟨1⟩, some (.scope ⟨1⟩), none⟩
    |>.withScope global "Shade" .enumType none
    |>.withDecl ⟨"limit", .enumerator, .scope ⟨2⟩, some (.scope ⟨2⟩), none⟩
    |>.withDecl ⟨"red", .enumerator, .scope ⟨2⟩, some (.scope ⟨2⟩), none⟩
    |>.withScope global "N" .nameSpace none
    |>.withDecl ⟨"red", .var, .scope ⟨3⟩, none, none⟩
    |>.withDecl ⟨"limit", .var, .scope ⟨3⟩, none, none⟩
    |>.withDecl ⟨"limit", .var, .scope global, none, none⟩
    |>.addBlock (.scope global) |>.2

theorem paintShop_reachable : paintShop.Reachable :=
  ((((((((((Reachable.new _).withScope _ _ _ _).withDecl _).withScope _ _ _ _).withDecl _).withDecl
    _).withScope _ _ _ _).withDecl _).withDecl _).withDecl _).change (.addBlock _)

/-- A label of the `switch` whose body is the block. -/
def paintLabel : Point := ⟨⟨⟨0⟩, 7⟩, ⟨0⟩, .caseLabel ⟨0⟩⟩

/-- A `using` directive for `N`. -/
def importOfN : VisibleImport := ⟨⟨1⟩, .unconditional, .ready (paintShop.exportsOf ⟨3⟩ .nameSpace)⟩

/-- A `switch` over `Shade`, the `using` directive, and a `switch` that waits. -/
def shadeImports : List VisibleImport :=
  [⟨⟨0⟩, .fallback, .ready (paintShop.exportsOf ⟨2⟩ .enumType)⟩, importOfN, ⟨⟨2⟩, .fallback, .pending⟩]

/-- `limit` comes to the same without the `switch`es, and hides the enumerator; `red` is found by the
`switch` and by the directive. -/
theorem ordinary_silences_fallbacks_of_limit :
    let o := paintShop.lookupAt false (fun _ _ => []) shadeImports "limit" paintLabel
    let o' := paintShop.lookupAt false (fun _ _ => []) [importOfN] "limit" paintLabel
    let o'' := paintShop.lookupAt false (fun _ _ => []) shadeImports "red" paintLabel
    paintShop.ordinaryAt "limit" paintLabel = [⟨⟨8⟩, .ordinary (.scope global)⟩] ∧
      o'.candidates = o.candidates ∧ o'.verdict = o.verdict ∧
      o.hidden = [⟨⟨3⟩, .imported ⟨0⟩ ⟨2⟩⟩] ∧ paintShop.ordinaryAt "red" paintLabel = [] ∧
      o''.candidates.count ⟨⟨4⟩, .imported ⟨0⟩ ⟨2⟩⟩ = 1 ∧
      o''.candidates.count ⟨⟨6⟩, .imported ⟨1⟩ ⟨3⟩⟩ = 1 := by
  have hlimit : paintShop.ordinaryAt "limit" paintLabel = [⟨⟨8⟩, .ordinary (.scope global)⟩] := by rfl
  have hred : paintShop.ordinaryAt "red" paintLabel = [] := by rfl
  have hworked : ∀ i ∈ shadeImports, i.WorkedOut := by
    refine List.forall_mem_cons.2 ⟨fun e he => ?_, List.forall_mem_cons.2 ⟨fun e he => ?_,
      List.forall_mem_singleton.2 fun e he => ?_⟩⟩
    · cases he
      exact ⟨paintShop, ⟨2⟩, .enumType, paintShop_reachable, rfl⟩
    · cases he
      exact ⟨paintShop, ⟨3⟩, .nameSpace, paintShop_reachable, rfl⟩
    · cases he
  have hsupplied : shadeImports.flatMap (·.candidates "red") =
      [⟨⟨4⟩, .imported ⟨0⟩ ⟨2⟩⟩, ⟨⟨6⟩, .imported ⟨1⟩ ⟨3⟩⟩] := by rfl
  have hsame : SameUnconditional shadeImports [importOfN] := rfl
  obtain ⟨hdeclared, -⟩ :=
    ordinary_silences_fallbacks paintShop (fun _ _ => []) shadeImports "limit" paintLabel
  obtain ⟨-, hundeclared⟩ :=
    ordinary_silences_fallbacks paintShop (fun _ _ => []) shadeImports "red" paintLabel
  obtain ⟨hothers, hhidden⟩ := hdeclared (hlimit ▸ List.cons_ne_nil _ _)
  obtain ⟨-, -, hcount⟩ := hundeclared hred
  obtain ⟨hcandidates, hverdict⟩ := hothers [importOfN] hsame
  refine ⟨hlimit, hcandidates, hverdict, hhidden.trans rfl, hred, ?_, ?_⟩
  · refine (hcount hworked _ (supplied_iff.2 ?_)).trans (by rfl)
    rw [hsupplied]
    exact List.mem_cons_self
  · refine (hcount hworked _ (supplied_iff.2 ?_)).trans (by rfl)
    rw [hsupplied]
    exact List.mem_cons_of_mem _ List.mem_cons_self

/-! ## Associated scopes -/

/-- Where something matched, no candidate comes from associated scopes, except at a narrowed label
for a name that the enumerations lack. There, and where nothing matched, the candidates are all that
the associated scopes have. -/
theorem associated_lastResort (t : SymbolTable) (strict : Bool) (associated : AssociatedScopes)
    (imports : List VisibleImport) (name : Name) (p : Point) :
    let o := t.lookupAt strict associated imports name p
    (t.Matched imports name p →
      (isNarrowed strict imports p = true → ∃ d, SuppliedByEnum imports name d) →
      ∀ c ∈ o.candidates, ∀ s, c.origin ≠ .associated s) ∧
    (¬ t.Matched imports name p ∨
        isNarrowed strict imports p = true ∧ (∀ d, ¬ SuppliedByEnum imports name d) →
      o.candidates = (associated name p).flatMap (t.associatedCandidates name)) := by
  refine ⟨fun hmatched henum c hc s => ?_, fun hnone => ?_⟩
  · have hfound : t.foundAt strict imports name p ≠ [] := by
      intro hnil
      rcases foundAt_eq_nil_iff.1 hnil with hnot | ⟨hnarrow, hnone⟩
      · exact hnot hmatched
      · obtain ⟨d, hd⟩ := henum hnarrow
        exact hnone d hd
    change c ∈ t.candidatesAt strict associated imports name p at hc
    rw [candidatesAt, if_neg (mt List.isEmpty_iff.1 hfound)] at hc
    exact origin_of_mem_foundAt hc s
  · change t.candidatesAt strict associated imports name p = _
    rw [candidatesAt, foundAt_eq_nil_iff.2 hnone]
    rfl

/-- A `switch` over `Color`. -/
def colorImports : List VisibleImport :=
  [⟨⟨0⟩, .fallback, .ready (paintShop.exportsOf ⟨1⟩ .enumType)⟩]

/-- At a strict label the enumerator `red` keeps the `red` of the associated scope `N` out; for
`limit`, which `Color` lacks, `N` is asked. -/
theorem associated_lastResort_of_red :
    paintShop.Matched colorImports "red" paintLabel ∧
      (∀ c ∈ (paintShop.lookupAt true (fun _ _ => [⟨3⟩]) colorImports "red" paintLabel).candidates,
        ∀ s, c.origin ≠ .associated s) ∧
      (paintShop.lookupAt true (fun _ _ => [⟨3⟩]) colorImports "limit" paintLabel).candidates =
        [⟨⟨7⟩, .associated ⟨3⟩⟩] := by
  have hred : SuppliedByEnum colorImports "red" ⟨1⟩ :=
    suppliedBy_enumFallback.1 ⟨⟨⟨1⟩, .imported ⟨0⟩ ⟨1⟩⟩, List.mem_singleton_self _, rfl⟩
  have hmatched : paintShop.Matched colorImports "red" paintLabel := .inr hred.supplied
  obtain ⟨hkept, -⟩ := associated_lastResort paintShop true (fun _ _ => [⟨3⟩]) colorImports "red"
    paintLabel
  obtain ⟨-, hasked⟩ := associated_lastResort paintShop true (fun _ _ => [⟨3⟩]) colorImports "limit"
    paintLabel
  refine ⟨hmatched, hkept hmatched fun _ => ⟨_, hred⟩, (hasked (.inr ⟨rfl, ?_⟩)).trans (by rfl)⟩
  exact suppliedBy_enumFallback_eq_nil_iff.1 rfl

/-- Associated scopes are not only asked where nothing matched: a strict label `limit` comes to the
`limit` of the associated scope `N`, although the global namespace declares the name. -/
theorem associated_despite_match :
    ¬ ∀ (t : SymbolTable) (strict : Bool) (associated : AssociatedScopes)
        (imports : List VisibleImport) (name : Name) (p : Point), t.Reachable →
      t.Matched imports name p →
      ∀ c ∈ (t.lookupAt strict associated imports name p).candidates, ∀ s, c.origin ≠ .associated s := by
  intro hall
  have hordinary : paintShop.ordinaryAt "limit" paintLabel = [⟨⟨8⟩, .ordinary (.scope global)⟩] := by
    rfl
  have hlookup :
      (paintShop.lookupAt true (fun _ _ => [⟨3⟩]) colorImports "limit" paintLabel).candidates =
        [⟨⟨7⟩, .associated ⟨3⟩⟩] := by rfl
  have hmatched : paintShop.Matched colorImports "limit" paintLabel :=
    .inl (hordinary ▸ List.cons_ne_nil _ _)
  refine hall paintShop true (fun _ _ => [⟨3⟩]) colorImports "limit" paintLabel paintShop_reachable
    hmatched ⟨⟨7⟩, .associated ⟨3⟩⟩ ?_ ⟨3⟩ rfl
  rw [hlookup]
  exact List.mem_singleton_self _

end SymbolTable

end NameLookup
