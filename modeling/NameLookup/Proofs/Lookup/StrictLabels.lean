import NameLookup.Proofs.Lookup

/-!
# Case labels in strict mode

At a case label of a `switch` over an enumeration, a strict lookup comes to the enumerators of that
name and to nothing else (`strict_label`): they are the declarations that are found, none is hidden,
and the verdict is the one that they alone give. So two lookups agree, up to the routes of an
ambiguity, whenever the enumerations have the same declarations under the name, whatever the scope
chain declares and other imports supply.
-/

set_option autoImplicit false

namespace NameLookup

/-- A fallback import of an enumeration supplies the declaration under the name. -/
def SuppliedByEnum (imports : List VisibleImport) (name : Name) (d : DeclId) : Prop :=
  ∃ i ∈ imports, i.kind = .fallback ∧
    ∃ e, i.contribution = .ready e ∧ e.kind = .enumType ∧ d ∈ e.members.named name

/-- One of the imports waits for template arguments. -/
def AnyPending (imports : List VisibleImport) : Prop := ∃ i ∈ imports, i.contribution = .pending

namespace Verdict

/-- The verdict that the declarations in `P` give by themselves, by whatever routes they are found;
if `waiting`, some may still come. -/
def Fits (P : DeclId → Prop) (waiting : Prop) : Verdict → Prop
  | unique d => P d ∧ ∀ d', P d' → d' = d
  | ambiguous _ => ∃ d d', P d ∧ P d' ∧ d ≠ d'
  | notFound => (∀ d, ¬ P d) ∧ ¬ waiting
  | deferred => (∀ d, ¬ P d) ∧ waiting

/-- The verdicts are the same but for the routes of an ambiguity. -/
inductive SameButRoutes : Verdict → Verdict → Prop
  | refl (v : Verdict) : SameButRoutes v v
  | ambiguous (os os' : List Origin) : SameButRoutes (.ambiguous os) (.ambiguous os')

variable {P : DeclId → Prop} {waiting : Prop} {v v' : Verdict}

/-- There is one verdict that fits, but for its routes. -/
theorem Fits.sameButRoutes (h : v.Fits P waiting) (h' : v'.Fits P waiting) : v.SameButRoutes v' := by
  cases v with
  | unique d =>
    obtain ⟨hd, hall⟩ := h
    cases v' with
    | unique d' =>
      obtain rfl : d' = d := hall d' h'.1
      exact .refl _
    | ambiguous os =>
      obtain ⟨x, y, hx, hy, hne⟩ := h'
      exact absurd ((hall x hx).trans (hall y hy).symm) hne
    | notFound | deferred => exact absurd hd (h'.1 d)
  | ambiguous os =>
    obtain ⟨x, y, hx, hy, hne⟩ := h
    cases v' with
    | unique d => exact absurd ((h'.2 x hx).trans (h'.2 y hy).symm) hne
    | ambiguous os' => exact .ambiguous os os'
    | notFound | deferred => exact absurd hx (h'.1 x)
  | notFound =>
    cases v' with
    | unique d => exact absurd h'.1 (h.1 d)
    | ambiguous os =>
      obtain ⟨x, -, hx, -⟩ := h'
      exact absurd hx (h.1 x)
    | notFound => exact .refl _
    | deferred => exact absurd h'.2 h.2
  | deferred =>
    cases v' with
    | unique d => exact absurd h'.1 (h.1 d)
    | ambiguous os =>
      obtain ⟨x, -, hx, -⟩ := h'
      exact absurd hx (h.1 x)
    | notFound => exact absurd h.2 h'.2
    | deferred => exact .refl _

end Verdict

theorem mem_distinctDecls {cs : List Candidate} {d : DeclId} :
    d ∈ distinctDecls cs ↔ ∃ c ∈ cs, c.decl = d := by
  rw [distinctDecls, List.mem_eraseDups, List.mem_map]

theorem nodup_eraseDups {α : Type} [DecidableEq α] (xs : List α) : xs.eraseDups.Nodup := by
  cases xs with
  | nil => exact .nil
  | cons x xs =>
    rw [List.eraseDups_cons, List.nodup_cons, List.mem_eraseDups]
    exact ⟨by simp, nodup_eraseDups _⟩
termination_by xs.length
decreasing_by exact Nat.lt_succ_of_le (List.length_filter_le _ _)

theorem Verdict.fits_ofCandidates {P : DeclId → Prop} {cs : List Candidate}
    (hP : ∀ d, (∃ c ∈ cs, c.decl = d) ↔ P d) {waiting : Prop} (hnot : cs = [] → ¬ waiting) :
    (ofCandidates cs).Fits P waiting := by
  have hmem : ∀ d, d ∈ distinctDecls cs ↔ P d := fun d => mem_distinctDecls.trans (hP d)
  have hnodup : (distinctDecls cs).Nodup := nodup_eraseDups _
  unfold ofCandidates
  rcases hds : distinctDecls cs with _ | ⟨d, _ | ⟨d', ds⟩⟩ <;> rw [hds] at hmem hnodup
  · refine ⟨fun d hd => List.not_mem_nil ((hmem d).2 hd), hnot ?_⟩
    cases cs with
    | nil => rfl
    | cons c cs => exact absurd ((hmem _).2 ((hP _).1 ⟨c, List.mem_cons_self, rfl⟩)) List.not_mem_nil
  · exact ⟨(hmem d).1 List.mem_cons_self, fun x hx => List.mem_singleton.1 ((hmem x).2 hx)⟩
  · refine ⟨d, d', (hmem d).1 List.mem_cons_self,
      (hmem d').1 (List.mem_cons_of_mem d List.mem_cons_self), ?_⟩
    rintro rfl
    exact (List.nodup_cons.1 hnodup).1 List.mem_cons_self

/-! ## Enumerators -/

theorem VisibleImport.isEnumFallback_iff {i : VisibleImport} :
    i.isEnumFallback = true ↔
      i.kind = .fallback ∧ ∃ e, i.contribution = .ready e ∧ e.kind = .enumType := by
  unfold isEnumFallback exports?
  cases i.contribution <;> simp

namespace SymbolTable

variable {t : SymbolTable} {imports : List VisibleImport} {name : Name} {p : Point} {d : DeclId}

theorem suppliedBy_enumFallback :
    (∃ c ∈ suppliedBy imports name (·.isEnumFallback), c.decl = d) ↔
      SuppliedByEnum imports name d := by
  constructor
  · rintro ⟨c, hc, rfl⟩
    obtain ⟨i, hi, hc⟩ := List.mem_flatMap.1 hc
    obtain ⟨hi, henum⟩ := List.mem_filter.1 hi
    obtain ⟨hkind, e, he, hek⟩ := VisibleImport.isEnumFallback_iff.1 henum
    obtain ⟨e', he', -, hd⟩ := mem_candidates_iff.1 hc
    cases he.symm.trans he'
    exact ⟨i, hi, hkind, e, he, hek, hd⟩
  · rintro ⟨i, hi, hkind, e, he, hek, hd⟩
    have henum := VisibleImport.isEnumFallback_iff.2 ⟨hkind, e, he, hek⟩
    exact ⟨⟨d, .imported i.id e.scope⟩, List.mem_flatMap.2 ⟨i, List.mem_filter.2 ⟨hi, henum⟩,
      mem_candidates_iff.2 ⟨e, he, rfl, hd⟩⟩, rfl⟩

theorem candidatesAt_unassociated (strict : Bool) :
    t.candidatesAt strict (fun _ _ => []) imports name p = t.foundAt strict imports name p := by
  unfold candidatesAt
  split
  · next hempty => exact (List.isEmpty_iff.1 hempty).symm
  · rfl

section
variable (hlabel : p.isCaseLabel = true) (henum : imports.any (·.isEnumFallback) = true)
include hlabel henum

theorem isNarrowed_strict : isNarrowed true imports p = true := by
  rw [isNarrowed, hlabel, henum]
  rfl

/-- The declarations found are the enumerators: no other candidate is kept, and each enumerator is
found, if not by another route then by its own. -/
theorem candidatesAt_strict :
    (∃ c ∈ t.candidatesAt true (fun _ _ => []) imports name p, c.decl = d) ↔
      SuppliedByEnum imports name d := by
  rw [← suppliedBy_enumFallback, candidatesAt_unassociated, foundAt,
    if_pos (isNarrowed_strict hlabel henum)]
  constructor
  · rintro ⟨c, hc, rfl⟩
    rcases mem_narrowTo_iff.1 hc with hc | ⟨-, hc⟩
    · exact ⟨c, hc, rfl⟩
    · exact hc
  · rintro ⟨c, hc, hd⟩
    exact ⟨c, mem_narrowTo_iff.2 (.inl hc), hd⟩

theorem hiddenAt_strict : t.hiddenAt true imports name p = [] := by
  rw [hiddenAt, isNarrowed_strict hlabel henum, Bool.or_true, if_pos rfl]

theorem verdictAt_strict :
    (t.verdictAt true (fun _ _ => []) imports name p).Fits (SuppliedByEnum imports name)
      (AnyPending imports) := by
  have hfound : ∀ d, (∃ c ∈ t.candidatesAt true (fun _ _ => []) imports name p, c.decl = d) ↔
      SuppliedByEnum imports name d := fun d => candidatesAt_strict hlabel henum
  have hpending : imports.any (·.contribution = .pending) = true ↔ AnyPending imports := by
    simp [AnyPending]
  unfold verdictAt
  split
  · next hwait =>
    obtain ⟨hempty, hany⟩ := Bool.and_eq_true_iff.1 hwait
    refine ⟨fun d hd => ?_, hpending.1 hany⟩
    obtain ⟨c, hc, -⟩ := (hfound d).2 hd
    rw [List.isEmpty_iff.1 hempty] at hc
    exact List.not_mem_nil hc
  · next hwait =>
    refine Verdict.fits_ofCandidates hfound fun hnone hany => hwait ?_
    rw [hnone, hpending.2 hany]
    rfl

end

/-- At a case label of a `switch` over an enumeration, in strict mode and without associated scopes,
the declarations found are just those that the enumerations have under the name; none is hidden; and
the verdict is the one that these give, or that one has to wait if there is none and some import is
pending. So it is the same, up to the routes of an ambiguity, in another table, at another label and
beside other imports, if the enumerations have the same declarations under the name. -/
theorem strict_label (t : SymbolTable) (name : Name) (hlabel : p.isCaseLabel = true)
    (henum : imports.any (·.isEnumFallback) = true) :
    let o := t.lookupAt true (fun _ _ => []) imports name p
    (∀ d, (∃ c ∈ o.candidates, c.decl = d) ↔ SuppliedByEnum imports name d) ∧ o.hidden = [] ∧
      o.verdict.Fits (SuppliedByEnum imports name) (AnyPending imports) ∧
      ∀ (t' : SymbolTable) (imports' : List VisibleImport) (p' : Point), p'.isCaseLabel = true →
        imports'.any (·.isEnumFallback) = true →
        (∀ d, SuppliedByEnum imports' name d ↔ SuppliedByEnum imports name d) →
        (AnyPending imports' ↔ AnyPending imports) →
        (t'.lookupAt true (fun _ _ => []) imports' name p').verdict.SameButRoutes o.verdict := by
  refine ⟨fun d => candidatesAt_strict hlabel henum, hiddenAt_strict hlabel henum,
    verdictAt_strict hlabel henum, fun t' imports' p' hlabel' henum' hsame hpending => ?_⟩
  have hfits : (t'.verdictAt true (fun _ _ => []) imports' name p').Fits
      (SuppliedByEnum imports' name) (AnyPending imports') := verdictAt_strict hlabel' henum'
  rw [funext fun d => propext (hsame d), propext hpending] at hfits
  exact hfits.sameButRoutes (verdictAt_strict hlabel henum)

/-- The enumeration `Color` has `red`, and so have the namespace `N` and the global one. -/
def paintedRed : SymbolTable :=
  (new defaultInstantiationLimit)
    |>.withScope global "Color" .enumType none
    |>.withDecl ⟨"red", .enumerator, .scope ⟨1⟩, some (.scope ⟨1⟩), none⟩
    |>.withScope global "N" .nameSpace none
    |>.withDecl ⟨"red", .var, .scope ⟨2⟩, none, none⟩
    |>.withDecl ⟨"red", .var, .scope global, none, none⟩
    |>.addBlock (.scope global) |>.2

/-- A `switch` over `Color`, a `using` directive for `N`, and an import that waits. -/
def redImports : List VisibleImport :=
  [⟨⟨0⟩, .fallback, .ready (paintedRed.exportsOf ⟨1⟩ .enumType)⟩,
    ⟨⟨1⟩, .unconditional, .ready (paintedRed.exportsOf ⟨2⟩ .nameSpace)⟩, ⟨⟨2⟩, .fallback, .pending⟩]

/-- A label of the `switch`. -/
def redLabel : Point := ⟨⟨⟨0⟩, 5⟩, ⟨0⟩, .caseLabel ⟨0⟩⟩

/-- The label `red` is the enumerator, although two other declarations of `red` are in view, which
make it ambiguous when case labels are lenient. -/
theorem strict_label_red :
    (∀ d, (∃ c ∈ (paintedRed.lookupAt true (fun _ _ => []) redImports "red" redLabel).candidates,
        c.decl = d) ↔ d = ⟨1⟩) ∧
      (paintedRed.lookupAt true (fun _ _ => []) redImports "red" redLabel).verdict = .unique ⟨1⟩ ∧
      (paintedRed.lookupAt false (fun _ _ => []) redImports "red" redLabel).verdict.isAmbiguous := by
  have hlabel : redLabel.isCaseLabel = true := rfl
  have henum : redImports.any (·.isEnumFallback) = true := rfl
  obtain ⟨hfound, -, hfits, -⟩ := strict_label paintedRed "red" hlabel henum
  have hred : ∀ d, SuppliedByEnum redImports "red" d ↔ d = ⟨1⟩ := fun d => by
    have hsupplied : suppliedBy redImports "red" (·.isEnumFallback) =
        [⟨⟨1⟩, .imported ⟨0⟩ ⟨1⟩⟩] := rfl
    rw [← suppliedBy_enumFallback, hsupplied]
    simp [eq_comm]
  refine ⟨fun d => (hfound d).trans (hred d), ?_, rfl⟩
  cases hv : (paintedRed.lookupAt true (fun _ _ => []) redImports "red" redLabel).verdict with
  | unique d => rw [(hred d).1 (hv ▸ hfits).1]
  | ambiguous os =>
    obtain ⟨d, d', hd, hd', hne⟩ := hv ▸ hfits
    exact absurd (((hred d).1 hd).trans ((hred d').1 hd').symm) hne
  | notFound | deferred => exact absurd rfl (mt (hred ⟨1⟩).2 ((hv ▸ hfits).1 ⟨1⟩))

end SymbolTable

end NameLookup
