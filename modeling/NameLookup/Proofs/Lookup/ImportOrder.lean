import NameLookup.Proofs.Lookup.Stages

/-!
# The order of the imports

In whatever order the imports in force are listed, a lookup comes to the same: the same verdict, up
to the order of the routes of an ambiguity, and the same lists, each up to its order
(`import_order_irrelevant`). No stage prefers an earlier import. Narrowing adds an enumerator only if
it is missing, so how often it lists one depends on how often that was found, and not on where it
stands (`count_addMissing`).
-/

set_option autoImplicit false

namespace NameLookup

/-- The verdicts are the same but for the order of the routes, none of which is listed twice. -/
inductive Verdict.Agrees : Verdict → Verdict → Prop
  | unique (d : DeclId) : Agrees (.unique d) (.unique d)
  | ambiguous {os os' : List Origin} (hos : os.Nodup) (hos' : os'.Nodup) (h : os.Perm os') :
      Agrees (.ambiguous os) (.ambiguous os')
  | notFound : Agrees .notFound .notFound
  | deferred : Agrees .deferred .deferred

/-- The outcomes are the same but for the order of their lists. -/
structure LookupOutcome.SameUpToOrder (o o' : LookupOutcome) : Prop where
  candidates : o.candidates.Perm o'.candidates
  hidden : o.hidden.Perm o'.hidden
  unresolved : o.unresolved.Perm o'.unresolved
  verdict : o.verdict.Agrees o'.verdict

theorem eraseDups_perm {α : Type} [DecidableEq α] {xs ys : List α} (h : xs.Perm ys) :
    xs.eraseDups.Perm ys.eraseDups := by
  refine (List.perm_ext_iff_of_nodup (nodup_eraseDups xs) (nodup_eraseDups ys)).2 fun a => ?_
  rw [List.mem_eraseDups, List.mem_eraseDups, h.mem_iff]

/-- The verdict on candidates does not depend on their order. -/
theorem Verdict.ofCandidates_agrees {cs cs' : List Candidate} (h : cs.Perm cs') :
    (ofCandidates cs).Agrees (ofCandidates cs') := by
  have hdecls : (distinctDecls cs).Perm (distinctDecls cs') := eraseDups_perm (h.map _)
  have horigins : (distinctOrigins cs).Perm (distinctOrigins cs') := eraseDups_perm (h.map _)
  unfold ofCandidates
  rcases hds : distinctDecls cs with _ | ⟨d, _ | ⟨d₁, ds⟩⟩ <;> rw [hds] at hdecls
  · rw [← hdecls.nil_eq]
    exact .notFound
  · rw [← hdecls.singleton_eq]
    exact .unique d
  · rcases hds' : distinctDecls cs' with _ | ⟨d', _ | ⟨d₁', ds'⟩⟩ <;> rw [hds'] at hdecls
    · cases hdecls.eq_nil
    · cases hdecls.eq_singleton
    · exact .ambiguous (nodup_eraseDups _) (nodup_eraseDups _) horigins

/-! ## Narrowing -/

section
variable {enumerators enumerators' cs cs' : List Candidate}

/-- Adding those of `es` that are missing lists each new one once and the others as before. -/
theorem count_addMissing (es kept : List Candidate) (c : Candidate) :
    (es.foldl (fun kept c => if c ∈ kept then kept else kept ++ [c]) kept).count c =
      if c ∈ kept then kept.count c else if c ∈ es then 1 else 0 := by
  induction es generalizing kept with
  | nil =>
    split
    · rfl
    · next hnew => exact List.count_eq_zero_of_not_mem hnew
  | cons e es ih =>
    rw [List.foldl_cons, ih]
    by_cases he : e ∈ kept
    · rw [if_pos he]
      by_cases hc : c ∈ kept
      · rw [if_pos hc, if_pos hc]
      · have hne : c ≠ e := fun heq => hc (heq ▸ he)
        simp [hc, hne]
    · rw [if_neg he]
      by_cases heq : c = e
      · subst heq
        simp [he, List.count_eq_zero_of_not_mem he]
      · by_cases hc : c ∈ kept <;> simp [hc, heq, Ne.symm heq]

theorem narrowTo_perm (he : enumerators.Perm enumerators') (hc : cs.Perm cs') :
    (narrowTo enumerators cs).Perm (narrowTo enumerators' cs') := by
  have hkept : (cs.filter fun c => enumerators.any (·.decl = c.decl)).Perm
      (cs'.filter fun c => enumerators'.any (·.decl = c.decl)) := by
    rw [funext fun c : Candidate => he.any_eq]
    exact hc.filter _
  refine List.perm_iff_count.2 fun c => ?_
  rw [narrowTo, narrowTo, count_addMissing, count_addMissing, hkept.count_eq]
  simp only [hkept.mem_iff, he.mem_iff]

end

/-! ## The stages -/

namespace SymbolTable

variable {imports imports' : List VisibleImport}

section
variable (h : imports.Perm imports')
include h

theorem suppliedBy_perm (name : Name) (chosen : VisibleImport → Bool) :
    (suppliedBy imports name chosen).Perm (suppliedBy imports' name chosen) :=
  (h.filter chosen).flatMap_right _

theorem isNarrowed_of_perm (strict : Bool) (p : Point) :
    isNarrowed strict imports' p = isNarrowed strict imports p := by
  rw [isNarrowed, isNarrowed, h.any_eq]

variable (t : SymbolTable) (strict : Bool) (associated : AssociatedScopes) (name : Name) (p : Point)

theorem foundAt_perm : (t.foundAt strict imports name p).Perm (t.foundAt strict imports' name p) := by
  have hmerged : (t.mergedAt imports name p).Perm (t.mergedAt imports' name p) := by
    unfold mergedAt
    split
    · exact (suppliedBy_perm h name _).append (suppliedBy_perm h name _)
    · exact (List.Perm.refl _).append (suppliedBy_perm h name _)
  rw [foundAt, foundAt, isNarrowed_of_perm h]
  split
  · exact narrowTo_perm (suppliedBy_perm h name _) hmerged
  · exact hmerged

theorem candidatesAt_perm : (t.candidatesAt strict associated imports name p).Perm
    (t.candidatesAt strict associated imports' name p) := by
  have hfound := foundAt_perm h t strict name p
  rw [candidatesAt, candidatesAt, hfound.isEmpty_eq]
  split
  · exact .refl _
  · exact hfound

theorem hiddenAt_perm :
    (t.hiddenAt strict imports name p).Perm (t.hiddenAt strict imports' name p) := by
  rw [hiddenAt, hiddenAt, isNarrowed_of_perm h]
  split
  · exact .refl _
  · exact (suppliedBy_perm h name _).filter _

theorem verdictAt_agrees : (t.verdictAt strict associated imports name p).Agrees
    (t.verdictAt strict associated imports' name p) := by
  have hcandidates := candidatesAt_perm h t strict associated name p
  rw [verdictAt, verdictAt, hcandidates.isEmpty_eq, h.any_eq]
  split
  · exact .deferred
  · exact Verdict.ofCandidates_agrees hcandidates

end

/-- A lookup comes to the same in whatever order the imports are listed, up to the order of its
lists and of the routes of an ambiguity. -/
theorem import_order_irrelevant (t : SymbolTable) (strict : Bool)
    (associated : AssociatedScopes) (h : imports.Perm imports') (name : Name) (p : Point) :
    (t.lookupAt strict associated imports name p).SameUpToOrder
      (t.lookupAt strict associated imports' name p) where
  candidates := candidatesAt_perm h t strict associated name p
  hidden := hiddenAt_perm h t strict name p
  unresolved := h.filterMap _
  verdict := verdictAt_agrees h t strict associated name p

/-- `switch`es over `Color` and over `Shade`, one at fault, and a `using` directive for `N`. -/
def redImportsOfShop : List VisibleImport :=
  [⟨⟨0⟩, .fallback, .ready (paintShop.exportsOf ⟨1⟩ .enumType)⟩, importOfN,
    ⟨⟨2⟩, .fallback, .ready (paintShop.exportsOf ⟨2⟩ .enumType)⟩,
    ⟨⟨3⟩, .fallback, .failed (.genericBody "Palette")⟩]

/-- A strict label `red` is ambiguous between the two enumerations, whichever is listed first. -/
theorem import_order_irrelevant_of_red :
    let o := paintShop.lookupAt true (fun _ _ => []) redImportsOfShop "red" paintLabel
    let o' := paintShop.lookupAt true (fun _ _ => []) redImportsOfShop.reverse "red" paintLabel
    o.SameUpToOrder o' ∧
      o.verdict = .ambiguous [.imported ⟨0⟩ ⟨1⟩, .imported ⟨2⟩ ⟨2⟩] ∧
      o'.verdict = .ambiguous [.imported ⟨2⟩ ⟨2⟩, .imported ⟨0⟩ ⟨1⟩] ∧
      o.unresolved = [(⟨3⟩, .genericBody "Palette")] :=
  ⟨import_order_irrelevant paintShop true (fun _ _ => []) (List.reverse_perm _).symm "red" paintLabel,
    by rfl, by rfl, by rfl⟩

end SymbolTable

end NameLookup
