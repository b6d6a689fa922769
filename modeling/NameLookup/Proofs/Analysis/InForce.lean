import NameLookup.Proofs.Analysis.Detour
import NameLookup.Proofs.Analysis.Stored

/-!
# Imports stay within their extent

Whatever a lookup says of an import, the import is open and in force at the point, and the
declarations that it supplies have the name that was looked up (`lookup_inForce`). The first is
because only imports in force are asked (`visibleAmong_supplied`), the second because all exports
that an analysis keeps are rightly named.
-/

set_option autoImplicit false

namespace NameLookup.Analysis

variable {P : SymbolTable → Target → Exports → Prop} {a b : Analysis}

/-- What an import contributes as ready is stored. -/
theorem contributionOf_ready {i : OpenImport} {e : Exports} (hi : i ∈ a.imports.toList)
    (hS : Stores P a) (hS' : Stores P (contributionOf i a).2)
    (h : (contributionOf i a).1 = .ready e) : ∃ target, P (contributionOf i a).2.table target e := by
  rw [contributionOf_run] at h hS' ⊢
  cases hstate : i.state with
  | active target exports =>
    rw [hstate] at h
    cases h
    exact ⟨target, hS.opened hi hstate⟩
  | deferred token =>
    simp only [hstate] at h hS' ⊢
    cases hσ : a.bindings? with
    | none =>
      rw [contribution_run, hσ] at h
      cases h
    | some σ =>
      obtain ⟨-, hsettled⟩ := @contribution_settled a i.id token σ hσ
      rw [h] at hsettled
      exact hS'.settled (AssocList.mem_of_lookup hsettled)

/-- Each contribution is that of one of the imports, and what is ready is stored. -/
theorem visibleAmong_supplied {is : List OpenImport} (hi : ∀ i ∈ is, i ∈ a.imports.toList)
    (hS : Stores P a) (hP : Supports P a.table) {v : VisibleImport}
    (hv : v ∈ (visibleAmong is a).1) :
    ∃ i ∈ is, v.id = i.id ∧
      ∀ e, v.contribution = .ready e → ∃ target, P (visibleAmong is a).2.table target e := by
  induction is generalizing a with
  | nil => exact absurd hv List.not_mem_nil
  | cons i is ih =>
    have hsettles := contributionOf_settles a (hi i List.mem_cons_self)
    have hS' := hS.settleMoves hP hsettles
    have hP' := hP.mono (grows_of_settles hsettles)
    have hrest : ∀ j ∈ is, j ∈ (contributionOf i a).2.imports.toList := fun j hj =>
      (imports_eq_of_settles hsettles).symm ▸ hi j (List.mem_cons_of_mem _ hj)
    have hgrows := grows_of_settles (visibleAmong_settles _ is hrest)
    rw [visibleAmong_cons] at hv
    have hlater : v ∈ (visibleAmong is (contributionOf i a).2).1 → _ := fun hv =>
      (ih hrest hS' hP' hv).imp fun j hj => And.imp_left (List.mem_cons_of_mem i) hj
    split at hv
    · exact hlater hv
    · rcases List.mem_cons.1 hv with rfl | hv
      · refine ⟨i, List.mem_cons_self, rfl, fun e he => ?_⟩
        obtain ⟨target, ht⟩ := contributionOf_ready (hi i List.mem_cons_self) hS hS' he
        exact ⟨target, hP'.kept (.refl _) hgrows ht⟩
      · exact hlater hv

/-- The number is that of an open import, which is in force at the point. -/
def OpenAt (a : Analysis) (id : ImportId) (p : Point) : Prop :=
  ∃ i, a.imports.Denotes id i ∧ i.extent.range.file = p.position.file ∧
    i.extent.range.contains p.position = true ∧
    (i.kind = .fallback → p.site = .caseLabel i.extent.block)

theorem openAt_of_mem_inForceAt (h : a.imports.Ordered) (hfit : a.imports.NumbersFit)
    {i : OpenImport} {p : Point} (hi : i ∈ a.imports.inForceAt p) : a.OpenAt i.id p := by
  obtain ⟨hmem, hfile, hstart, hstop, hlabel⟩ := OpenImports.mem_inForceAt.1 hi
  exact ⟨i, h.denotes hfit hmem, hfile, Range.contains_iff.2 ⟨hfile, hstart, hstop⟩, hlabel⟩

end NameLookup.Analysis
