import NameLookup.Proofs.Analysis.FirstBuilt
import NameLookup.Proofs.Analysis.InForce

/-!
# What imports bring in is importable

Exports are filtered once, when they are worked out, and are given out ever after from the cache and
from the open imports. Of a declaration and of its scope nothing changes that the filter asks about
(`Importable.edits`), and no handle comes to denote another declaration, so its verdict stays right for
all that is stored (`Reachable.stores_importables`): whatever a lookup finds otherwise than along the
chain is importable when it is found (`lookup_importable`).
-/

set_option autoImplicit false

namespace NameLookup

/-- Non-static members cannot be imported, and out of an enumeration only enumerators can. -/
theorem isImportable_kind {kind : ScopeKind} {d : Declaration} (h : isImportable kind d = true) :
    d.kind ≠ .nonStaticMember ∧ (kind = .enumType → d.kind = .enumerator) := by
  unfold isImportable at h
  split at h
  · next hk => exact ⟨fun hk' => (by cases hk.symm.trans hk'), fun _ => hk⟩
  · cases h
  · next hk => exact ⟨hk, fun he => absurd he (of_decide_eq_true h).1⟩

namespace SymbolTable

variable {t t' u : SymbolTable} {d : DeclId}

/-- The declaration is an importable member of the scope that owns it. -/
def Importable (t : SymbolTable) (d : DeclId) : Prop :=
  ∃ s e decl, t.scope? s = some e ∧ t.decl? d = some decl ∧ decl.owner = .scope s ∧
    isImportable e.kind decl = true

theorem Importable.edits (h : t.Importable d) (he : Edits t t') : t'.Importable d := by
  obtain ⟨s, e, decl, hs, hd, howner, hi⟩ := h
  obtain ⟨members, reexports, hs'⟩ := he.scope hs
  obtain ⟨span, hd'⟩ := he.decl hd
  exact ⟨s, _, _, hs', hd', howner, hi⟩

theorem Registered.importable_of_mem (h : t.Registered) {s : ScopeId} {e : Scope}
    {decl : Declaration} (hs : t.scope? s = some e) (hd : d ∈ e.members.decls)
    (hdecl : t.decl? d = some decl) (hi : isImportable e.kind decl = true) : t.Importable d := by
  rw [← membersOf_of_scope? hs, h.listed, mem_select] at hd
  obtain ⟨decl', hdecl', howner⟩ := hd
  cases hdecl.symm.trans hdecl'
  exact ⟨s, e, decl, hs, hdecl, of_decide_eq_true howner, hi⟩

/-- All that exports hold, by list or by name, is importable. -/
theorem Registered.importable_exportsOf (h : t.Registered) (s : ScopeId) (kind : ScopeKind) :
    ∀ d, (t.exportsOf s kind).members.Lists d → t.Importable d := by
  refine exportsOf_induction (P := fun m => ∀ d, m.Lists d → t.Importable d)
    (fun d hd => absurd hd (Members.not_lists_empty d)) ?_ s kind
  intro m r e d decl hm hr hd hdecl hi d' hd'
  rcases Members.lists_push hd' with hd' | rfl
  · exact hm d' hd'
  · exact h.importable_of_mem hr hd hdecl hi

end SymbolTable

namespace Analysis

open SymbolTable

variable {a : Analysis}

/-- All that the exports hold is importable. -/
def Importables (t : SymbolTable) (_ : Target) (e : Exports) : Prop :=
  ∀ d, e.members.Lists d → t.Importable d

theorem supports_importables {t : SymbolTable} (ht : t.Registered) : Supports Importables t where
  made {u u' target e} hg hrun := by
    have hu' := (ht.grows hg).grows ((targetExports_growing target).of_run hrun)
    obtain ⟨entry, -, -, -, he⟩ := targetExports_ok hrun
    rw [he]
    exact hu'.importable_exportsOf e.scope entry.kind
  kept _ hg h d hd := (h d hd).edits hg.edits

theorem Reachable.stores_importables (h : a.Reachable) : Stores Importables a :=
  h.stores (fun ht => supports_importables ht.registered) fun hc hi d hd => (hi d hd).edits hc.edits

/-- No lookup gives an instance member by way of an import or of an associated scope, nor anything
but enumerators out of an enumeration. -/
theorem lookup_importable (ha : a.Reachable) (name : Name) (p : Point) :
    ∀ c, (c ∈ (lookup name p a).1.candidates ∨ c ∈ (lookup name p a).1.hidden) →
      (∀ o, c.origin ≠ .ordinary o) →
      ∃ decl s e, (lookup name p a).2.table.decl? c.decl = some decl ∧ decl.owner = .scope s ∧
        (lookup name p a).2.table.scope? s = some e ∧ decl.kind ≠ .nonStaticMember ∧
        (e.kind = .enumType → decl.kind = .enumerator) := by
  intro c hc horigin
  suffices himportable : (lookup name p a).2.table.Importable c.decl by
    obtain ⟨s, e, decl, hs, hd, howner, hi⟩ := himportable
    exact ⟨decl, s, e, hd, howner, hs, isImportable_kind hi⟩
  rcases supplied_or_associated hc horigin with hsupplied | ⟨s, -, hassociated⟩
  · obtain ⟨v, hv, e, he, -, hd⟩ := hsupplied.exports
    obtain ⟨i, -, -, hready⟩ := visibleAmong_supplied (fun i hi => (List.mem_filter.1 hi).1)
      ha.stores_importables (supports_importables ha.table.registered) hv
    obtain ⟨target, ht⟩ := hready e he
    exact ht c.decl (.inr ⟨name, hd⟩)
  · have hr : (lookup name p a).2.table.Registered := (ha.operation (.lookup name p)).table.registered
    obtain ⟨-, e, decl, hs, hmem, hd, hi⟩ := mem_associatedCandidates hassociated
    exact hr.importable_of_mem hs hmem hd hi

/-- The import of `X` supplies its static member. -/
theorem lookup_importable_of_X :
    let p : Point := ⟨⟨⟨0⟩, 5⟩, ⟨0⟩, .expression⟩
    let a := Operation.apply besideX (.openImport (.type (.scope ⟨1⟩)) .unconditional extentBesideX)
    (⟨⟨1⟩, .imported ⟨0⟩ ⟨1⟩⟩ : Candidate) ∈ (lookup "first" p a).1.candidates ∧
      ∃ decl, (lookup "first" p a).2.table.decl? ⟨1⟩ = some decl ∧ decl.kind ≠ .nonStaticMember := by
  intro p a
  have hc : (⟨⟨1⟩, .imported ⟨0⟩ ⟨1⟩⟩ : Candidate) ∈ (lookup "first" p a).1.candidates := by decide
  obtain ⟨decl, s, e, hd, -, -, hkind, -⟩ := lookup_importable (besideX_reachable.operation _) "first"
    p _ (.inl hc) fun o ho => by cases ho
  exact ⟨hc, decl, hd, hkind⟩

end Analysis

end NameLookup
