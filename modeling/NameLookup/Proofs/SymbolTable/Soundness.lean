import NameLookup.Proofs.SymbolTable.Edits

/-!
# What holds of every table

`Sound t`: scopes stand in older scopes, members are declarations that have been entered, and known
instances are scopes that have been entered. One lemma for each kind of edit shows that it keeps this
(`Sound.allocScope` to `Sound.register`); hence so does every change of a table (`Sound.change`), and
every table that came about from a fresh one is sound (`Reachable.sound`).
-/

set_option autoImplicit false

namespace NameLookup.SymbolTable

structure Sound (t : SymbolTable) : Prop where
  parent_lt : ∀ {s e p}, t.scope? s = some e → e.parent = some p → p.index < s.index
  listed : ∀ {o m d}, t.members? o = some m → m.Lists d → t.HasDecl d
  instances : ∀ {key s}, t.instance? key = some s → t.HasScope s

namespace Sound

variable {t t' : SymbolTable}

theorem hasScope_parent (h : t.Sound) {s p : ScopeId} {e : Scope} (hs : t.scope? s = some e)
    (hp : e.parent = some p) : t.HasScope p :=
  Nat.lt_trans (h.parent_lt hs hp) (hasScope_of_scope? hs)

theorem new (limit : Nat) : (new limit).Sound where
  parent_lt {s e p} hs hp := by
    obtain ⟨_ | i⟩ := s
    · cases hs
      cases hp
    · cases hs
  listed {o m d} ho hd := by
    cases o with
    | block b => cases ho
    | scope s =>
      obtain ⟨_ | i⟩ := s
      · cases ho
        exact absurd hd (Members.not_lists_empty d)
      · cases ho
  instances h := by cases h

/-! ## Changes of one entry -/

theorem allocScope (h : t.Sound) {e : Scope} (hparent : ∀ p, e.parent = some p → t.HasScope p)
    (hmembers : e.members = .empty) : (t.allocScope e).2.Sound where
  parent_lt {s e' p} hs hp := by
    rw [scope?_allocScope] at hs
    split at hs
    · next hnew =>
      cases hs
      subst hnew
      exact hparent p hp
    · exact h.parent_lt hs hp
  listed {o m d} ho hd := by
    rw [members?_allocScope] at ho
    split at ho
    · cases ho
      rw [hmembers] at hd
      exact absurd hd (Members.not_lists_empty d)
    · exact h.listed ho hd
  instances hi := ((Extends.refl t).allocScope e).hasScope (h.instances hi)

theorem declare (h : t.Sound) (d : Declaration) : (t.declare d).2.Sound where
  parent_lt {s e p} hs hp := by
    rw [scope?_declare] at hs
    obtain ⟨e₀, he₀, rfl⟩ := Option.map_eq_some_iff.1 hs
    refine h.parent_lt he₀ ?_
    split at hp <;> exact hp
  listed {o m d'} ho hd := by
    have hsize : (t.declare d).2.decls.size = t.decls.size + 1 := by
      rw [decls_declare, Array.size_push]
    rw [HasDecl, hsize]
    rw [members?_declare] at ho
    split at ho
    · obtain ⟨m₀, hm₀, rfl⟩ := Option.map_eq_some_iff.1 ho
      rcases Members.lists_push hd with hd | rfl
      · exact Nat.lt_succ_of_lt (h.listed hm₀ hd)
      · exact Nat.lt_succ_self _
    · exact Nat.lt_succ_of_lt (h.listed ho hd)
  instances {key s} hi := by
    rw [instance?, instances_declare] at hi
    rw [HasScope, scopes_size_declare]
    exact h.instances hi

theorem addBlock (h : t.Sound) (parent : Owner) : (t.addBlock parent).2.Sound where
  parent_lt hs hp := h.parent_lt hs hp
  listed {o m d} ho hd := by
    rw [members?_addBlock] at ho
    split at ho
    · cases ho
      exact absurd hd (Members.not_lists_empty d)
    · exact h.listed ho hd
  instances hi := h.instances hi

theorem setReexports (h : t.Sound) (s : ScopeId) (targets : List ScopeId) :
    (t.setReexports s targets).Sound where
  parent_lt {r e p} hs hp := by
    rw [scope?_setReexports] at hs
    obtain ⟨e₀, he₀, rfl⟩ := Option.map_eq_some_iff.1 hs
    refine h.parent_lt he₀ ?_
    split at hp <;> exact hp
  listed ho hd := h.listed ((members?_setReexports t s targets _).symm.trans ho) hd
  instances hi := by
    rw [HasScope, scopes_size_setReexports]
    exact h.instances hi

theorem setSpan (h : t.Sound) (d : DeclId) (span : Range) : (t.setSpan d span).Sound where
  parent_lt hs hp := h.parent_lt hs hp
  listed ho hd := by
    rw [HasDecl, decls_size_setSpan]
    exact h.listed ho hd
  instances hi := h.instances hi

theorem register (h : t.Sound) {key : InstanceKey} {s : ScopeId} (hs : t.HasScope s) :
    { t with instances := (key, s) :: t.instances }.Sound where
  parent_lt he hp := h.parent_lt he hp
  listed ho hd := h.listed ho hd
  instances {key' s'} hi := by
    rw [instance?, AssocList.lookup_cons] at hi
    split at hi
    · cases hi
      exact hs
    · exact h.instances hi

/-! ## Histories -/

theorem edit (h : t.Sound) (he : Edit t t') : t'.Sound := by
  cases he with
  | allocScope hmembers hparent =>
    refine h.allocScope (fun p hp => ?_) hmembers
    rcases hparent p hp with hp | ⟨s, e', he', hp⟩
    · exact hp
    · exact h.hasScope_parent he' hp
  | declare _ => exact h.declare _
  | addBlock parent => exact h.addBlock parent
  | setReexports s targets => exact h.setReexports s targets
  | setSpan d span => exact h.setSpan d span
  | register hs => exact h.register hs

theorem grows (h : t.Sound) (hg : t.Grows t') : t'.Sound := hg.edits.keep edit h

theorem change (h : t.Sound) (hc : t.Change t') : t'.Sound := hc.edits.keep edit h

end Sound

theorem Reachable.sound {t : SymbolTable} (h : t.Reachable) : t.Sound := h.of_edit .new .edit

/-- A change of the table renames no declaration. -/
theorem Change.decl_name {t t' : SymbolTable} (hc : t.Change t') {d : DeclId} {e : Declaration}
    (hd : t.decl? d = some e) : ∃ e', t'.decl? d = some e' ∧ e'.name = e.name := by
  obtain ⟨span, hd'⟩ := hc.edits.decl hd
  exact ⟨_, hd', rfl⟩

end NameLookup.SymbolTable
