import NameLookup.SymbolTable.Lemmas

/-!
# Extensions of a table

`t.Extends u`: every scope and declaration of `t` stands in `u` as it was, the blocks are the same,
and new entries come after the old ones. Entering a scope keeps this (`Extends.allocScope`), and so does
changing one that is not in `t` (`Extends.declare`, `Extends.setReexports`). An extension cut back
to the former lengths is the former table (`Extends.truncate`).
-/

set_option autoImplicit false

namespace NameLookup.SymbolTable

/-- The scope has been entered. -/
def HasScope (t : SymbolTable) (s : ScopeId) : Prop := s.index < t.scopes.size

instance (t : SymbolTable) (s : ScopeId) : Decidable (t.HasScope s) :=
  inferInstanceAs (Decidable (s.index < t.scopes.size))

/-- The declaration has been entered. -/
def HasDecl (t : SymbolTable) (d : DeclId) : Prop := d.index < t.decls.size

theorem hasScope_of_scope? {t : SymbolTable} {s : ScopeId} {e : Scope} (h : t.scope? s = some e) :
    t.HasScope s :=
  (Array.getElem?_eq_some_iff.1 h).1

theorem hasDecl_of_decl? {t : SymbolTable} {d : DeclId} {e : Declaration}
    (h : t.decl? d = some e) : t.HasDecl d :=
  (Array.getElem?_eq_some_iff.1 h).1

theorem HasScope.entry {t : SymbolTable} {s : ScopeId} (h : t.HasScope s) :
    ∃ e, t.scope? s = some e :=
  ⟨_, Array.getElem?_eq_getElem h⟩

theorem HasDecl.entry {t : SymbolTable} {d : DeclId} (h : t.HasDecl d) :
    ∃ e, t.decl? d = some e :=
  ⟨_, Array.getElem?_eq_getElem h⟩

/-- A declaration that was entered before stays as it is when another one is. -/
theorem decl?_declare_of_hasDecl {t : SymbolTable} {d : DeclId} (h : t.HasDecl d) (e : Declaration) :
    (t.declare e).2.decl? d = t.decl? d := by
  have hne : d ≠ ⟨t.decls.size⟩ := by
    rintro rfl
    exact Nat.lt_irrefl _ h
  rw [decl?_declare, if_neg hne]

/-- `u` holds the entries of `t` unchanged, and more after them. -/
structure Extends (t u : SymbolTable) : Prop where
  scopes_le : t.scopes.size ≤ u.scopes.size
  decls_le : t.decls.size ≤ u.decls.size
  scope : ∀ {s}, t.HasScope s → u.scope? s = t.scope? s
  decl : ∀ {d}, t.HasDecl d → u.decl? d = t.decl? d
  blocks : u.blocks = t.blocks
  limit : u.instantiationLimit = t.instantiationLimit

theorem take_eq_of_prefix {α : Type} {xs ys : Array α} (hle : ys.size ≤ xs.size)
    (h : ∀ i < ys.size, xs[i]? = ys[i]?) : xs.take ys.size = ys := by
  refine Array.ext_getElem? fun i => ?_
  rw [Array.take_eq_extract, Array.getElem?_extract, Nat.min_eq_left hle, Nat.sub_zero, Nat.zero_add]
  split
  · next hlt => exact h i hlt
  · next hge => exact (Array.getElem?_eq_none (Nat.not_lt.1 hge)).symm

namespace Extends

variable {t u v : SymbolTable}

theorem refl (t : SymbolTable) : t.Extends t :=
  ⟨Nat.le_refl _, Nat.le_refl _, fun _ => rfl, fun _ => rfl, rfl, rfl⟩

theorem hasScope (h : t.Extends u) {s : ScopeId} (hs : t.HasScope s) : u.HasScope s :=
  Nat.lt_of_lt_of_le hs h.scopes_le

theorem hasDecl (h : t.Extends u) {d : DeclId} (hd : t.HasDecl d) : u.HasDecl d :=
  Nat.lt_of_lt_of_le hd h.decls_le

theorem trans (h : t.Extends u) (h' : u.Extends v) : t.Extends v where
  scopes_le := Nat.le_trans h.scopes_le h'.scopes_le
  decls_le := Nat.le_trans h.decls_le h'.decls_le
  scope hs := (h'.scope (h.hasScope hs)).trans (h.scope hs)
  decl hd := (h'.decl (h.hasDecl hd)).trans (h.decl hd)
  blocks := h'.blocks.trans h.blocks
  limit := h'.limit.trans h.limit

theorem scope_some (h : t.Extends u) {s : ScopeId} {e : Scope} (hs : t.scope? s = some e) :
    u.scope? s = some e :=
  (h.scope (hasScope_of_scope? hs)).trans hs

theorem decl_some (h : t.Extends u) {d : DeclId} {e : Declaration} (hd : t.decl? d = some e) :
    u.decl? d = some e :=
  (h.decl (hasDecl_of_decl? hd)).trans hd

theorem block (h : t.Extends u) (b : BlockId) : u.block? b = t.block? b := by
  simp only [block?, h.blocks]

/-! ## Steps that extend -/

theorem allocScope (h : t.Extends u) (e : Scope) : t.Extends (u.allocScope e).2 where
  scopes_le := by
    have := h.scopes_le
    simp only [SymbolTable.allocScope, Array.size_push]
    omega
  decls_le := h.decls_le
  scope {s} hs := by
    have hne : s ≠ ⟨u.scopes.size⟩ := fun he => by
      have := h.hasScope hs
      rw [he] at this
      exact Nat.lt_irrefl _ this
    rw [scope?_allocScope, if_neg hne, h.scope hs]
  decl hd := h.decl hd
  blocks := h.blocks
  limit := h.limit

/-- A declaration of a scope that is not one of `t` leaves the entries of `t` alone. -/
theorem declare (h : t.Extends u) {d : Declaration} {s : ScopeId} (howner : d.owner = .scope s)
    (hs : t.scopes.size ≤ s.index) : t.Extends (u.declare d).2 where
  scopes_le := by rw [scopes_size_declare]; exact h.scopes_le
  decls_le := by
    have := h.decls_le
    rw [decls_declare, Array.size_push]
    omega
  scope {r} hr := by
    have hne : d.owner ≠ .scope r := by
      rw [howner]
      rintro ⟨rfl⟩
      exact absurd hr (Nat.not_lt.2 hs)
    rw [scope?_declare, h.scope hr]
    simp [hne]
  decl {r} hr := by rw [decl?_declare_of_hasDecl (h.hasDecl hr), h.decl hr]
  blocks := by rw [blocks_declare_scope u howner, h.blocks]
  limit := by rw [limit_declare, h.limit]

theorem setReexports (h : t.Extends u) {s : ScopeId} (hs : t.scopes.size ≤ s.index)
    (targets : List ScopeId) : t.Extends (u.setReexports s targets) where
  scopes_le := by rw [scopes_size_setReexports]; exact h.scopes_le
  decls_le := h.decls_le
  scope {r} hr := by
    have hne : s ≠ r := by
      rintro rfl
      exact absurd hr (Nat.not_lt.2 hs)
    rw [scope?_setReexports, h.scope hr]
    simp [hne]
  decl hd := h.decl hd
  blocks := h.blocks
  limit := h.limit

/-- Cutting back to the former lengths undoes an extension. -/
theorem truncate (h : t.Extends u) (hi : u.instances = t.instances) :
    u.truncate t.scopes.size t.decls.size = t := by
  have hscopes := take_eq_of_prefix h.scopes_le fun i hlt => h.scope (s := ⟨i⟩) hlt
  have hdecls := take_eq_of_prefix h.decls_le fun i hlt => h.decl (d := ⟨i⟩) hlt
  simp only [SymbolTable.truncate, hscopes, hdecls, h.blocks, hi, h.limit]

end Extends

end NameLookup.SymbolTable
