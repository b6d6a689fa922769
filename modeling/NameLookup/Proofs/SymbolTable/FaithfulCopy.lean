import Mathlib.Data.List.Forall2
import Mathlib.Logic.Relation
import NameLookup.Proofs.SymbolTable.ChainStability

/-!
# Faithful copies

Copying a scope copies its whole body: the scopes that it declares as nested types, those that they
declare, and so on (`InBody`). `CopyOf` says what a copy of one of them has in common with it: the
same members in the same order, where a type that is the scope itself or a nested type declared in
it becomes the copy, and every other type only has its parameters replaced; and the same re-exports,
where a nested scope that is declared in the scope becomes its copy.

The originals are read off the table `t₀` in which the copy is asked for, and copies off a later one.
In between a scope is filled while the scopes nested in it are copied: `Fills` says that nothing else
is touched then, so that finished copies stay as they are (`CopyOf.fills`).
-/

set_option autoImplicit false

namespace NameLookup.SymbolTable

open Relation

/-- The scope `s` exists and stands directly in `o`. -/
def StandsIn (t : SymbolTable) (o s : ScopeId) : Prop := ∃ e, t.scope? s = some e ∧ e.parent = some o

/-- The declaration is one of `s` as a nested type, and `s` stands in `o`. -/
def Nests (t : SymbolTable) (o : ScopeId) (e : Declaration) (s : ScopeId) : Prop :=
  e.kind = .nestedType ∧ e.type = some (.scope s) ∧ t.StandsIn o s

/-- One of the declarations is of `s` as a type nested in `o`. -/
def NestsAmong (t : SymbolTable) (o : ScopeId) (ds : List DeclId) (s : ScopeId) : Prop :=
  ∃ d ∈ ds, ∃ e, t.decl? d = some e ∧ t.Nests o e s

/-- `s` stands in `o`, which declares it as a nested type. -/
def DeclaresNested (t : SymbolTable) (o s : ScopeId) : Prop :=
  t.NestsAmong o (t.membersOf (.scope o)).decls s

/-- The scopes that are copied along with a scope, itself included. -/
abbrev InBody (t : SymbolTable) : ScopeId → ScopeId → Prop := ReflTransGen t.DeclaresNested

/-- The scopes that were entered between `t` and `u`, oldest first. -/
def newScopes (t u : SymbolTable) : List ScopeId :=
  (List.range' t.scopes.size (u.scopes.size - t.scopes.size)).map ScopeId.mk

theorem mem_newScopes {t u : SymbolTable} {s : ScopeId} :
    s ∈ newScopes t u ↔ ¬ t.HasScope s ∧ u.HasScope s := by
  obtain ⟨i⟩ := s
  simp only [newScopes, List.mem_map, List.mem_range'_1, ScopeId.mk.injEq, exists_eq_right, HasScope]
  omega

theorem newScopes_self (t : SymbolTable) : newScopes t t = [] := by simp [newScopes]

theorem newScopes_append {t u v : SymbolTable} (htu : t.scopes.size ≤ u.scopes.size)
    (huv : u.scopes.size ≤ v.scopes.size) : newScopes t u ++ newScopes u v = newScopes t v := by
  obtain ⟨m, hm⟩ := Nat.exists_eq_add_of_le htu
  obtain ⟨n, hn⟩ := Nat.exists_eq_add_of_le huv
  have hsum : v.scopes.size - t.scopes.size = m + n := by omega
  rw [newScopes, newScopes, newScopes, hsum, hn, hm, Nat.add_sub_cancel_left, Nat.add_sub_cancel_left,
    ← List.map_append, List.range'_append_1]

theorem newScopes_allocScope (t : SymbolTable) (e : Scope) :
    newScopes t (t.allocScope e).2 = [⟨t.scopes.size⟩] := by
  have hsize : (t.allocScope e).2.scopes.size = t.scopes.size + 1 := Array.size_push _
  rw [newScopes, hsize, Nat.add_sub_cancel_left]
  rfl

theorem exists_of_mem_left {α β : Type} {R : α → β → Prop} {as : List α} {bs : List β}
    (h : List.Forall₂ R as bs) {a : α} (ha : a ∈ as) : ∃ b ∈ bs, R a b := by
  induction h with
  | nil => exact absurd ha List.not_mem_nil
  | cons hab _ ih =>
    rcases List.mem_cons.1 ha with rfl | ha
    · exact ⟨_, List.mem_cons_self, hab⟩
    · obtain ⟨b, hb, hr⟩ := ih ha
      exact ⟨b, List.mem_cons_of_mem _ hb, hr⟩

theorem exists_of_mem_right {α β : Type} {R : α → β → Prop} {as : List α} {bs : List β}
    (h : List.Forall₂ R as bs) {b : β} (hb : b ∈ bs) : ∃ a ∈ as, R a b :=
  exists_of_mem_left h.flip hb

/-! ## Copies of entries -/

section
variable (t₀ u : SymbolTable) (σ : Substitution) (made : Copies) (o c : ScopeId)

/-- `s'` stands in `c` and is no instance; it has the parameters that `s` has. -/
def PlacedIn (s s' : ScopeId) : Prop :=
  ∃ e e', t₀.scope? s = some e ∧ u.scope? s' = some e' ∧ e'.parent = some c ∧
    e'.templateParams = e.templateParams ∧ e'.instanceOf = none

/-- What becomes of the type of a member of `o` in the copy `c`, where `made` has been copied. -/
inductive TypeCopy (kind : DeclKind) : Option TypeExpr → Option TypeExpr → Prop
  | own : TypeCopy kind (some (.scope o)) (some (.scope c))
  | nested {s s' : ScopeId} (hkind : kind = .nestedType) (hs : t₀.StandsIn o s)
      (hmade : (s, s') ∈ made) (hplace : PlacedIn t₀ u c s s') :
      TypeCopy kind (some (.scope s)) (some (.scope s'))
  | other {type : Option TypeExpr}
      (h : ∀ s, type = some (.scope s) → s ≠ o ∧ ¬ (kind = .nestedType ∧ t₀.StandsIn o s)) :
      TypeCopy kind type (type.map (·.substitute σ))

/-- The member `d'` of `c` is the copy of the member `d` of `o`. -/
def DeclCopy (d d' : DeclId) : Prop :=
  ∃ e type, t₀.decl? d = some e ∧ u.decl? d' = some { e with owner := .scope c, type } ∧
    TypeCopy t₀ u σ made o c e.kind e.type type

/-- What becomes of a re-export of `o` in the copy `c`. -/
inductive ReexportCopy : ScopeId → ScopeId → Prop
  | nested {r r' : ScopeId} (h : t₀.DeclaresNested o r) (hmade : (r, r') ∈ made)
      (hplace : PlacedIn t₀ u c r r') : ReexportCopy r r'
  | other {r : ScopeId} (h : ¬ t₀.DeclaresNested o r) : ReexportCopy r r

/-- The scope `c` of `u` is a copy of the scope `o` of `t₀`. -/
def CopyOf : Prop :=
  ∃ e e', t₀.scope? o = some e ∧ u.scope? c = some e' ∧ e'.name = e.name ∧ e'.kind = e.kind ∧
    List.Forall₂ (DeclCopy t₀ u σ made o c) e.members.decls e'.members.decls ∧
    List.Forall₂ (ReexportCopy t₀ u made o c) e.reexports e'.reexports

end

variable {t₀ t u v : SymbolTable} {σ : Substitution} {made made' : Copies}
  {o c s target : ScopeId} {lo : Nat}

/-! ## A scope is filled -/

/-- Between `t` and `u` the scope `target` got members and re-exports, and entries were added. -/
structure Fills (target : ScopeId) (t u : SymbolTable) : Prop where
  scopes_le : t.scopes.size ≤ u.scopes.size
  decls_le : t.decls.size ≤ u.decls.size
  scope : ∀ {s}, t.HasScope s → s ≠ target → u.scope? s = t.scope? s
  filled : ∀ {e}, t.scope? target = some e →
    ∃ members reexports, u.scope? target = some { e with members, reexports }
  decl : ∀ {d}, t.HasDecl d → u.decl? d = t.decl? d
  blocks : u.blocks = t.blocks
  limit : u.instantiationLimit = t.instantiationLimit

namespace Fills

theorem hasScope (h : Fills target t u) (hs : t.HasScope s) : u.HasScope s :=
  Nat.lt_of_lt_of_le hs h.scopes_le

theorem trans (h : Fills target t u) (h' : Fills target u v) : Fills target t v where
  scopes_le := Nat.le_trans h.scopes_le h'.scopes_le
  decls_le := Nat.le_trans h.decls_le h'.decls_le
  scope hs hne := (h'.scope (h.hasScope hs) hne).trans (h.scope hs hne)
  filled he := by
    obtain ⟨ms, rs, hu⟩ := h.filled he
    obtain ⟨ms', rs', hv⟩ := h'.filled hu
    exact ⟨ms', rs', hv⟩
  decl hd := (h'.decl (Nat.lt_of_lt_of_le hd h.decls_le)).trans (h.decl hd)
  blocks := h'.blocks.trans h.blocks
  limit := h'.limit.trans h.limit

theorem declare (h : Fills target t u) {d : Declaration} (howner : d.owner = .scope target) :
    Fills target t (u.declare d).2 := by
  refine h.trans ⟨Nat.le_of_eq (scopes_size_declare u d).symm, ?_, fun {s} hs hne => ?_,
    fun {e} he => ?_, fun hd => decl?_declare_of_hasDecl hd d, blocks_declare_scope u howner,
    limit_declare u d⟩
  · rw [decls_declare, Array.size_push]
    exact Nat.le_succ _
  · have howner' : d.owner ≠ .scope s := by
      rw [howner]
      rintro ⟨⟩
      exact hne rfl
    rw [scope?_declare]
    simp [howner']
  · rw [scope?_declare, he, Option.map_some, if_pos howner]
    exact ⟨_, e.reexports, rfl⟩

theorem setReexports (h : Fills target t u) (targets : List ScopeId) :
    Fills target t (u.setReexports target targets) := by
  refine h.trans ⟨Nat.le_of_eq (scopes_size_setReexports u target targets).symm, Nat.le_refl _,
    fun {s} hs hne => ?_, fun {e} he => ?_, fun _ => rfl, rfl, rfl⟩
  · rw [scope?_setReexports]
    simp [Ne.symm hne]
  · rw [scope?_setReexports, he, Option.map_some, if_pos rfl]
    exact ⟨e.members, targets, rfl⟩

/-- Filling a scope that a table does not have extends the table. -/
theorem extends_ (h : Fills target u v) (ht : t.Extends u) (hnew : ¬ t.HasScope target) :
    t.Extends v where
  scopes_le := Nat.le_trans ht.scopes_le h.scopes_le
  decls_le := Nat.le_trans ht.decls_le h.decls_le
  scope hs := (h.scope (ht.hasScope hs) fun heq => hnew (heq ▸ hs)).trans (ht.scope hs)
  decl hd := (h.decl (ht.hasDecl hd)).trans (ht.decl hd)
  blocks := h.blocks.trans ht.blocks
  limit := h.limit.trans ht.limit

end Fills

theorem Extends.fills (h : t.Extends u) (target : ScopeId) : Fills target t u where
  scopes_le := h.scopes_le
  decls_le := h.decls_le
  scope hs _ := h.scope hs
  filled {e} he := ⟨e.members, e.reexports, h.scope_some he⟩
  decl hd := h.decl hd
  blocks := h.blocks
  limit := h.limit

/-- A member type keeps its place while a scope is filled. -/
theorem PlacedIn.fills {s' : ScopeId} (h : PlacedIn t₀ u c s s') (hf : Fills target u v) :
    PlacedIn t₀ v c s s' := by
  obtain ⟨e, e', he, he', hparent, hparams, hinst⟩ := h
  by_cases hs : s' = target
  · subst hs
    obtain ⟨ms, rs, hv⟩ := hf.filled he'
    exact ⟨e, _, he, hv, hparent, hparams, hinst⟩
  · exact ⟨e, e', he, (hf.scope (hasScope_of_scope? he') hs).trans he', hparent, hparams, hinst⟩

section
variable (hf : Fills target u v) (hmade : made ⊆ made')
include hf hmade

theorem TypeCopy.fills {kind : DeclKind} {type type' : Option TypeExpr}
    (h : TypeCopy t₀ u σ made o c kind type type') : TypeCopy t₀ v σ made' o c kind type type' := by
  cases h with
  | own => exact .own
  | nested hkind hs hin hplace => exact .nested hkind hs (hmade hin) (hplace.fills hf)
  | other h => exact .other h

theorem DeclCopy.fills {d d' : DeclId} (h : DeclCopy t₀ u σ made o c d d') :
    DeclCopy t₀ v σ made' o c d d' := by
  obtain ⟨e, type, he, he', htype⟩ := h
  exact ⟨e, type, he, (hf.decl (hasDecl_of_decl? he')).trans he', htype.fills hf hmade⟩

/-- Finished copies stay as they are while another scope is filled. -/
theorem CopyOf.fills (h : CopyOf t₀ u σ made o c) (hc : c ≠ target) :
    CopyOf t₀ v σ made' o c := by
  obtain ⟨e, e', he, he', hname, hkind, hdecls, hreexports⟩ := h
  refine ⟨e, e', he, (hf.scope (hasScope_of_scope? he') hc).trans he', hname, hkind,
    hdecls.imp fun _ _ hd => hd.fills hf hmade, hreexports.imp fun _ _ hr => ?_⟩
  cases hr with
  | nested h hin hplace => exact .nested h (hmade hin) (hplace.fills hf)
  | other h => exact .other h

end

theorem CopyOf.extends_ (h : CopyOf t₀ u σ made o c) (he : u.Extends v) (hmade : made ⊆ made') :
    CopyOf t₀ v σ made' o c :=
  h.fills (he.fills ⟨c.index + 1⟩) hmade fun heq =>
    absurd (congrArg ScopeId.index heq) (Nat.ne_of_lt (Nat.lt_succ_self _))

/-! ## Stages -/

/-- `t` extends `t₀`, and no scope that has been added stands in one of `t₀` from `lo` on. -/
structure Stage (t₀ : SymbolTable) (lo : Nat) (t : SymbolTable) : Prop where
  extends_ : t₀.Extends t
  outside : ∀ {s e p}, t.scope? s = some e → ¬ t₀.HasScope s → e.parent = some p →
    p.index < lo ∨ ¬ t₀.HasScope p

namespace Stage

theorem refl (t₀ : SymbolTable) (lo : Nat) : Stage t₀ lo t₀ :=
  ⟨.refl t₀, fun hs hnew => absurd (hasScope_of_scope? hs) hnew⟩

variable (h : Stage t₀ lo t)
include h

theorem allocScope {e : Scope}
    (hparent : ∀ p, e.parent = some p → p.index < lo ∨ ¬ t₀.HasScope p) :
    Stage t₀ lo (t.allocScope e).2 where
  extends_ := h.extends_.allocScope e
  outside {s e' p} hs hnew hp := by
    rw [scope?_allocScope] at hs
    split at hs
    · cases hs
      exact hparent p hp
    · exact h.outside hs hnew hp

theorem declare {d : Declaration} (howner : d.owner = .scope target) (hnew : ¬ t₀.HasScope target) :
    Stage t₀ lo (t.declare d).2 where
  extends_ := h.extends_.declare howner (Nat.not_lt.1 hnew)
  outside {s e p} hs hs₀ hp := by
    rw [scope?_declare] at hs
    obtain ⟨e₀, he₀, rfl⟩ := Option.map_eq_some_iff.1 hs
    refine h.outside he₀ hs₀ ?_
    split at hp <;> exact hp

theorem setReexports (hnew : ¬ t₀.HasScope target) (targets : List ScopeId) :
    Stage t₀ lo (t.setReexports target targets) where
  extends_ := h.extends_.setReexports (Nat.not_lt.1 hnew) targets
  outside {s e p} hs hs₀ hp := by
    rw [scope?_setReexports] at hs
    obtain ⟨e₀, he₀, rfl⟩ := Option.map_eq_some_iff.1 hs
    refine h.outside he₀ hs₀ ?_
    split at hp <;> exact hp

/-- What stands in an original stood there before. A reference to a scope that did not exist then is
no reference to a nested scope, even if the scope has been entered since. -/
theorem standsIn (ho : t₀.HasScope o) (hlo : lo ≤ o.index) (hs : t.HasScope s) :
    t.isNestedIn o s = true ↔ t₀.StandsIn o s := by
  obtain ⟨e, he⟩ := hs.entry
  rw [SymbolTable.isNestedIn, he, Option.all_some, decide_eq_true_iff]
  constructor
  · intro hp
    by_cases hs₀ : t₀.HasScope s
    · exact ⟨e, (h.extends_.scope hs₀).symm.trans he, hp⟩
    · rcases h.outside he hs₀ hp with hlt | hno
      · omega
      · exact absurd ho hno
  · rintro ⟨e₀, he₀, hp⟩
    cases (h.extends_.scope_some he₀).symm.trans he
    exact hp

end Stage

end NameLookup.SymbolTable
