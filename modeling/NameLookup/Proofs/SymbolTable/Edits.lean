import Mathlib.Logic.Relation
import NameLookup.SymbolTable.History
import NameLookup.Proofs.SymbolTable.Growth

/-!
# Changes, entry by entry

Whatever is done to a symbol table comes down to edits of single entries, of six kinds (`Edit`). An
operation is a sequence of edits (`Change.edits`), and so is the building of instances
(`Copying.edits`, `Grows.edits`). What every edit keeps therefore holds of every table that came
about from one of which it holds (`Reachable.of_edit`).
-/

set_option autoImplicit false

namespace NameLookup.SymbolTable

open Relation

/-- A change of one entry. A new scope has no members yet, and its parent exists or is the parent of
another scope; a declaration goes to an owner that exists. -/
inductive Edit (t : SymbolTable) : SymbolTable → Prop
  | allocScope {e : Scope} (hmembers : e.members = .empty)
      (hparent : ∀ p, e.parent = some p →
        t.HasScope p ∨ ∃ s e', t.scope? s = some e' ∧ e'.parent = some p) :
      Edit t (t.allocScope e).2
  | declare {d : Declaration} {m : Members} (howner : t.members? d.owner = some m) :
      Edit t (t.declare d).2
  | addBlock (parent : Owner) : Edit t (t.addBlock parent).2
  | setReexports (s : ScopeId) (targets : List ScopeId) : Edit t (t.setReexports s targets)
  | setSpan (d : DeclId) (span : Range) : Edit t (t.setSpan d span)
  | register {key : InstanceKey} {s : ScopeId} (hs : t.HasScope s) :
      Edit t { t with instances := (key, s) :: t.instances }

/-- One edit after the other. -/
abbrev Edits : SymbolTable → SymbolTable → Prop := ReflTransGen Edit

variable {t t' u t₀ : SymbolTable} {key : InstanceKey} {σ : Substitution}

/-- What every edit keeps, a sequence of edits keeps. -/
theorem Edits.keep {P : SymbolTable → Prop} (hedit : ∀ {t t'}, P t → Edit t t' → P t')
    (h : Edits t t') (ht : P t) : P t' := by
  induction h with
  | refl => exact ht
  | tail _ he ih => exact hedit ih he

/-- A declaration may be entered for a scope that exists. -/
theorem Edit.declareIn {d : Declaration} {s : ScopeId} (howner : d.owner = .scope s)
    (hs : t.HasScope s) : Edit t (t.declare d).2 := by
  obtain ⟨e, he⟩ := hs.entry
  have hm : t.members? d.owner = some e.members := by rw [howner, members?, he, Option.map_some]
  exact .declare hm

/-- Through an edit a scope changes nothing but its members and re-exports. -/
theorem Edit.scope {s : ScopeId} {e : Scope} (h : Edit t t') (hs : t.scope? s = some e) :
    ∃ members reexports, t'.scope? s = some { e with members, reexports } := by
  cases h with
  | allocScope => exact ⟨e.members, e.reexports, ((Extends.refl t).allocScope _).scope_some hs⟩
  | declare =>
    rw [scope?_declare, hs, Option.map_some]
    split
    · exact ⟨_, e.reexports, rfl⟩
    · exact ⟨e.members, e.reexports, rfl⟩
  | setReexports =>
    rw [scope?_setReexports, hs, Option.map_some]
    split
    · exact ⟨e.members, _, rfl⟩
    · exact ⟨e.members, e.reexports, rfl⟩
  | addBlock | setSpan | register => exact ⟨e.members, e.reexports, hs⟩

/-- Through an edit a declaration changes nothing but where it is written. -/
theorem Edit.decl {d : DeclId} {e : Declaration} (h : Edit t t') (hd : t.decl? d = some e) :
    ∃ span, t'.decl? d = some { e with span } := by
  cases h with
  | declare => exact ⟨e.span, (decl?_declare_of_hasDecl (hasDecl_of_decl? hd) _).trans hd⟩
  | setSpan =>
    rw [decl?_setSpan, hd, Option.map_some]
    split
    · exact ⟨_, rfl⟩
    · exact ⟨e.span, rfl⟩
  | allocScope | addBlock | setReexports | register => exact ⟨e.span, hd⟩

theorem Edits.scope {s : ScopeId} {e : Scope} (h : Edits t t') (hs : t.scope? s = some e) :
    ∃ members reexports, t'.scope? s = some { e with members, reexports } := by
  refine h.keep (P := fun t => ∃ members reexports, t.scope? s = some { e with members, reexports })
    ?_ ⟨e.members, e.reexports, hs⟩
  rintro t t' ⟨members, reexports, hs⟩ he
  obtain ⟨members', reexports', hs'⟩ := he.scope hs
  exact ⟨members', reexports', hs'⟩

theorem Edits.decl {d : DeclId} {e : Declaration} (h : Edits t t') (hd : t.decl? d = some e) :
    ∃ span, t'.decl? d = some { e with span } := by
  refine h.keep (P := fun t => ∃ span, t.decl? d = some { e with span }) ?_ ⟨e.span, hd⟩
  rintro t t' ⟨span, hd⟩ he
  obtain ⟨span', hd'⟩ := he.decl hd
  exact ⟨span', hd'⟩

/-! ## Instances -/

theorem Copying.edits (h : Copying t₀ key σ t) : Edits t₀ t := by
  induction h with
  | start => exact .refl
  | alloc hu _ hparent _ ih =>
    refine ih.tail (.allocScope rfl fun p hp => (hparent p hp).imp_right ?_)
    rintro ⟨e, he, hpe⟩
    exact ⟨key.template, e, hu.extends.scope_some he, hpe⟩
  | declare _ howner _ hs _ ih => exact ih.tail (.declareIn howner hs)
  | reexport _ _ _ _ _ _ ih _ => exact ih.tail (.setReexports _ _)

theorem Grows.edits (h : t.Grows u) : Edits t u := by
  induction h with
  | refl => exact .refl
  | @build t t' u key s _ hbuild _ ih =>
    refine ReflTransGen.trans ?_ ih
    obtain ⟨_, v, hc, hs, rfl⟩ := buildInstance_copying hbuild
    rw [← hc.instances_eq]
    exact hc.edits.tail (.register hs)

/-! ## Operations -/

theorem edits_addScope {parent s : ScopeId} {name : Name} {kind : ScopeKind}
    {params : Option (List Name)} (h : t.addScope? parent name kind params = some (s, t')) :
    Edits t t' ∧ t'.HasScope s := by
  obtain ⟨e, he, heq⟩ := Option.map_eq_some_iff.1 h
  cases heq
  have hparent := hasScope_of_scope? he
  have halloc : Edit t (t.allocScope ⟨some name, kind, some parent, .empty, params, none, []⟩).2 :=
    .allocScope rfl fun p hp => by cases hp; exact .inl hparent
  have hext := (Extends.refl t).allocScope ⟨some name, kind, some parent, .empty, params, none, []⟩
  refine ⟨(ReflTransGen.single halloc).tail (.declareIn rfl (hext.hasScope hparent)), ?_⟩
  rw [HasScope, scopes_size_declare]
  simp

theorem edits_foldl_declare {s : ScopeId} (hs : t.HasScope s) {f : Name → Declaration}
    (hf : ∀ n, (f n).owner = .scope s) (names : List Name) :
    Edits t (names.foldl (fun t n => (t.declare (f n)).2) t) := by
  induction names generalizing t with
  | nil => exact .refl
  | cons n ns ih =>
    have hs' : (t.declare (f n)).2.HasScope s := by
      rw [HasScope, scopes_size_declare]
      exact hs
    exact .head (.declareIn (hf n) hs) (ih hs')

/-- An operation is a sequence of edits. -/
theorem Change.edits (h : t.Change t') : Edits t t' := by
  cases h with
  | addScope ha => exact (edits_addScope ha).1
  | @addEnum parent s name enumerators _ ha =>
    obtain ⟨⟨s', u⟩, hu, heq⟩ := Option.map_eq_some_iff.1 ha
    cases heq
    obtain ⟨hedits, hs⟩ := edits_addScope hu
    exact hedits.trans (edits_foldl_declare hs (fun n => rfl) enumerators)
  | addBlock parent => exact .single (.addBlock parent)
  | declare hd =>
    obtain ⟨m, hm, heq⟩ := Option.map_eq_some_iff.1 hd
    cases heq
    exact .single (.declare hm)
  | addReexport hr =>
    obtain ⟨e, _, rfl⟩ := Option.map_eq_some_iff.1 hr
    split
    · exact .refl
    · exact .single (.setReexports _ _)
  | setSpan d span => exact .single (.setSpan d span)
  | instantiate key => exact (instantiate_growing key t).edits

/-- The only operation that enters an instance is the request for it. -/
theorem Change.instances (h : t.Change t') :
    t'.instances = t.instances ∨ ∃ key, t' = (SymbolTable.instantiate key t).2 := by
  cases h with
  | addScope ha =>
    obtain ⟨e, -, heq⟩ := Option.map_eq_some_iff.1 ha
    cases heq
    exact .inl (instances_declare _ _)
  | @addEnum parent s name enumerators _ ha =>
    obtain ⟨⟨s', u⟩, hu, heq⟩ := Option.map_eq_some_iff.1 ha
    obtain ⟨e, -, heq'⟩ := Option.map_eq_some_iff.1 hu
    cases heq
    cases heq'
    exact .inl (List.foldlRecOn (motive := fun v : SymbolTable => v.instances = t.instances)
      enumerators _ (instances_declare _ _) fun v hv _ _ => (instances_declare v _).trans hv)
  | addBlock parent => exact .inl rfl
  | declare hd =>
    obtain ⟨m, -, heq⟩ := Option.map_eq_some_iff.1 hd
    cases heq
    exact .inl (instances_declare t _)
  | addReexport hr =>
    obtain ⟨e, -, rfl⟩ := Option.map_eq_some_iff.1 hr
    split <;> exact .inl rfl
  | setSpan d span => exact .inl rfl
  | instantiate key => exact .inr ⟨key, rfl⟩

/-- An instance stays entered under its key. -/
theorem Change.instance_some (h : t.Change t') {s : ScopeId} (hs : t.instance? key = some s) :
    t'.instance? key = some s := by
  rcases h.instances with heq | ⟨key', rfl⟩
  · rw [instance?, heq]
    exact hs
  · exact (instantiate_growing key' t).instance_some hs

/-- To build a missing instance is to ask for it. -/
theorem Reachable.grows (h : t.Reachable) (hg : t.Grows u) : u.Reachable := by
  induction hg with
  | refl => exact h
  | @build t t' u key s hnew hbuild _ ih =>
    have hask : (instantiate key t).2 = t' := by rw [instantiate_run, hnew, hbuild]
    exact ih (hask ▸ h.change (.instantiate key))

/-- What holds of fresh tables and is kept by every edit holds of every table that came about from a
fresh one. -/
theorem Reachable.of_edit {P : SymbolTable → Prop} (hnew : ∀ limit, P (SymbolTable.new limit))
    (hedit : ∀ {t t'}, P t → Edit t t' → P t') (h : t.Reachable) : P t := by
  induction h with
  | new limit => exact hnew limit
  | change _ hc ih => exact hc.edits.keep hedit ih

end NameLookup.SymbolTable
