import NameLookup.Proofs.ExportClosure

/-!
# How exports are listed

Exports list the importable members of each scope that is reached by re-exports, scope by scope,
beginning with the scope that is imported (`decls_exportsOf`, `head?_reexportClosure`). No
declaration is listed twice (`Registered.nodup_exportsOf`), since it has one owner and no scope is
reached twice; and the index by name says what the list says (`named_exportsOf`). Altogether:
`exports_collected`.
-/

set_option autoImplicit false

namespace NameLookup.SymbolTable

variable {t : SymbolTable} {s : ScopeId}

/-- The scope that is imported comes first. -/
theorem head?_reexportClosure (t : SymbolTable) (s : ScopeId) :
    (t.reexportClosure s).head? = some s := by
  cases collects_exportsOf t s .nameSpace with
  | seen hs _ => exact absurd hs List.not_mem_nil
  | visit _ inner hdone =>
    cases hdone
    obtain ⟨others, hothers⟩ := inner.keeps
    exact List.head?_eq_some_iff.2 ⟨others, hothers.symm⟩

theorem named_exportsOf (t : SymbolTable) (s : ScopeId) (kind : ScopeKind) (name : Name) :
    (t.exportsOf s kind).members.named name =
      (t.exportsOf s kind).members.decls.filter fun d => (t.decl? d).any (·.name = name) := by
  revert name
  refine exportsOf_induction (P := fun m => ∀ name,
    m.named name = m.decls.filter fun d => (t.decl? d).any (·.name = name)) (fun _ => rfl) ?_ s kind
  intro m r e d decl hm hr hd hdecl hi name
  rw [Members.named_push, Members.decls_push, List.filter_append, List.filter_singleton, hdecl,
    Option.any_some, ← hm]
  by_cases hname : name = decl.name
  · rw [if_pos hname, hname]
    simp
  · rw [if_neg hname]
    simp [Ne.symm hname]

namespace Registered

variable (h : t.Registered)
include h

theorem importables_eq (r : ScopeId) : t.importables r = t.select fun decl =>
    decl.owner = .scope r ∧ (t.scope? r).any (isImportable ·.kind decl) := by
  rw [importables, h.listed]
  unfold select
  rw [List.filter_filter]
  refine List.filter_congr fun d _ => ?_
  cases t.decl? d <;> cases t.scope? r <;> simp [Bool.and_comm]

theorem nodup_exportsOf (s : ScopeId) (kind : ScopeKind) :
    (t.exportsOf s kind).members.decls.Nodup := by
  rw [decls_exportsOf, List.nodup_flatMap]
  constructor
  · intro r _
    rw [h.importables_eq]
    exact select_nodup t _
  · -- a declaration has one owner, so no two scopes have it
    refine (searched_reexportClosure t s).nodup.imp fun {r r'} hne d hd hd' => hne ?_
    obtain ⟨_, decl, -, hdecl, howner, -⟩ := h.mem_importables.1 hd
    obtain ⟨_, decl', -, hdecl', howner', -⟩ := h.mem_importables.1 hd'
    cases hdecl.symm.trans hdecl'
    cases howner.symm.trans howner'
    rfl

end Registered

/-- No instance has to be built to work out what a scope exports that is no generic body. -/
theorem targetExports_plain {e : Scope} (hs : t.scope? s = some e) (htemplate : e.isTemplate = false) :
    targetExports ⟨s, []⟩ t = (.ok (t.exportsOf s e.kind), t) := by
  have hread : readExports s t = (.ok (t.exportsOf s e.kind), t) := by
    rw [readExports_run, hs]
    simp only [htemplate, Bool.false_eq_true, if_false]
  rw [targetExports_run]
  exact hread

/-- Working out afresh what an existing scope exports, other than a generic body, succeeds and leaves
the table alone. The search that it makes is the only one there is from the scope, whatever cycles
re-exports make and whether or not they exist. The scopes that it reaches are those re-exported by
any number of steps, each once and the scope itself first; the exports list the importable
declarations of one after the other in the order of declaration, so they are those that the scope
offers, each once; and under a name they have what the list has, in its order. -/
theorem exports_collected (ht : t.Reachable) {e : Scope} (hs : t.scope? s = some e)
    (htemplate : e.isTemplate = false) :
    ∃ (x : Exports) (rs : List ScopeId),
      ExportCache.empty.fetch ⟨s, []⟩ t = (.ok (x, ⟨[(⟨s, []⟩, x)], 0⟩), t) ∧
      x.scope = s ∧ x.kind = e.kind ∧
      (∀ st, t.Collects [s] ([], .empty) st ↔ st = (rs, x.members)) ∧
      (∀ r, r ∈ rs ↔ t.Reexported s r) ∧ rs.Nodup ∧ rs.head? = some s ∧
      (x.members.decls = rs.flatMap fun r => t.select fun decl =>
        decl.owner = .scope r ∧ (t.scope? r).any (isImportable ·.kind decl)) ∧
      (∀ d, d ∈ x.members.decls ↔ t.Offers s d) ∧ x.members.decls.Nodup ∧
      ∀ name, x.members.named name =
        x.members.decls.filter fun d => (t.decl? d).any (·.name = name) := by
  have h := ht.registered
  have hcollects := collects_exportsOf t s e.kind
  have hfetch : ExportCache.empty.fetch ⟨s, []⟩ t =
      (.ok (t.exportsOf s e.kind, ⟨[(⟨s, []⟩, t.exportsOf s e.kind)], 0⟩), t) := by
    rw [ExportCache.fetch_run, targetExports_plain hs htemplate]
    rfl
  refine ⟨t.exportsOf s e.kind, t.reexportClosure s, hfetch, rfl, rfl, fun st => ?_,
    fun r => mem_reexportClosure, (searched_reexportClosure t s).nodup, head?_reexportClosure t s,
    ?_, fun d => h.mem_exportsOf e.kind, h.nodup_exportsOf s e.kind, named_exportsOf t s e.kind⟩
  · constructor
    · exact fun hst => hcollects.unique hst
    · rintro rfl
      exact hcollects
  · rw [decls_exportsOf, funext h.importables_eq]

/-- Namespaces `A` and `B` and a class `C`, each with an `x` that can be imported. `A` re-exports the
other two; `B` re-exports `C`, itself, and a scope that does not exist; and `C` re-exports `A`. -/
def ring : SymbolTable :=
  (new defaultInstantiationLimit)
    |>.withScope global "A" .nameSpace none
    |>.withScope global "B" .nameSpace none
    |>.withScope global "C" .classType none
    |>.withDecl ⟨"x", .var, .scope ⟨2⟩, none, none⟩
    |>.withDecl ⟨"x", .var, .scope ⟨1⟩, none, none⟩
    |>.withDecl ⟨"x", .staticData, .scope ⟨3⟩, none, none⟩
    |>.withDecl ⟨"n", .nonStaticMember, .scope ⟨3⟩, none, none⟩
    |>.withDecl ⟨"y", .var, .scope ⟨1⟩, none, none⟩
    |>.withReexport ⟨1⟩ ⟨2⟩
    |>.withReexport ⟨1⟩ ⟨3⟩
    |>.withReexport ⟨2⟩ ⟨3⟩
    |>.withReexport ⟨2⟩ ⟨2⟩
    |>.withReexport ⟨2⟩ ⟨9⟩
    |>.withReexport ⟨3⟩ ⟨1⟩

theorem ring_reachable : ring.Reachable :=
  ((((((((((((((Reachable.new _).withScope _ _ _ _).withScope _ _ _ _).withScope _ _ _ _).withDecl
    _).withDecl _).withDecl _).withDecl _).withDecl _).withReexport _ _).withReexport _ _).withReexport
    _ _).withReexport _ _).withReexport _ _).withReexport _ _

/-- From `A` the search comes to `B`, from there to `C` and to the missing scope, and turns back at
`C`, which it has reached before. -/
theorem exports_collected_of_ring :
    ∃ x, ExportCache.empty.fetch ⟨⟨1⟩, []⟩ ring = (.ok (x, ⟨[(⟨⟨1⟩, []⟩, x)], 0⟩), ring) ∧
      (∀ st, ring.Collects [⟨1⟩] ([], .empty) st ↔ st = ([⟨1⟩, ⟨2⟩, ⟨3⟩, ⟨9⟩], x.members)) ∧
      x.members.decls = [⟨4⟩, ⟨7⟩, ⟨3⟩, ⟨5⟩] ∧ x.members.decls.Nodup ∧
      ring.Offers ⟨1⟩ ⟨5⟩ ∧ ¬ ring.Offers ⟨1⟩ ⟨6⟩ ∧
      x.members.named "x" = [⟨4⟩, ⟨3⟩, ⟨5⟩] := by
  obtain ⟨x, rs, hfetch, -, -, hsearch, -, -, -, -, hoffers, hnodup, hnamed⟩ :=
    exports_collected ring_reachable (s := ⟨1⟩) (by rfl) rfl
  obtain ⟨rfl, hmembers⟩ :=
    Prod.mk.inj ((hsearch _).1 (collects_exportsOf ring ⟨1⟩ .nameSpace))
  have hdecls : x.members.decls = [⟨4⟩, ⟨7⟩, ⟨3⟩, ⟨5⟩] := by
    rw [← hmembers]
    rfl
  refine ⟨x, hfetch, hsearch, hdecls, hnodup, ?_, ?_, ?_⟩
  · rw [← hoffers, hdecls]
    decide
  · rw [← hoffers, hdecls]
    decide
  · rw [hnamed, hdecls]
    rfl

end NameLookup.SymbolTable
