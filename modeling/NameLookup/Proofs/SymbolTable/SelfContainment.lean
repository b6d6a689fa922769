import NameLookup.Proofs.SymbolTable.Ownership
import NameLookup.Proofs.SymbolTable.Replicas
import NameLookup.Proofs.TypeExpr.Mentions

/-!
# Instances that are self-contained

An instance is self-contained if nothing in it refers to the generic body that it was copied from
(`SelfContained`). Copying redirects what a scope says of itself, the nested types that it declares
and its re-exports of these, and it redirects nothing else. So an instance is self-contained just
when the body of its template refers to its own scopes in these ways only (`RefersDirectly`,
`instance_selfContained_iff`). An alias for a nested type is a reference that is not redirected
(`aliased_body_leaks`).
-/

set_option autoImplicit false

namespace NameLookup

namespace TypeExpr

/-- The type mentions `r`, other than as the `template` of an application. -/
inductive RefersTo (template r : ScopeId) : TypeExpr → Prop
  | scope : RefersTo template r (.scope r)
  | applied {args : List TypeExpr} (h : r ≠ template) : RefersTo template r (.apply r args)
  | arg {s : ScopeId} {args : List TypeExpr} {a : TypeExpr} (ha : a ∈ args)
      (h : RefersTo template r a) : RefersTo template r (.apply s args)
  | base {b : TypeExpr} {n : Name} (h : RefersTo template r b) : RefersTo template r (.member b n)

variable {template r : ScopeId} {ty : TypeExpr}

/-- Replacing parameters removes no reference. -/
theorem RefersTo.substitute (h : ty.RefersTo template r) (σ : Substitution) :
    (ty.substitute σ).RefersTo template r := by
  induction h with
  | scope => exact .scope
  | applied hne => exact .applied hne
  | arg ha _ ih =>
    rw [TypeExpr.substitute, substituteAll_eq_map]
    exact .arg (List.mem_map_of_mem ha) ih
  | base _ ih => exact .base ih

/-- A reference that was not there before comes from what a parameter is bound to. -/
theorem refersTo_of_substitute {σ : Substitution} (h : (ty.substitute σ).RefersTo template r) :
    ty.RefersTo template r ∨ ∃ p b, σ.get? p = some b ∧ b.RefersTo template r := by
  induction ty using induct with
  | scalar n => exact .inl h
  | named n => exact .inl h
  | scope s => exact .inl h
  | param p =>
    rw [substitute] at h
    cases hp : σ.get? p with
    | none =>
      rw [hp] at h
      exact .inl h
    | some b =>
      rw [hp] at h
      exact .inr ⟨p, b, hp, h⟩
  | apply s args ih =>
    rw [substitute, substituteAll_eq_map] at h
    cases h with
    | applied hne => exact .inl (.applied hne)
    | arg ha h =>
      obtain ⟨a, hmem, rfl⟩ := List.mem_map.1 ha
      exact (ih a hmem h).imp_left (.arg hmem)
  | member b n ih =>
    cases h with
    | base h => exact (ih h).imp_left .base

end TypeExpr

namespace SymbolTable

variable {t u : SymbolTable} {key : InstanceKey} {s o c r : ScopeId}

/-- Nothing that was entered between `t` and `u` refers to a scope of the body of `template`. -/
def SelfContained (t u : SymbolTable) (template : ScopeId) : Prop :=
  (∀ d e ty r, u.decl? d = some e → ¬ t.HasDecl d → e.type = some ty → t.InBody template r →
    ¬ ty.RefersTo template r) ∧
  ∀ c e r, u.scope? c = some e → ¬ t.HasScope c → r ∈ e.reexports → ¬ t.InBody template r

/-- In the body of `template`, a type that refers to a scope of the body is that of a member of this
very scope, or declares the scope as a nested type; and what is re-exported of the body is nested
types that the scope declares. -/
def RefersDirectly (t : SymbolTable) (template : ScopeId) : Prop :=
  ∀ o e, t.InBody template o → t.scope? o = some e →
    (∀ d ∈ e.members.decls, ∀ decl ty r, t.decl? d = some decl → decl.type = some ty →
      t.InBody template r → ty.RefersTo template r → ty = .scope o ∨ t.Nests o decl r) ∧
    ∀ r ∈ e.reexports, t.InBody template r → t.DeclaresNested o r

/-! ## New entries -/

theorem Registered.hasScope_owner (h : t.Registered) {d : DeclId} {e : Declaration}
    (hd : t.decl? d = some e) (howner : e.owner = .scope s) :
    t.HasScope s ∧ d ∈ (t.membersOf (.scope s)).decls := by
  have hmem : d ∈ (t.membersOf (.scope s)).decls := by
    rw [h.listed]
    exact mem_select.2 ⟨e, hd, decide_eq_true howner⟩
  refine ⟨?_, hmem⟩
  cases hs : t.scope? s with
  | some e => exact hasScope_of_scope? hs
  | none =>
    rw [membersOf, members?, hs] at hmem
    exact absurd hmem List.not_mem_nil

/-- A declaration that was not there before belongs to a scope that was not there before: the others,
and the blocks, have the members that they had. -/
theorem Extends.owner_of_new (h : t.Extends u) (ht : t.Sound) (hu : u.Registered) {d : DeclId}
    {e : Declaration} (hd : u.decl? d = some e) (hnew : ¬ t.HasDecl d) :
    ∃ c, e.owner = .scope c ∧ ¬ t.HasScope c := by
  have hmem : d ∈ (u.membersOf e.owner).decls := by
    rw [hu.listed]
    exact mem_select.2 ⟨e, hd, decide_eq_true rfl⟩
  have hold : u.members? e.owner ≠ t.members? e.owner := fun heq => by
    rw [membersOf, heq, ← membersOf] at hmem
    exact hnew (ht.hasDecl_membersOf (.inl hmem))
  cases howner : e.owner with
  | block b => exact absurd (by rw [howner, members?, members?, h.block b]) hold
  | scope c =>
    refine ⟨c, rfl, fun hc => hold ?_⟩
    rw [howner, members?, members?, h.scope hc]

/-! ## Self-contained instances -/

namespace Replicated

variable {e : Scope} {params : List Name} {made : Copies}
  (h : Replicated t u key s e params made)
include h

/-- A copy is not in the body. -/
theorem not_inBody_copy (hmade : (o, c) ∈ made) : ¬ t.InBody key.template c := fun hc =>
  h.not_hasScope_copy hmade (hasScope_of_inBody hc (hasScope_of_scope? h.template))

theorem exists_original (hc : ¬ t.HasScope c) (hu : u.HasScope c) : ∃ o, (o, c) ∈ made :=
  h.mem_newScopes_iff.1 (mem_newScopes.2 ⟨hc, hu⟩)

/-- Whatever a self-contained instance refers to was redirected. -/
theorem refersDirectly (ht : t.Sound) (hr : t.Registered) (hself : SelfContained t u key.template) :
    t.RefersDirectly key.template := by
  intro o e₀ ho he₀
  obtain ⟨c, hmade⟩ := h.exists_copy ht ho
  obtain ⟨e, e', he, he', -, -, hdecls, hreexports⟩ := h.copies _ hmade
  obtain rfl : e₀ = e := Option.some.inj (he₀.symm.trans he)
  have hc : ¬ t.HasScope c := h.not_hasScope_copy hmade
  refine ⟨fun d hd decl ty r hdecl hty hbody hrefers => ?_, fun r hr hbody => ?_⟩
  · obtain ⟨d', -, decl', type, hdecl', hcopy, htype⟩ := exists_of_mem_left hdecls hd
    obtain rfl : decl = decl' := Option.some.inj (hdecl.symm.trans hdecl')
    have hnew : ¬ t.HasDecl d' := fun hold =>
      hc (hr.hasScope_owner ((h.extends_.decl hold).symm.trans hcopy) rfl).1
    rw [hty] at htype
    cases htype with
    | own => exact .inl rfl
    | nested hkind hstands =>
      cases hrefers
      exact .inr ⟨hkind, hty, hstands⟩
    | other => exact absurd (hrefers.substitute _) (hself.1 d' _ _ r hcopy hnew rfl hbody)
  · obtain ⟨r', hr', hcopy⟩ := exists_of_mem_left hreexports hr
    cases hcopy with
    | nested hdeclares => exact hdeclares
    | other => exact absurd hbody (hself.2 c e' r he' hc hr')

/-- What a copied type refers to in the body, its original refers to in a way that is not
redirected. -/
theorem original_refersTo
    (hargs : ∀ a ∈ key.args, ∀ r, t.InBody key.template r → ¬ a.RefersTo key.template r)
    (hmade : (o, c) ∈ made) {kind : DeclKind} {type : Option TypeExpr} {ty : TypeExpr}
    (htype : TypeCopy t u (.ofParams params key.args) made o c kind type (some ty))
    (hbody : t.InBody key.template r) (hrefers : ty.RefersTo key.template r) :
    ∃ ty₀, type = some ty₀ ∧ ty₀.RefersTo key.template r ∧ ty₀ ≠ .scope o ∧
      ¬ (kind = .nestedType ∧ ty₀ = .scope r ∧ t.StandsIn o r) := by
  generalize hty : some ty = copied at htype
  cases htype with
  | own =>
    cases hty
    cases hrefers
    exact absurd hbody (h.not_inBody_copy hmade)
  | nested _ _ hmade' =>
    cases hty
    cases hrefers
    exact absurd hbody (h.not_inBody_copy hmade')
  | other hno =>
    obtain ⟨ty₀, rfl, rfl⟩ := Option.map_eq_some_iff.1 hty.symm
    rcases TypeExpr.refersTo_of_substitute hrefers with hrefers | ⟨p, b, hp, hrefers⟩
    · refine ⟨ty₀, rfl, hrefers, ?_, ?_⟩
      · rintro rfl
        exact (hno o rfl).1 rfl
      · rintro ⟨hkind, rfl, hstands⟩
        exact (hno r rfl).2 ⟨hkind, hstands⟩
    · have hb : b ∈ key.args :=
        Substitution.mem_bindings_ofParams (Substitution.mem_bindings_of_get? hp)
      exact absurd hrefers (hargs b hb r hbody)

/-- Where all references are redirected, the instance is self-contained. -/
theorem selfContained (ht : t.Sound) (hu : u.Registered)
    (hargs : ∀ a ∈ key.args, ∀ r, t.InBody key.template r → ¬ a.RefersTo key.template r)
    (hdirect : t.RefersDirectly key.template) : SelfContained t u key.template := by
  refine ⟨fun d decl ty r hd hnew hty hbody hrefers => ?_, fun c e' r he' hc hr hbody => ?_⟩
  · obtain ⟨c, howner, hc⟩ := h.extends_.owner_of_new ht hu hd hnew
    obtain ⟨huc, hmem⟩ := hu.hasScope_owner hd howner
    obtain ⟨o, hmade⟩ := h.exists_original hc huc
    obtain ⟨e₀, e', he₀, he', -, -, hdecls, -⟩ := h.copies _ hmade
    rw [membersOf_of_scope? he'] at hmem
    obtain ⟨d₀, hd₀, decl₀, type, hdecl₀, hcopy, htype⟩ := exists_of_mem_right hdecls hmem
    cases hd.symm.trans hcopy
    change type = some ty at hty
    rw [hty] at htype
    obtain ⟨ty₀, hty₀, hrefers₀, hown, hnested⟩ := h.original_refersTo hargs hmade htype hbody hrefers
    rcases (hdirect o e₀ (h.within _ hmade) he₀).1 d₀ hd₀ decl₀ ty₀ r hdecl₀ hty₀ hbody hrefers₀ with
      heq | ⟨hkind, hscope, hstands⟩
    · exact hown heq
    · exact hnested ⟨hkind, Option.some.inj (hty₀.symm.trans hscope), hstands⟩
  · obtain ⟨o, hmade⟩ := h.exists_original hc (hasScope_of_scope? he')
    obtain ⟨e₀, e'', he₀, he'', -, -, -, hreexports⟩ := h.copies _ hmade
    cases he'.symm.trans he''
    obtain ⟨r₀, hr₀, hcopy⟩ := exists_of_mem_right hreexports hr
    cases hcopy with
    | nested _ hmade' => exact h.not_inBody_copy hmade' hbody
    | other hno => exact hno ((hdirect o e₀ (h.within _ hmade) he₀).2 _ hr₀ hbody)

end Replicated

/-- A fresh instance is made of faithful copies of the scopes in the body of its template. If its
arguments do not refer to the body, nothing in it does just when the body refers to its own scopes
directly. -/
theorem instance_selfContained_iff (ht : t.Reachable) (hnew : t.instance? key = none)
    (h : instantiate key t = (.ok s, u))
    (hargs : ∀ a ∈ key.args, ∀ r, t.InBody key.template r → ¬ a.RefersTo key.template r) :
    (∃ e params made, Replicated t u key s e params made) ∧
      (SelfContained t u key.template ↔ t.RefersDirectly key.template) := by
  have hu : u.Reachable := by
    have hafter := ht.change (.instantiate key)
    rwa [h] at hafter
  have hbuild : buildInstance key t = (.ok s, u) := by
    rwa [instantiate_run, hnew] at h
  obtain ⟨e, params, made, hr⟩ := buildInstance_replicates ht.sound hbuild
  exact ⟨⟨e, params, made, hr⟩, hr.refersDirectly ht.sound ht.registered,
    hr.selfContained ht.sound hu.registered hargs⟩

/-- `Box<P>` with a class `detail`, which has an alias of itself; `Box` re-exports it. -/
def boxOfDetail : SymbolTable :=
  (new defaultInstantiationLimit)
    |>.withScope global "Box" .classType (some ["P"])
    |>.withScope ⟨1⟩ "detail" .classType none
    |>.withDecl ⟨"self", .typeAlias, .scope ⟨2⟩, some (.scope ⟨2⟩), none⟩
    |>.withReexport ⟨1⟩ ⟨2⟩

theorem boxOfDetail_reachable : boxOfDetail.Reachable :=
  ((((Reachable.new _).withScope _ _ _ _).withScope _ _ _ _).withDecl _).withReexport _ _

theorem boxOfDetail_inBody (h : boxOfDetail.InBody ⟨1⟩ o) : o = ⟨1⟩ ∨ o = ⟨2⟩ := by
  have hle := boxOfDetail_reachable.sound.le_of_inBody h
  have hlt : o.index < 3 := hasScope_of_inBody h (by decide)
  obtain ⟨i⟩ := o
  have : i = 1 ∨ i = 2 := by simp only at hle hlt; omega
  exact this.imp (congrArg _) (congrArg _)

theorem boxOfDetail_refersDirectly : boxOfDetail.RefersDirectly ⟨1⟩ := by
  have hnested : boxOfDetail.DeclaresNested ⟨1⟩ ⟨2⟩ :=
    ⟨⟨1⟩, List.mem_singleton_self _, _, by rfl, rfl, rfl, _, by rfl, rfl⟩
  intro o e ho he
  rcases boxOfDetail_inBody ho with rfl | rfl
  · cases he
    refine ⟨fun d hd decl ty r hdecl hty _ hrefers => ?_, fun r hr _ => ?_⟩
    · cases List.mem_singleton.1 hd
      cases hdecl
      cases hty
      cases hrefers
      exact .inr ⟨rfl, rfl, _, by rfl, rfl⟩
    · cases List.mem_singleton.1 hr
      exact hnested
  · cases he
    refine ⟨fun d hd decl ty r hdecl hty _ _ => ?_, fun r hr _ => absurd hr List.not_mem_nil⟩
    cases List.mem_singleton.1 hd
    cases hdecl
    cases hty
    exact .inl rfl

/-- `Box<int>` is self-contained. -/
theorem instance_selfContained_of_boxOfDetail :
    ∃ u, instantiate ⟨⟨1⟩, [.scalar "int"]⟩ boxOfDetail = (.ok ⟨3⟩, u) ∧
      SelfContained boxOfDetail u ⟨1⟩ := by
  have hrun : (instantiate ⟨⟨1⟩, [.scalar "int"]⟩ boxOfDetail).1 = .ok ⟨3⟩ := by rfl
  refine ⟨_, Attempt.run_of_fst hrun, ?_⟩
  refine (instance_selfContained_iff boxOfDetail_reachable (by rfl) (Attempt.run_of_fst hrun)
    fun a ha r _ hrefers => ?_).2.2 boxOfDetail_refersDirectly
  cases List.mem_singleton.1 ha
  cases hrefers

/-- `Box<P>` with a class `detail` and an alias for it. -/
def boxWithAlias : SymbolTable :=
  (new defaultInstantiationLimit)
    |>.withScope global "Box" .classType (some ["P"])
    |>.withScope ⟨1⟩ "detail" .classType none
    |>.withDecl ⟨"alias", .typeAlias, .scope ⟨1⟩, some (.scope ⟨2⟩), none⟩

/-- Not every instance is self-contained: in `Box<int>` the alias still stands for the `detail` of the
generic body. -/
theorem aliased_body_leaks :
    ¬ ∀ (t u : SymbolTable) (key : InstanceKey) (s : ScopeId), t.Reachable →
      t.instance? key = none → instantiate key t = (.ok s, u) →
      (∀ a ∈ key.args, ∀ r, t.InBody key.template r → ¬ a.RefersTo key.template r) →
      SelfContained t u key.template := by
  intro hall
  have hreachable : boxWithAlias.Reachable :=
    (((Reachable.new _).withScope _ _ _ _).withScope _ _ _ _).withDecl _
  have hrun : (instantiate ⟨⟨1⟩, [.scalar "int"]⟩ boxWithAlias).1 = .ok ⟨3⟩ := by rfl
  have hnested : boxWithAlias.DeclaresNested ⟨1⟩ ⟨2⟩ :=
    ⟨⟨1⟩, List.mem_cons_self, _, by rfl, rfl, rfl, _, by rfl, rfl⟩
  have hself := hall boxWithAlias _ _ _ hreachable (by rfl) (Attempt.run_of_fst hrun)
    fun a ha r _ hrefers => by
      cases List.mem_singleton.1 ha
      cases hrefers
  refine hself.1 ⟨4⟩ ⟨"alias", .typeAlias, .scope ⟨3⟩, some (.scope ⟨2⟩), none⟩ (.scope ⟨2⟩) ⟨2⟩
    (by rfl) (by decide : ¬ 4 < 3) rfl (.single hnested) .scope

end SymbolTable

end NameLookup
