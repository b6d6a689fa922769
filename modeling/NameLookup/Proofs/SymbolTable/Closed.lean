import NameLookup.Proofs.SymbolTable.ChainStability
import NameLookup.Proofs.TypeExpr.Mentions

/-!
# Closed tables

`Closed t`: every scope id that is mentioned in `t` stands for a scope of `t`. Parents and built
instances do so in every sound table; here it is asked of types, re-exports, instance keys and
blocks as well. A table stays closed while instances of keys that it knows are built
(`Closed.build`). Re-exports stay inside the table whatever is built (`ReexportsIn.grows`).
-/

set_option autoImplicit false

namespace NameLookup.SymbolTable

/-- The scopes that the type mentions exist. -/
def Knows (t : SymbolTable) (ty : TypeExpr) : Prop := ∀ s ∈ ty.mentions, t.HasScope s

instance (t : SymbolTable) (ty : TypeExpr) : Decidable (t.Knows ty) :=
  inferInstanceAs (Decidable (∀ s ∈ ty.mentions, t.HasScope s))

/-- The types that the parameters are bound to mention scopes that exist. -/
def KnowsBindings (t : SymbolTable) (σ : Substitution) : Prop := ∀ b ∈ σ.bindings, t.Knows b.2

instance (t : SymbolTable) (σ : Substitution) : Decidable (t.KnowsBindings σ) :=
  inferInstanceAs (Decidable (∀ b ∈ σ.bindings, t.Knows b.2))

/-- The template and the arguments of the key mention scopes that exist. -/
def KnowsKey (t : SymbolTable) (key : InstanceKey) : Prop :=
  t.Knows (.apply key.template key.args)

/-- The scopes that are re-exported exist. -/
def ReexportsIn (t : SymbolTable) : Prop :=
  ∀ s e r, t.scope? s = some e → r ∈ e.reexports → t.HasScope r

structure Closed (t : SymbolTable) : Prop where
  types : ∀ {d e ty}, t.decl? d = some e → e.type = some ty → t.Knows ty
  keys : ∀ {s e key}, t.scope? s = some e → e.instanceOf = some key → t.KnowsKey key
  reexports : t.ReexportsIn
  blocks : t.BlocksIn

variable {t u t₀ : SymbolTable} {ty : TypeExpr} {σ : Substitution} {key : InstanceKey}

/-! ## Known types -/

theorem Knows.mono (h : t.Knows ty) (he : t.Extends u) : u.Knows ty :=
  fun s hs => he.hasScope (h s hs)

theorem KnowsBindings.mono (h : t.KnowsBindings σ) (he : t.Extends u) : u.KnowsBindings σ :=
  fun b hb => (h b hb).mono he

theorem KnowsBindings.bound (h : t.KnowsBindings σ) {p : Name} (hp : σ.get? p = some ty) :
    t.Knows ty :=
  h _ (Substitution.mem_bindings_of_get? hp)

theorem knows_scope {s : ScopeId} : t.Knows (.scope s) ↔ t.HasScope s :=
  ⟨fun h => h s (List.mem_singleton_self s), fun h r hr => by rwa [List.mem_singleton.1 hr]⟩

theorem knows_apply {s : ScopeId} {args : List TypeExpr} :
    t.Knows (.apply s args) ↔ t.HasScope s ∧ ∀ a ∈ args, t.Knows a :=
  TypeExpr.forall_mentions_apply

theorem Knows.substitute (h : t.Knows ty) (hσ : t.KnowsBindings σ) : t.Knows (ty.substitute σ) :=
  TypeExpr.forall_mentions_substitute h fun _ _ hp => hσ.bound hp

theorem KnowsKey.ofParams (h : t.KnowsKey key) (params : List Name) :
    t.KnowsBindings (.ofParams params key.args) :=
  fun _ hb => (knows_apply.1 h).2 _ (Substitution.mem_bindings_ofParams hb)

/-! ## Re-exports -/

namespace ReexportsIn

theorem allocScope (h : t.ReexportsIn) {e : Scope} (he : ∀ r ∈ e.reexports, t.HasScope r) :
    (t.allocScope e).2.ReexportsIn := by
  intro s e' r hs hr
  have hext := (Extends.refl t).allocScope e
  rw [scope?_allocScope] at hs
  split at hs
  · cases hs
    exact hext.hasScope (he r hr)
  · exact hext.hasScope (h s e' r hs hr)

theorem declare (h : t.ReexportsIn) (d : Declaration) : (t.declare d).2.ReexportsIn := by
  intro s e r hs hr
  rw [scope?_declare] at hs
  obtain ⟨e₀, he₀, rfl⟩ := Option.map_eq_some_iff.1 hs
  rw [HasScope, scopes_size_declare]
  refine h s e₀ r he₀ ?_
  split at hr <;> exact hr

theorem setReexports (h : t.ReexportsIn) (s : ScopeId) {targets : List ScopeId}
    (ht : ∀ r ∈ targets, t.HasScope r) : (t.setReexports s targets).ReexportsIn := by
  intro s' e r hs hr
  rw [scope?_setReexports] at hs
  obtain ⟨e₀, he₀, rfl⟩ := Option.map_eq_some_iff.1 hs
  rw [HasScope, scopes_size_setReexports]
  split at hr
  · exact ht r hr
  · exact h s' e₀ r he₀ hr

/-- What a copied scope re-exports was re-exported by its template or is a copy itself. -/
theorem copying (h : t₀.ReexportsIn) (hc : Copying t₀ key σ t) : t.ReexportsIn := by
  induction hc with
  | start => exact h
  | alloc _ _ _ _ ih => exact ih.allocScope fun r hr => absurd hr List.not_mem_nil
  | declare _ _ _ _ _ ih => exact ih.declare _
  | @reexport t t₁ s r src targets _ _ _ hle hsrc htargets ih ih₁ =>
    refine ih.setReexports s fun x hx => ?_
    rcases htargets x hx with hx | hx
    · exact hx
    · exact Nat.lt_of_lt_of_le (ih₁ r src x hsrc hx) hle

theorem grows (h : t.ReexportsIn) (hg : t.Grows u) : u.ReexportsIn := by
  induction hg with
  | refl => exact h
  | @build t t' u key s _ hbuild _ ih =>
    refine ih ?_
    obtain ⟨_, v, hc, -, rfl⟩ := buildInstance_copying hbuild
    exact fun s e r => h.copying hc s e r

end ReexportsIn

/-! ## Closed tables -/

namespace Closed

theorem new (limit : Nat) : (new limit).Closed where
  types hd := by cases hd
  keys {s e key} hs hk := by
    obtain ⟨_ | i⟩ := s <;> cases hs
    cases hk
  reexports s e r hs hr := by
    obtain ⟨_ | i⟩ := s <;> cases hs
    exact absurd hr List.not_mem_nil
  blocks b e s hb := by cases hb

theorem allocScope (h : t.Closed) {e : Scope} (hkey : ∀ key, e.instanceOf = some key → t.KnowsKey key)
    (he : ∀ r ∈ e.reexports, t.HasScope r) : (t.allocScope e).2.Closed where
  types hd hty := (h.types hd hty).mono ((Extends.refl t).allocScope e)
  keys {s e' key} hs hk := by
    have hext := (Extends.refl t).allocScope e
    rw [scope?_allocScope] at hs
    split at hs
    · cases hs
      exact (hkey key hk).mono hext
    · exact (h.keys hs hk).mono hext
  reexports := h.reexports.allocScope he
  blocks := h.blocks.mono ((Extends.refl t).allocScope e)

theorem declare (h : t.Closed) {d : Declaration} (hd : ∀ ty, d.type = some ty → t.Knows ty) :
    (t.declare d).2.Closed where
  types {id e ty} he hty s hs := by
    rw [HasScope, scopes_size_declare]
    rw [decl?_declare] at he
    split at he
    · cases he
      exact hd ty hty s hs
    · exact h.types he hty s hs
  keys {s e key} hs hk r hr := by
    rw [HasScope, scopes_size_declare]
    rw [scope?_declare] at hs
    obtain ⟨e₀, he₀, rfl⟩ := Option.map_eq_some_iff.1 hs
    refine h.keys he₀ ?_ r hr
    split at hk <;> exact hk
  reexports := h.reexports.declare d
  blocks b e s hb hp := by
    rw [HasScope, scopes_size_declare]
    rw [block?_declare] at hb
    obtain ⟨e₀, he₀, rfl⟩ := Option.map_eq_some_iff.1 hb
    refine h.blocks b e₀ s he₀ ?_
    split at hp <;> exact hp

theorem setReexports (h : t.Closed) (s : ScopeId) {targets : List ScopeId}
    (ht : ∀ r ∈ targets, t.HasScope r) : (t.setReexports s targets).Closed where
  types {d e ty} hd hty r hr := by
    rw [HasScope, scopes_size_setReexports]
    exact h.types hd hty r hr
  keys {s' e key} hs hk r hr := by
    rw [HasScope, scopes_size_setReexports]
    rw [scope?_setReexports] at hs
    obtain ⟨e₀, he₀, rfl⟩ := Option.map_eq_some_iff.1 hs
    refine h.keys he₀ ?_ r hr
    split at hk <;> exact hk
  reexports := h.reexports.setReexports s ht
  blocks b e r hb hp := by
    rw [HasScope, scopes_size_setReexports]
    exact h.blocks b e r hb hp

theorem copying (h : t₀.Closed) (hkey : t₀.KnowsKey key) (hσ : t₀.KnowsBindings σ)
    (hc : Copying t₀ key σ t) : t.Closed := by
  induction hc with
  | start => exact h
  | alloc hu _ _ hk ih =>
    refine ih.allocScope (fun k he => ?_) fun r hr => absurd hr List.not_mem_nil
    rw [hk k he]
    exact hkey.mono hu.extends
  | declare hu _ _ _ htype ih =>
    refine ih.declare fun ty hty => ?_
    cases htype ty hty with
    | scope hs => exact knows_scope.2 hs
    | substituted hd hty₀ => exact (ih.types hd hty₀).substitute (hσ.mono hu.extends)
  | @reexport t t₁ s r src targets _ _ _ hle hsrc htargets ih ih₁ =>
    refine ih.setReexports s fun x hx => ?_
    rcases htargets x hx with hx | hx
    · exact hx
    · exact Nat.lt_of_lt_of_le (ih₁.reexports r src x hsrc hx) hle

/-- Building the instance of a key that the table knows keeps the table closed. -/
theorem build (h : t.Closed) (hkey : t.KnowsKey key) {s : ScopeId}
    (hb : buildInstance key t = (.ok s, u)) : u.Closed := by
  obtain ⟨params, v, hc, -, rfl⟩ := buildInstance_copying hb
  have hcopy := h.copying hkey (hkey.ofParams params) hc
  exact ⟨hcopy.types, hcopy.keys, hcopy.reexports, hcopy.blocks⟩

theorem addBlock (h : t.Closed) {parent : Owner} (hparent : ∀ s, parent = .scope s → t.HasScope s) :
    (t.addBlock parent).2.Closed where
  types hd hty := h.types hd hty
  keys hs hk := h.keys hs hk
  reexports := h.reexports
  blocks b e s hb hp := by
    rw [block?_addBlock] at hb
    split at hb
    · cases hb
      exact hparent s hp
    · exact h.blocks b e s hb hp

theorem withScope (h : t.Closed) (parent : ScopeId) (name : Name) (kind : ScopeKind)
    (params : Option (List Name)) : (t.withScope parent name kind params).Closed := by
  unfold SymbolTable.withScope addScope?
  cases t.scope? parent with
  | none => exact h
  | some e =>
    refine (h.allocScope (fun key hk => by cases hk) fun r hr => absurd hr List.not_mem_nil).declare
      fun ty hty => ?_
    cases hty
    refine knows_scope.2 ?_
    simp [HasScope, SymbolTable.allocScope]

theorem withDecl (h : t.Closed) {d : Declaration} (hd : ∀ ty, d.type = some ty → t.Knows ty) :
    (t.withDecl d).Closed := by
  unfold SymbolTable.withDecl declare?
  cases t.members? d.owner with
  | none => exact h
  | some m => exact h.declare hd

end Closed

end NameLookup.SymbolTable
