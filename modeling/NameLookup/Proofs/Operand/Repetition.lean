import NameLookup.Proofs.Operand.Setting
import NameLookup.Proofs.SymbolTable.ChainStability

/-!
# Resolving a type twice

Resolution only builds instances (`resolveType_growing`), and what it found along scopes that exist
it finds again on any table that has grown since (`resolveType_repeatable`). The chain in which
resolution goes on after a member consists of scopes that exist (`chainIn_of_followMember`).
-/

set_option autoImplicit false

namespace NameLookup.SymbolTable

open Attempt

variable {σ : Substitution} {t : SymbolTable} {chain : ScopeChain}

/-! ## Growth -/

theorem concreteScope_growing (target : Target) : Growing (concreteScope target) := by
  unfold concreteScope
  split
  · exact .pure _
  · exact instantiate_growing _

theorem followName_readOnly (n : Name) (chain : ScopeChain) : ReadOnly (followName n chain) := by
  intro t
  rw [followName_run]
  cases t.typeNamed? n chain <;> rfl

theorem plainScope_readOnly (s : ScopeId) : ReadOnly (plainScope s) := by
  intro t
  rw [plainScope_run]
  split
  · rfl
  · split <;> rfl

theorem plainScope_ok {s : ScopeId} {r : Resolution} (h : (plainScope s t).1 = .ok r) :
    r = .resolved ⟨s, []⟩ ∧ ∃ e, t.scope? s = some e ∧ e.isTemplate = false := by
  rw [plainScope_run] at h
  cases hs : t.scope? s with
  | none =>
    rw [hs] at h
    cases h
  | some e =>
    cases ht : e.isTemplate with
    | true => simp [hs, ht] at h
    | false =>
      simp only [hs, ht, Bool.false_eq_true, if_false] at h
      cases h
      exact ⟨rfl, e, rfl, ht⟩

/-- What `followMember` does once it has the scope to look into. -/
def readMember (n : Name) (s : ScopeId) : TableM ResolutionFault (TypeExpr × ScopeChain) := do
  let t ← get
  let some ty := t.memberType? s n | throw (.operand (.noSuchMember n))
  return (ty, t.chainOfScope s)

theorem readMember_run (n : Name) (s : ScopeId) (t : SymbolTable) :
    readMember n s t =
      match t.memberType? s n with
      | none => (.error (.operand (.noSuchMember n)), t)
      | some ty => (.ok (ty, t.chainOfScope s), t) := by
  simp only [readMember, run_bind, run_get]
  cases t.memberType? s n <;> rfl

theorem readMember_readOnly (n : Name) (s : ScopeId) : ReadOnly (readMember n s) := by
  intro t
  rw [readMember_run]
  cases t.memberType? s n <;> rfl

theorem followMember_growing (target : Target) (n : Name) : Growing (followMember target n) :=
  ((concreteScope_growing target).adapt _).bind fun s => (readMember_readOnly n s).growing

theorem canonicalArgs_growing {f : TypeExpr → TableM ResolutionFault (Option TypeExpr)}
    (hf : ∀ a, Growing (f a)) (args : List TypeExpr) : Growing (canonicalArgs f args) := by
  induction args with
  | nil => exact .pure _
  | cons a as ih =>
    refine (hf a).bind fun o => ?_
    cases o with
    | none => exact .pure _
    | some a' =>
      refine ih.bind fun o => ?_
      cases o <;> exact .pure _

/-- Nothing but growth is claimed, of every run. -/
def growth : Setting where
  Claim _ _ := True
  Table _ := True
  Mentionable _ _ := True
  Linkable _ _ := True

theorem growth_runs {α : Type} {m : TableM ResolutionFault α} (h : Growing m) (t : SymbolTable)
    {Q : SymbolTable → α → Prop} (hQ : ∀ u a, Q u a) : growth.Runs m t Q :=
  ⟨h t, trivial, trivial, fun _ => hQ _ _⟩

theorem growth_lawful : growth.Lawful where
  mentionable_mono _ h := h
  linkable_mono _ h := h
  pure _ _ := trivial
  throw _ _ _ := trivial
  bind _ _ _ := trivial
  followName _ _ := growth_runs (followName_readOnly _ _).growing _ fun _ _ _ _ => trivial
  plainScope _ _ := growth_runs (plainScope_readOnly _).growing _ fun _ r => by
    cases r
    · exact fun _ _ => trivial
    · exact ⟨fun _ _ => trivial, fun _ _ => trivial⟩
  followMember _ _ := growth_runs (followMember_growing _ _) _ fun _ _ =>
    ⟨fun _ _ => trivial, fun _ _ => trivial⟩

theorem growth_context (σ : Substitution) (chain : ScopeChain) (t : SymbolTable) :
    growth.Context σ chain t :=
  ⟨trivial, fun _ _ _ _ _ => trivial, fun _ _ => trivial⟩

theorem resolveType_growing (σ : Substitution) (steps : Nat) (ty : TypeExpr) (chain : ScopeChain) :
    Growing (resolveType σ steps ty chain) := fun t =>
  (growth_lawful.resolveType (growth_context σ chain t) (fun _ _ => trivial) steps).grows

theorem canonicalArg_growing (σ : Substitution) (steps : Nat) (ty : TypeExpr)
    (chain : ScopeChain) : Growing (canonicalArg σ steps ty chain) := fun t =>
  (growth_lawful.canonicalArg (growth_context σ chain t) (fun _ _ => trivial) steps).grows

/-! ## Repetition -/

theorem concreteScope_repeatable (target : Target) (t : SymbolTable) :
    Repeatable (concreteScope target) t := by
  unfold concreteScope
  split
  · exact .pure _ t
  · exact instantiate_repeatable _ t

theorem followName_repeatable (ht : t.Sound) (hc : t.ChainIn chain) (n : Name) :
    Repeatable (followName n chain) t := by
  refine .of_readOnly (followName_readOnly n chain) fun {a u} ha hu => ?_
  rw [followName_run] at ha ⊢
  rw [hu.extends.typeNamed? ht hc]
  cases hn : t.typeNamed? n chain with
  | none =>
    rw [hn] at ha
    cases ha
  | some ty =>
    rw [hn] at ha
    exact ha

theorem plainScope_repeatable (s : ScopeId) (t : SymbolTable) : Repeatable (plainScope s) t := by
  refine .of_readOnly (plainScope_readOnly s) fun {a u} ha hu => ?_
  obtain ⟨rfl, e, he, htemplate⟩ := plainScope_ok ha
  simp [plainScope_run, hu.extends.scope_some he, htemplate]

theorem readMember_repeatable (ht : t.Sound) (n : Name) (s : ScopeId) :
    Repeatable (readMember n s) t := by
  refine .of_readOnly (readMember_readOnly n s) fun {a u} ha hu => ?_
  rw [readMember_run] at ha ⊢
  cases hm : t.memberType? s n with
  | none =>
    rw [hm] at ha
    cases ha
  | some ty =>
    have hs := hasScope_of_memberType? hm
    rw [hm] at ha
    rw [hu.extends.memberType? ht hs, hm, hu.extends.chainOfScope ht hs]
    exact ha

theorem followMember_repeatable (ht : t.Sound) (target : Target) (n : Name) :
    Repeatable (followMember target n) t := by
  have hg := (concreteScope_growing target).adapt ResolutionFault.instantiation
  refine .bind (hg t) ((concreteScope_repeatable target t).adapt _) fun {s t'} hr => ?_
  exact ⟨(readMember_readOnly n s).growing t', readMember_repeatable (ht.grows (hg.of_run hr)) n s⟩

theorem followMember_snd (target : Target) (n : Name) (t : SymbolTable) :
    (followMember target n t).2 = (concreteScope target t).2 := by
  rw [followMember_run]
  rcases concreteScope target t with ⟨fault | s, u⟩
  · rfl
  · simp only
    cases u.memberType? s n <;> rfl

theorem followMember_ok {target : Target} {n : Name} {r : TypeExpr × ScopeChain} {t' : SymbolTable}
    (h : followMember target n t = (.ok r, t')) :
    ∃ s, concreteScope target t = (.ok s, t') ∧ t'.memberType? s n = some r.1 ∧
      r.2 = t'.chainOfScope s := by
  rw [followMember_run] at h
  rcases hc : concreteScope target t with ⟨fault | s, u⟩ <;> rw [hc] at h
  · cases h
  · simp only at h
    cases hm : u.memberType? s n with
    | none =>
      rw [hm] at h
      cases h
    | some ty =>
      rw [hm] at h
      cases h
      exact ⟨s, rfl, hm, rfl⟩

/-- After a member, names are looked up along scopes that exist. -/
theorem chainIn_of_followMember (ht : t.Sound) {target : Target} {n : Name}
    {r : TypeExpr × ScopeChain} {t' : SymbolTable} (h : followMember target n t = (.ok r, t')) :
    t'.ChainIn r.2 := by
  obtain ⟨s, -, hm, hchain⟩ := followMember_ok h
  rw [hchain]
  exact chainOfScope_in (ht.grows ((followMember_growing target n).of_run h))
    (hasScope_of_memberType? hm)

/-- Resolution can be repeated on sound tables, along scopes that exist. -/
def repetition : Setting where
  Claim m t := Repeatable m t
  Table := Sound
  Mentionable _ _ := True
  Linkable := HasScope

theorem repetition_runs {α : Type} {m : TableM ResolutionFault α} (ht : t.Sound) (hg : Growing m)
    (hm : Repeatable m t) {Q : SymbolTable → α → Prop} (hQ : ∀ {a}, (m t).1 = .ok a → Q (m t).2 a) :
    repetition.Runs m t Q :=
  ⟨hg t, ht.grows (hg t), hm, hQ⟩

theorem repetition_lawful : repetition.Lawful where
  mentionable_mono _ h := h
  linkable_mono hg hs := hg.extends.hasScope hs
  pure a t := Repeatable.pure a t
  throw _ fault t := Repeatable.throw fault t
  bind gx hx hf := Repeatable.bind gx hx hf
  followName ht hc := repetition_runs ht (followName_readOnly _ _).growing
    (followName_repeatable ht hc _) fun _ _ _ => trivial
  plainScope {s t} ht _ := by
    refine repetition_runs ht (plainScope_readOnly s).growing (plainScope_repeatable s t)
      fun hr => ?_
    obtain ⟨rfl, -⟩ := plainScope_ok hr
    exact fun _ _ => trivial
  followMember {target n t} ht _ := by
    refine repetition_runs ht (followMember_growing target n) (followMember_repeatable ht target n)
      fun {r} hr => ⟨fun _ _ => trivial, ?_⟩
    exact chainIn_of_followMember ht (Attempt.run_of_fst hr)

/-- A type is resolved again to what it was, where its names are looked up along scopes that
exist. -/
theorem resolveType_repeatable (σ : Substitution) (steps : Nat) (ty : TypeExpr) (ht : t.Sound)
    (hc : t.ChainIn chain) : Repeatable (resolveType σ steps ty chain) t :=
  (repetition_lawful.resolveType ⟨ht, fun _ _ _ _ _ => trivial, hc⟩ (fun _ _ => trivial) steps).claim

/-- So is the canonical form of an argument. -/
theorem canonicalArg_repeatable (σ : Substitution) (steps : Nat) (ty : TypeExpr) (ht : t.Sound)
    (hc : t.ChainIn chain) : Repeatable (canonicalArg σ steps ty chain) t :=
  (repetition_lawful.canonicalArg ⟨ht, fun _ _ _ _ _ => trivial, hc⟩ (fun _ _ => trivial) steps).claim

end NameLookup.SymbolTable
