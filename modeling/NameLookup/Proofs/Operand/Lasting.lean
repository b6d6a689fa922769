import NameLookup.Proofs.Operand.Repetition
import NameLookup.Proofs.SymbolTable.Nesting

/-!
# Resolution in a closed table

In a closed table, what a type that the table knows comes to is settled: a target, a deferral or a
fault, it is the same on every later table. Resolution keeps the table closed, and what it returns
mentions only scopes that exist (`resolveType_runs`).
-/

set_option autoImplicit false

namespace NameLookup.SymbolTable

open Attempt

variable {σ : Substitution} {t t' : SymbolTable} {chain : ScopeChain} {n : Name} {ty : TypeExpr}

/-! ## Recorded types are known -/

namespace Closed

variable (hc : t.Closed)
include hc

theorem knows_firstType? {p : Declaration → Bool} {ds : List DeclId}
    (h : t.firstType? p ds = some ty) : t.Knows ty := by
  obtain ⟨d, e, hd, hty⟩ := exists_decl_of_firstType? h
  exact hc.types hd hty

theorem knows_typeNamed? (h : t.typeNamed? n chain = some ty) : t.Knows ty := by
  unfold typeNamed? at h
  rcases Option.or_eq_some_iff.1 h with h | ⟨-, h⟩
  · exact hc.knows_firstType? h
  · split at h <;> cases h
    exact fun s hs => absurd hs List.not_mem_nil

theorem knows_operandType? {operand : Operand} (hop : ∀ ty, operand = .type ty → t.Knows ty)
    (h : t.operandType? chain operand = some ty) : t.Knows ty := by
  cases operand with
  | value n => exact hc.knows_firstType? h
  | type ty₀ =>
    cases ty₀ with
    | named n => exact hc.knows_typeNamed? h
    | scalar | param | scope | apply | member =>
      cases h
      exact hop _ rfl

end Closed

/-! ## Instances -/

theorem instantiate_closed (hc : t.Closed) {key : InstanceKey} (hkey : t.KnowsKey key) :
    (instantiate key t).2.Closed := by
  rcases h : instantiate key t with ⟨r, t'⟩
  rcases instantiate_step h with rfl | ⟨s, -, -, hbuild⟩
  · exact hc
  · exact hc.build hkey hbuild

theorem hasScope_of_instantiate (ht : t.Sound) {key : InstanceKey} {s : ScopeId}
    (h : instantiate key t = (.ok s, t')) : t'.HasScope s :=
  (ht.grows ((instantiate_growing key).of_run h)).instances (instance?_of_instantiate h)

section
variable (ht : t.Sound) (hc : t.Closed) {target : Target}
  (hk : t.Knows (.apply target.scope target.args))
include ht hc hk

theorem concreteScope_lasting : Lasting (concreteScope target) t := by
  unfold concreteScope
  split
  · exact .pure _ t
  · exact instantiate_lasting ht (hc.treeIn (knows_apply.1 hk).1)

omit ht in
theorem concreteScope_closed : (concreteScope target t).2.Closed := by
  unfold concreteScope
  split
  · exact hc
  · exact instantiate_closed hc hk

omit hc in
theorem hasScope_of_concreteScope {s : ScopeId} (h : concreteScope target t = (.ok s, t')) :
    t'.HasScope s := by
  unfold concreteScope at h
  split at h
  · cases h
    exact (knows_apply.1 hk).1
  · exact hasScope_of_instantiate ht h

end

/-! ## Resolution -/

theorem followName_lasting (ht : t.Sound) (hchain : t.ChainIn chain) (n : Name) :
    Lasting (followName n chain) t := by
  refine .of_readOnly (followName_readOnly n chain) fun hu => ?_
  rw [followName_run, followName_run, hu.extends.typeNamed? ht hchain]
  cases t.typeNamed? n chain <;> rfl

theorem plainScope_lasting {s : ScopeId} (hs : t.HasScope s) : Lasting (plainScope s) t := by
  refine .of_readOnly (plainScope_readOnly s) fun hu => ?_
  rw [plainScope_run, plainScope_run, hu.extends.scope hs]
  split
  · rfl
  · split <;> rfl

theorem readMember_lasting (ht : t.Sound) {s : ScopeId} (hs : t.HasScope s) (n : Name) :
    Lasting (readMember n s) t := by
  refine .of_readOnly (readMember_readOnly n s) fun hu => ?_
  rw [readMember_run, readMember_run, hu.extends.memberType? ht hs, hu.extends.chainOfScope ht hs]
  cases t.memberType? s n <;> rfl

/-- Answers last in closed tables, for types and chains of scopes that exist. -/
def permanence : Setting where
  Claim m t := Lasting m t
  Table t := t.Sound ∧ t.Closed
  Mentionable := HasScope
  Linkable := HasScope

theorem followMember_runs (ht : t.Sound) (hc : t.Closed) {target : Target}
    (hk : t.Knows (.apply target.scope target.args)) (n : Name) :
    permanence.Runs (followMember target n) t fun u r => u.Knows r.1 ∧ u.ChainIn r.2 := by
  have hsound := ht.grows (followMember_growing target n t)
  have hclosed : (followMember target n t).2.Closed := by
    rw [followMember_snd]
    exact concreteScope_closed hc hk
  refine ⟨followMember_growing target n t, ⟨hsound, hclosed⟩, ?_, fun hr => ?_⟩
  · refine ((concreteScope_lasting ht hc hk).adapt _).bind fun {s u} hr => ?_
    have hg := ((concreteScope_growing target).adapt ResolutionFault.instantiation).of_run hr
    have hs := hasScope_of_concreteScope ht hk (run_of_adapt hr)
    exact ⟨(readMember_readOnly n s).growing u, readMember_lasting (ht.grows hg) hs n⟩
  · obtain ⟨s, -, hm, -⟩ := followMember_ok (run_of_fst hr)
    exact ⟨hclosed.knows_firstType? hm, chainIn_of_followMember ht (run_of_fst hr)⟩

theorem permanence_lawful : permanence.Lawful where
  mentionable_mono hg hs := hg.extends.hasScope hs
  linkable_mono hg hs := hg.extends.hasScope hs
  pure a t := Lasting.pure a t
  throw _ fault t := Lasting.throw fault t
  bind _ hx hf := hx.bind hf
  followName {n chain t} ht hchain := by
    have hread := followName_readOnly n chain t
    refine ⟨(followName_readOnly n chain).growing t, hread.symm ▸ ht, followName_lasting ht.1 hchain n,
      fun {ty} hr => ?_⟩
    rw [hread]
    exact ht.2.knows_typeNamed? (followName_ok (run_of_fst hr))
  plainScope {s t} ht hs := by
    have hread := plainScope_readOnly s t
    refine ⟨(plainScope_readOnly s).growing t, hread.symm ▸ ht, plainScope_lasting hs, fun hr => ?_⟩
    rw [hread]
    obtain ⟨rfl, -⟩ := plainScope_ok hr
    exact knows_apply.2 ⟨hs, fun a ha => absurd ha List.not_mem_nil⟩
  followMember ht hk := followMember_runs ht.1 ht.2 hk _

/-- In a closed table resolution gives known scopes, keeps the table closed, and will always come to
the same. -/
theorem resolveType_runs (ht : t.Sound) (hc : t.Closed) (hσ : t.KnowsBindings σ)
    (hchain : t.ChainIn chain) (hty : t.Knows ty) (steps : Nat) :
    permanence.Runs (resolveType σ steps ty chain) t permanence.Answers :=
  permanence_lawful.resolveType ⟨⟨ht, hc⟩, fun _ _ hp => hσ.bound hp, hchain⟩ hty steps

end NameLookup.SymbolTable
