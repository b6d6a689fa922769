import NameLookup.Operand.Steps
import NameLookup.Proofs.SymbolTable.Growth
import NameLookup.Proofs.TypeExpr.Mentions

/-!
# Reasoning about resolution step by step

A `Setting` says what is claimed of a computation on a table, and in which tables, about which types
and along which chains. Where it is lawful, that is where the claim goes through `pure`, `throw` and
`>>=` and holds of the three things that resolution does to a table, it holds of the resolution of
every type (`Lawful.resolveType`, `Lawful.canonicalArg`), and what resolution returns is again of
the setting.
-/

set_option autoImplicit false

namespace NameLookup.SymbolTable

structure Setting where
  /-- What is claimed of the computation on the table. -/
  Claim {α : Type} : TableM ResolutionFault α → SymbolTable → Prop
  /-- The tables that the claim is about. -/
  Table : SymbolTable → Prop
  /-- The scopes that types may mention. -/
  Mentionable : SymbolTable → ScopeId → Prop
  /-- The scopes that names may be looked up in. -/
  Linkable : SymbolTable → ScopeId → Prop

namespace Setting

variable (w : Setting)

def Admits (t : SymbolTable) (ty : TypeExpr) : Prop := ∀ s ∈ ty.mentions, w.Mentionable t s

def Leads (t : SymbolTable) (chain : ScopeChain) : Prop := ∀ s, .scope s ∈ chain → w.Linkable t s

/-- What resolution starts from: a table, bindings and a chain of the setting. -/
structure Context (σ : Substitution) (chain : ScopeChain) (t : SymbolTable) : Prop where
  table : w.Table t
  binds : ∀ p ty, σ.get? p = some ty → w.Admits t ty
  leads : w.Leads t chain

/-- A result of resolution is of the setting. -/
def Answers (t : SymbolTable) : Resolution → Prop
  | .resolved target => w.Admits t (.apply target.scope target.args)
  | .deferred token => w.Admits t token.type ∧ w.Leads t token.chain

/-- The claim holds of a run that stays in the setting and gives results in `Q`. -/
structure Runs {α : Type} (m : TableM ResolutionFault α) (t : SymbolTable)
    (Q : SymbolTable → α → Prop) : Prop where
  grows : t.Grows (m t).2
  table : w.Table (m t).2
  claim : w.Claim m t
  result : ∀ {a}, (m t).1 = .ok a → Q (m t).2 a

/-- With so many steps the claim holds of the resolution of types. -/
def TypeRuns (σ : Substitution) (steps : Nat) : Prop :=
  ∀ {ty chain t}, w.Context σ chain t → w.Admits t ty →
    w.Runs (resolveType σ steps ty chain) t w.Answers

/-- With so many steps the claim holds of canonical forms. -/
def ArgRuns (σ : Substitution) (steps : Nat) : Prop :=
  ∀ {ty chain t}, w.Context σ chain t → w.Admits t ty →
    w.Runs (canonicalArg σ steps ty chain) t fun u r => ∀ ty, r = some ty → w.Admits u ty

/-- The claim goes through the building blocks of computations, and holds of what resolution asks of
a table. -/
structure Lawful : Prop where
  mentionable_mono : ∀ {t u s}, t.Grows u → w.Mentionable t s → w.Mentionable u s
  linkable_mono : ∀ {t u s}, t.Grows u → w.Linkable t s → w.Linkable u s
  pure : ∀ {α : Type} (a : α) t, w.Claim (pure a) t
  throw : ∀ (α : Type) fault t, w.Claim (throw fault : TableM ResolutionFault α) t
  bind : ∀ {α β : Type} {x : TableM ResolutionFault α} {f : α → TableM ResolutionFault β} {t},
    t.Grows (x t).2 → w.Claim x t →
      (∀ {a s}, x t = (.ok a, s) → s.Grows (f a s).2 ∧ w.Claim (f a) s) → w.Claim (x >>= f) t
  followName : ∀ {n chain t}, w.Table t → w.Leads t chain →
    w.Runs (followName n chain) t w.Admits
  plainScope : ∀ {s t}, w.Table t → w.Mentionable t s → w.Runs (plainScope s) t w.Answers
  followMember : ∀ {target : Target} {n t}, w.Table t →
    w.Admits t (.apply target.scope target.args) →
      w.Runs (followMember target n) t fun u r => w.Admits u r.1 ∧ w.Leads u r.2

variable {w} {α β : Type} {t u : SymbolTable} {ty : TypeExpr} {chain : ScopeChain}
  {σ : Substitution}

theorem admits_apply {s : ScopeId} {args : List TypeExpr} :
    w.Admits t (.apply s args) ↔ w.Mentionable t s ∧ ∀ a ∈ args, w.Admits t a :=
  TypeExpr.forall_mentions_apply

theorem admits_substitute (hσ : ∀ p ty, σ.get? p = some ty → w.Admits t ty)
    (h : w.Admits t ty) : w.Admits t (ty.substitute σ) :=
  TypeExpr.forall_mentions_substitute h hσ

namespace Lawful

variable (h : w.Lawful)
include h

theorem admits_mono (hg : t.Grows u) (hty : w.Admits t ty) : w.Admits u ty :=
  fun s hs => h.mentionable_mono hg (hty s hs)

theorem leads_mono (hg : t.Grows u) (hc : w.Leads t chain) : w.Leads u chain :=
  fun s hs => h.linkable_mono hg (hc s hs)

theorem context_mono (hc : w.Context σ chain t) (hg : t.Grows u) (hu : w.Table u) :
    w.Context σ chain u :=
  ⟨hu, fun p ty hp => h.admits_mono hg (hc.binds p ty hp), h.leads_mono hg hc.leads⟩

theorem runs_pure {Q : SymbolTable → α → Prop} {a : α} (ht : w.Table t) (ha : Q t a) :
    w.Runs (Pure.pure a) t Q :=
  ⟨.refl t, ht, h.pure a t, fun he => by cases he; exact ha⟩

theorem runs_throw {Q : SymbolTable → α → Prop} (fault : ResolutionFault) (ht : w.Table t) :
    w.Runs (MonadExcept.throw fault) t Q :=
  ⟨.refl t, ht, h.throw α fault t, fun he => by cases he⟩

theorem runs_bind {x : TableM ResolutionFault α} {f : α → TableM ResolutionFault β}
    {Q : SymbolTable → α → Prop} {R : SymbolTable → β → Prop} (hx : w.Runs x t Q)
    (hf : ∀ {a s}, t.Grows s → w.Table s → Q s a → w.Runs (f a) s R) : w.Runs (x >>= f) t R := by
  have hnext {a s} (hr : x t = (.ok a, s)) : w.Runs (f a) s R := by
    have hg := hx.grows
    have ht := hx.table
    have hq := @hx.result a
    rw [hr] at hg ht hq
    exact hf hg ht (hq rfl)
  have hclaim : w.Claim (x >>= f) t :=
    h.bind hx.grows hx.claim fun hr => ⟨(hnext hr).grows, (hnext hr).claim⟩
  have hrun := Attempt.run_bind x f t
  rcases hr : x t with ⟨fault | a, s⟩
  · rw [hr] at hrun
    have hg := hx.grows
    have ht := hx.table
    rw [hr] at hg ht
    refine ⟨hrun ▸ hg, hrun ▸ ht, hclaim, fun he => ?_⟩
    rw [hrun] at he
    cases he
  · rw [hr] at hrun
    have hg := hx.grows
    rw [hr] at hg
    have hn := hnext hr
    exact ⟨hrun ▸ hg.trans hn.grows, hrun ▸ hn.table, hclaim, fun he => by
      rw [hrun] at he ⊢
      exact hn.result he⟩

theorem canonicalArgs {f : TypeExpr → TableM ResolutionFault (Option TypeExpr)}
    (hf : ∀ {a t}, w.Context σ chain t → w.Admits t a →
      w.Runs (f a) t fun u r => ∀ ty, r = some ty → w.Admits u ty)
    {args : List TypeExpr} (hc : w.Context σ chain t) (hargs : ∀ a ∈ args, w.Admits t a) :
    w.Runs (canonicalArgs f args) t fun u r => ∀ as, r = some as → ∀ a ∈ as, w.Admits u a := by
  induction args generalizing t with
  | nil => exact h.runs_pure hc.table fun as has a ha => by cases has; exact absurd ha List.not_mem_nil
  | cons a args ih =>
    refine h.runs_bind (hf hc (hargs a List.mem_cons_self)) fun {o s} hg ht ho => ?_
    cases o with
    | none => exact h.runs_pure ht fun as has => by cases has
    | some a' =>
      have hrest := ih (h.context_mono hc hg ht) fun b hb =>
        h.admits_mono hg (hargs b (List.mem_cons_of_mem a hb))
      refine h.runs_bind hrest fun {o u} hg' ht' ho' => ?_
      cases o with
      | none => exact h.runs_pure ht' fun as has => by cases has
      | some as =>
        refine h.runs_pure ht' fun bs hbs b hb => ?_
        cases hbs
        rcases List.mem_cons.1 hb with rfl | hb
        · exact h.admits_mono hg' (ho _ rfl)
        · exact ho' as rfl b hb

theorem throughMember {base : TableM ResolutionFault Resolution} {n : Name} {waiting : α}
    {f : TypeExpr → ScopeChain → TableM ResolutionFault α} {Q : SymbolTable → α → Prop}
    (hc : w.Context σ chain t) (hbase : w.Runs base t w.Answers)
    (hwaiting : ∀ {u}, t.Grows u → Q u waiting)
    (hf : ∀ {ty chain u}, w.Context σ chain u → w.Admits u ty → w.Runs (f ty chain) u Q) :
    w.Runs (throughMember base n waiting f) t Q := by
  refine h.runs_bind hbase fun {r u} hg ht hr => ?_
  cases r with
  | deferred token => exact h.runs_pure ht (hwaiting hg)
  | resolved target =>
    refine h.runs_bind (h.followMember ht hr) fun {next v} hg' ht' hnext => ?_
    have hc' := h.context_mono hc (hg.trans hg') ht'
    exact hf ⟨ht', hc'.binds, hnext.2⟩ hnext.1

theorem typeRuns_succ {steps : Nat} (ihr : w.TypeRuns σ steps) (iha : w.ArgRuns σ steps) :
    w.TypeRuns σ (steps + 1) := by
  intro ty chain t hc hty
  cases ty with
  | scalar n => exact h.runs_throw _ hc.table
  | named n =>
    exact h.runs_bind (h.followName hc.table hc.leads) fun hg ht hnext =>
      ihr (h.context_mono hc hg ht) hnext
  | scope s => exact h.plainScope hc.table (hty s (List.mem_singleton_self s))
  | param p =>
    unfold SymbolTable.resolveType
    cases hp : σ.get? p with
    | none => exact h.runs_pure hc.table ⟨hty, hc.leads⟩
    | some bound => exact ihr hc (hc.binds p bound hp)
  | apply s args =>
    have hall : ∀ a ∈ TypeExpr.substituteAll σ args, w.Admits t a := by
      intro a ha
      rw [TypeExpr.substituteAll_eq_map] at ha
      obtain ⟨a₀, ha₀, rfl⟩ := List.mem_map.1 ha
      exact admits_substitute hc.binds ((admits_apply.1 hty).2 a₀ ha₀)
    have hs := (admits_apply.1 hty).1
    refine h.runs_bind (h.canonicalArgs iha hc hall) fun {o u} hg ht ho => ?_
    cases o with
    | none =>
      exact h.runs_pure ht ⟨h.admits_mono hg (admits_apply.2 ⟨hs, hall⟩), h.leads_mono hg hc.leads⟩
    | some canonical =>
      exact h.runs_pure ht (admits_apply.2 ⟨h.mentionable_mono hg hs, ho canonical rfl⟩)
  | member base n =>
    rw [resolveType_member]
    exact h.throughMember hc (ihr hc hty)
      (fun hg => ⟨h.admits_mono hg hty, h.leads_mono hg hc.leads⟩) ihr

theorem argRuns_succ {steps : Nat} (ihr : w.TypeRuns σ steps) (iha : w.ArgRuns σ steps) :
    w.ArgRuns σ (steps + 1) := by
  intro ty chain t hc hty
  cases ty with
  | scalar n =>
    refine h.runs_pure hc.table fun ty hr => ?_
    cases hr
    exact hty
  | named n =>
    exact h.runs_bind (h.followName hc.table hc.leads) fun hg ht hnext =>
      iha (h.context_mono hc hg ht) hnext
  | scope s =>
    refine h.runs_pure hc.table fun ty hr => ?_
    cases hr
    exact hty
  | param p =>
    unfold SymbolTable.canonicalArg
    cases hp : σ.get? p with
    | none => exact h.runs_pure hc.table fun ty hr => by cases hr
    | some bound => exact iha hc (hc.binds p bound hp)
  | apply s args =>
    obtain ⟨hs, hargs⟩ := admits_apply.1 hty
    refine h.runs_bind (h.canonicalArgs iha hc hargs) fun {o u} hg ht ho => ?_
    refine h.runs_pure ht fun ty hr => ?_
    obtain ⟨canonical, rfl, rfl⟩ := Option.map_eq_some_iff.1 hr
    exact admits_apply.2 ⟨h.mentionable_mono hg hs, ho canonical rfl⟩
  | member base n =>
    rw [canonicalArg_member]
    exact h.throughMember hc (ihr hc hty) (fun _ ty hr => by cases hr) iha

theorem resolution (steps : Nat) : w.TypeRuns σ steps ∧ w.ArgRuns σ steps := by
  induction steps with
  | zero =>
    constructor
    · intro ty chain t hc hty
      unfold SymbolTable.resolveType
      exact h.runs_throw _ hc.table
    · intro ty chain t hc hty
      cases ty with
      | scalar | scope =>
        refine h.runs_pure hc.table fun ty hr => ?_
        cases hr
        exact hty
      | named | param | apply | member => exact h.runs_throw _ hc.table
  | succ steps ih => exact ⟨h.typeRuns_succ ih.1 ih.2, h.argRuns_succ ih.1 ih.2⟩

/-- The claim holds of the resolution of every type of the setting. -/
theorem resolveType (hc : w.Context σ chain t) (hty : w.Admits t ty) (steps : Nat) :
    w.Runs (resolveType σ steps ty chain) t w.Answers :=
  (h.resolution steps).1 hc hty

/-- The claim holds of the canonical form of every argument of the setting. -/
theorem canonicalArg (hc : w.Context σ chain t) (hty : w.Admits t ty) (steps : Nat) :
    w.Runs (canonicalArg σ steps ty chain) t fun u r => ∀ ty, r = some ty → w.Admits u ty :=
  (h.resolution steps).2 hc hty

end Lawful

end Setting

end NameLookup.SymbolTable
