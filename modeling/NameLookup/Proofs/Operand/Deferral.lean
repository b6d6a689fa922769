import NameLookup.Proofs.Operand.Budget
import NameLookup.Proofs.Operand.Repetition

/-!
# Asking again for a type that waited

Resolution with fewer bindings is the beginning of resolution with more of them: what it settles is
settled alike, and the instances it built are the first that are built (`resolution_begins`). So a
deferred type can be taken up where it was left: under the larger substitution it comes to what the
type itself would have come to on the table before (`resolveType_resume`).
-/

set_option autoImplicit false

namespace NameLookup

/-- The type was followed to its target. -/
def Resolution.IsResolved (o : Resolution) : Prop := ∃ target, o = .resolved target

theorem Resolution.not_isResolved_deferred (token : Deferral) :
    ¬ (Resolution.deferred token).IsResolved := by
  rintro ⟨_, h⟩
  cases h

namespace SymbolTable

open Attempt TypeExpr

/-- A run that ended in `o` on `t₁` is the beginning of one that ended in `r` on `t₂`, and all of it
if it `settled` the matter. -/
structure Begins {ε α : Type} (settled : Prop) (o : α) (t₁ : SymbolTable) (r : Except ε α)
    (t₂ : SymbolTable) : Prop where
  grows : t₁.Grows t₂
  whole : settled → r = .ok o ∧ t₂ = t₁

theorem Begins.refl {ε α : Type} (settled : Prop) (o : α) (t : SymbolTable) :
    Begins settled o t (.ok o : Except ε α) t :=
  ⟨.refl t, fun _ => ⟨rfl, rfl⟩⟩

theorem Begins.waits {ε α : Type} {settled : Prop} {o : α} {t₁ t₂ : SymbolTable} {r : Except ε α}
    (h : t₁.Grows t₂) (hs : ¬ settled) : Begins settled o t₁ r t₂ :=
  ⟨h, fun h => absurd h hs⟩

/-- What is done to the answers of both runs. -/
theorem Begins.map {ε α β : Type} {o : Option α} {t₁ t₂ : SymbolTable} {r : Except ε (Option α)}
    (h : Begins (o.isSome = true) o t₁ r t₂) (f : α → β) :
    Begins ((o.map f).isSome = true) (o.map f) t₁ (r.map (·.map f)) t₂ := by
  refine ⟨h.grows, fun hs => ?_⟩
  rw [Option.isSome_map] at hs
  obtain ⟨rfl, ht⟩ := h.whole hs
  exact ⟨rfl, ht⟩

variable {σ τ : Substitution} {chain : ScopeChain}

theorem canonicalArgs_begins {f g : TypeExpr → TableM ResolutionFault (Option TypeExpr)}
    (hg : ∀ a, Growing (g a))
    (hfg : ∀ {a b t o t₁ r t₂}, Unfolds τ a b → f a t = (.ok o, t₁) → g b t = (r, t₂) →
      ¬ RanOut r → Begins (o.isSome = true) o t₁ r t₂)
    {as bs : List TypeExpr} (hu : UnfoldsAll τ as bs) {t t₁ t₂ : SymbolTable}
    {o : Option (List TypeExpr)} {r : Except ResolutionFault (Option (List TypeExpr))}
    (h : canonicalArgs f as t = (.ok o, t₁)) (h' : canonicalArgs g bs t = (r, t₂))
    (hr : ¬ RanOut r) : Begins (o.isSome = true) o t₁ r t₂ := by
  induction as generalizing bs t o t₁ r t₂ with
  | nil =>
    cases bs with
    | nil =>
      cases h
      cases h'
      exact .refl _ _ t
    | cons b bs => cases hu.1
  | cons a as ih =>
    cases bs with
    | nil => cases hu.1
    | cons b bs =>
      obtain ⟨hab, htail⟩ := hu.head_tail
      rw [canonicalArgs_cons] at h h'
      rcases ha : f a t with ⟨fault | oa, u⟩ <;> rw [ha] at h
      · cases h
      rcases hb : g b t with ⟨rb, u'⟩
      have hrb : ¬ RanOut rb := fun hf => by
        cases hf
        rw [hb] at h'
        cases h'
        exact hr rfl
      have hbegin := hfg hab ha hb hrb
      cases oa with
      | none =>
        -- the first run stopped here, and the other one went on from a later table
        cases h
        refine ⟨hbegin.grows.trans ?_, fun hs => by cases hs⟩
        rw [hb] at h'
        rcases rb with fault | _ | b' <;> simp only at h'
        · cases h'
          exact .refl _
        · cases h'
          exact .refl _
        · have hgrows := canonicalArgs_growing hg bs u'
          rcases hbs : canonicalArgs g bs u' with ⟨_ | _, v⟩ <;> rw [hbs] at h' hgrows <;>
            cases h' <;> exact hgrows
      | some a' =>
        obtain ⟨rfl, rfl⟩ := hbegin.whole rfl
        rw [hb] at h'
        simp only at h h'
        rcases has : canonicalArgs f as u' with ⟨fault | oas, v⟩ <;> rw [has] at h <;> cases h
        rcases hbs : canonicalArgs g bs u' with ⟨rbs, v'⟩
        rw [hbs] at h'
        have hrbs : ¬ RanOut rbs := fun hf => by
          cases hf
          cases h'
          exact hr rfl
        have htl := ih htail has hbs hrbs
        rcases rbs with fault | obs <;> cases h' <;> exact htl.map (a' :: ·)

theorem grows_of_followMember {α : Type} {f : TypeExpr → ScopeChain → TableM ResolutionFault α}
    (hf : ∀ ty chain, Growing (f ty chain)) {target : Target} {n : Name} {t t' : SymbolTable}
    {r : Except ResolutionFault α}
    (h : (match followMember target n t with
      | (.error fault, t) => (.error fault, t)
      | (.ok (next, inside), t) => f next inside t) = (r, t')) : t.Grows t' := by
  have hm := followMember_growing target n t
  rcases hr : followMember target n t with ⟨fault | ⟨next, inside⟩, u⟩ <;> rw [hr] at h hm
  · cases h
    exact hm
  · exact hm.trans ((hf next inside).of_run h)

/-- A parameter that only the other run has bound waits; otherwise both go on with what it is bound
to. -/
theorem param_begins {α : Type} (settled : α → Prop) {waiting : α} {p : Name}
    {f : TypeExpr → TableM ResolutionFault α} {m : TableM ResolutionFault α}
    (hwaiting : ¬ settled waiting) (hm : Growing m) {t t₁ t₂ : SymbolTable} {o : α}
    {r : Except ResolutionFault α}
    (hbound : ∀ {b}, σ.get? p = some b → f b t = (.ok o, t₁) → Begins (settled o) o t₁ r t₂)
    (h : (match σ.get? p with
      | none => (.ok waiting, t)
      | some b => f b t) = (.ok o, t₁)) (h' : m t = (r, t₂)) : Begins (settled o) o t₁ r t₂ := by
  cases hp : σ.get? p with
  | none =>
    rw [hp] at h
    cases h
    exact .waits (hm.of_run h') hwaiting
  | some b =>
    rw [hp] at h
    exact hbound hp h

/-- Where the base of a member waits, the other run may go on; where it does not, both go on from the
same table. -/
theorem throughMember_begins {α : Type} (settled : α → Prop)
    {base base' : TableM ResolutionFault Resolution} {waiting waiting' : α}
    {f g : TypeExpr → ScopeChain → TableM ResolutionFault α} (hwaiting : ¬ settled waiting)
    (hg : ∀ ty chain, Growing (g ty chain))
    (hbase : ∀ {t o t₁ r t₂}, base t = (.ok o, t₁) → base' t = (r, t₂) → ¬ RanOut r →
      Begins o.IsResolved o t₁ r t₂)
    (hfg : ∀ {ty chain t o t₁ r t₂}, f ty chain t = (.ok o, t₁) → g ty chain t = (r, t₂) →
      ¬ RanOut r → Begins (settled o) o t₁ r t₂)
    {n : Name} {t t₁ t₂ : SymbolTable} {o : α} {r : Except ResolutionFault α}
    (h : throughMember base n waiting f t = (.ok o, t₁))
    (h' : throughMember base' n waiting' g t = (r, t₂)) (hr : ¬ RanOut r) :
    Begins (settled o) o t₁ r t₂ := by
  rw [throughMember_run] at h h'
  rcases hb : base t with ⟨fault | ob, u⟩ <;> rw [hb] at h
  · cases h
  rcases hb' : base' t with ⟨rb, u'⟩
  rw [hb'] at h'
  have hrb : ¬ RanOut rb := fun hf => by
    cases hf
    cases h'
    exact hr rfl
  have hbegin := hbase hb hb' hrb
  cases ob with
  | deferred token =>
    cases h
    refine .waits (hbegin.grows.trans ?_) hwaiting
    rcases rb with fault | target | token
    · cases h'
      exact .refl _
    · exact grows_of_followMember hg h'
    · cases h'
      exact .refl _
  | resolved target =>
    obtain ⟨rfl, rfl⟩ := hbegin.whole ⟨target, rfl⟩
    simp only at h h'
    rcases hm : followMember target n u' with ⟨fault | ⟨next, inside⟩, v⟩ <;> rw [hm] at h h'
    · cases h
    · exact hfg h h' hr

/-- With `k` steps, resolution under `σ` is the beginning of resolution under `τ`, also when the latter
finds some parameters replaced already. -/
def TypeBegins (σ τ : Substitution) (k : Nat) : Prop :=
  ∀ {x y chain t o t₁ m r t₂}, Unfolds τ x y → resolveType σ k x chain t = (.ok o, t₁) →
    resolveType τ m y chain t = (r, t₂) → ¬ RanOut r → Begins o.IsResolved o t₁ r t₂

/-- The same of canonical forms. -/
def ArgBegins (σ τ : Substitution) (k : Nat) : Prop :=
  ∀ {x y chain t o t₁ m r t₂}, Unfolds τ x y → canonicalArg σ k x chain t = (.ok o, t₁) →
    canonicalArg τ m y chain t = (r, t₂) → ¬ RanOut r → Begins (o.isSome = true) o t₁ r t₂

theorem typeBegins_succ (hle : σ.Within τ) {k : Nat} (ihr : TypeBegins σ τ k)
    (iha : ArgBegins σ τ k) : TypeBegins σ τ (k + 1) := by
  intro x y chain t o t₁ m r t₂ hu h h' hr
  cases m with
  | zero =>
    rw [resolveType_zero] at h'
    cases h'
    exact absurd rfl hr
  | succ m =>
    cases hu with
    | scalar n => cases h
    | named n =>
      obtain ⟨next, hn, hnext⟩ := resolveType_named_ok h
      rw [resolveType_named, hn] at h'
      exact ihr (.refl next) hnext h' hr
    | param p =>
      rw [resolveType_param] at h
      refine param_begins Resolution.IsResolved (Resolution.not_isResolved_deferred _)
        (resolveType_growing τ _ (.param p) chain) (fun {b} hp h => ?_) h h'
      rw [resolveType_param, hle p b hp] at h'
      exact ihr (.refl b) h h' hr
    | @bound p b y hp hu =>
      rw [resolveType_param] at h
      refine param_begins Resolution.IsResolved (Resolution.not_isResolved_deferred _)
        (resolveType_growing τ _ y chain) (fun {b'} hp' h => ?_) h h'
      obtain rfl : b = b' := Option.some.inj (hp.symm.trans (hle p b' hp'))
      exact ihr hu h h' hr
    | scope s =>
      rw [resolveType_scope] at h h'
      rw [h] at h'
      cases h'
      exact .refl _ o t₁
    | @apply s as bs hlen hu =>
      rw [resolveType_apply] at h h'
      have hall := UnfoldsAll.substituteAll hle ⟨hlen, hu⟩
      rcases hc : canonicalArgs (fun a => canonicalArg σ k a chain) (substituteAll σ as) t with
        ⟨fault | oc, u⟩ <;> rw [hc] at h
      · cases h
      rcases hc' : canonicalArgs (fun a => canonicalArg τ m a chain) (substituteAll τ bs) t with
        ⟨rc, u'⟩
      rw [hc'] at h'
      have hrc : ¬ RanOut rc := fun hf => by
        cases hf
        cases h'
        exact hr rfl
      have hargs := canonicalArgs_begins (fun a => canonicalArg_growing τ m a chain) iha hall
        hc hc' hrc
      obtain rfl : u' = t₂ := by rcases rc with _ | _ | _ <;> cases h' <;> rfl
      cases oc with
      | none =>
        cases h
        exact .waits hargs.grows (Resolution.not_isResolved_deferred _)
      | some canonical =>
        obtain ⟨rfl, rfl⟩ := hargs.whole rfl
        cases h
        cases h'
        exact .refl _ _ _
    | @member base base' n hu =>
      rw [resolveType_member] at h h'
      exact throughMember_begins Resolution.IsResolved (Resolution.not_isResolved_deferred _)
        (resolveType_growing τ m) (ihr hu) (fun {ty} => ihr (.refl ty)) h h' hr

theorem argBegins_succ (hle : σ.Within τ) {k : Nat} (ihr : TypeBegins σ τ k)
    (iha : ArgBegins σ τ k) : ArgBegins σ τ (k + 1) := by
  intro x y chain t o t₁ m r t₂ hu h h' hr
  cases hu with
  | scalar n =>
    rw [canonicalArg_scalar] at h h'
    cases h
    cases h'
    exact .refl _ _ t
  | scope s =>
    rw [canonicalArg_scope] at h h'
    cases h
    cases h'
    exact .refl _ _ t
  | @bound p b y hp hu =>
    rw [canonicalArg_param] at h
    refine param_begins (·.isSome = true) (by simp) (canonicalArg_growing τ m y chain)
      (fun {b'} hp' h => ?_) h h'
    obtain rfl : b = b' := Option.some.inj (hp.symm.trans (hle p b' hp'))
    exact iha hu h h' hr
  | named n =>
    cases m with
    | zero =>
      cases h'
      exact absurd rfl hr
    | succ m =>
      obtain ⟨next, hn, hnext⟩ := canonicalArg_named_ok h
      rw [canonicalArg_named, hn] at h'
      exact iha (.refl next) hnext h' hr
  | param p =>
    rw [canonicalArg_param] at h
    refine param_begins (·.isSome = true) (by simp) (canonicalArg_growing τ m (.param p) chain)
      (fun {b} hp h => ?_) h h'
    cases m with
    | zero =>
      cases h'
      exact absurd rfl hr
    | succ m =>
      rw [canonicalArg_param, hle p b hp] at h'
      exact iha (.refl b) h h' hr
  | @apply s as bs hlen hu =>
    cases m with
    | zero =>
      cases h'
      exact absurd rfl hr
    | succ m =>
      rw [canonicalArg_apply] at h h'
      rcases hc : canonicalArgs (fun a => canonicalArg σ k a chain) as t with
        ⟨fault | oc, u⟩ <;> rw [hc] at h <;> cases h
      rcases hc' : canonicalArgs (fun a => canonicalArg τ m a chain) bs t with ⟨rc, u'⟩
      rw [hc'] at h'
      have hrc : ¬ RanOut rc := fun hf => by
        cases hf
        cases h'
        exact hr rfl
      have hargs := canonicalArgs_begins (fun a => canonicalArg_growing τ m a chain) iha
        ⟨hlen, hu⟩ hc hc' hrc
      rcases rc with fault | oc' <;> cases h' <;> exact hargs.map (TypeExpr.apply s)
  | @member base base' n hu =>
    cases m with
    | zero =>
      cases h'
      exact absurd rfl hr
    | succ m =>
      rw [canonicalArg_member] at h h'
      exact throughMember_begins (·.isSome = true) (by simp)
        (canonicalArg_growing τ m) (ihr hu) (fun {ty} => iha (.refl ty)) h h' hr

/-- Resolution under some of the bindings is the beginning of resolution under all of them. -/
theorem resolution_begins (hle : σ.Within τ) (k : Nat) : TypeBegins σ τ k ∧ ArgBegins σ τ k := by
  induction k with
  | zero =>
    constructor
    · intro x y chain t o t₁ m r t₂ _ h
      rw [resolveType_zero] at h
      cases h
    · intro x y chain t o t₁ m r t₂ hu h h' _
      cases hu with
      | scalar n =>
        rw [canonicalArg_scalar] at h h'
        cases h
        cases h'
        exact .refl _ _ t
      | scope s =>
        rw [canonicalArg_scope] at h h'
        cases h
        cases h'
        exact .refl _ _ t
      | named | param | bound | apply | member => cases h
  | succ k ih => exact ⟨typeBegins_succ hle ih.1 ih.2, argBegins_succ hle ih.1 ih.2⟩

/-! ## Taking up a deferred type -/

/-- A deferred type is resolved on the later table as the type that it was left from would have been
on the table before. -/
theorem resume_held {x : TypeExpr} {token : Deferral} {k steps : Nat} {t t₁ t₂ : SymbolTable}
    {r : Except ResolutionFault Resolution} (hle : σ.Within τ) (ht : t.Sound) (hc : t.ChainIn chain)
    (hk : k ≤ steps) (h : resolveType σ k x chain t = (.ok (.deferred token), t₁))
    (h' : resolveType τ k x chain t = (r, t₂)) (hr : ¬ RanOut r) (htype : Unfolds τ x token.type)
    (hchain : token.chain = chain) :
    ∃ r', resolveType τ steps token.type token.chain t₁ = (r', t₂) ∧ SameAnswer Eq r r' := by
  have hbegin := (resolution_begins hle k).1 (.refl x) h h' hr
  have hgrows := (resolveType_growing σ k x chain).of_run h
  have hmid := (resolveType_repeatable τ k x ht hc).midway h' hgrows hbegin.grows
  rw [hchain]
  exact resolveType_moreSteps htype hk hmid hr

theorem resolveType_resume (hle : σ.Within τ) (k : Nat) {x : TypeExpr} {token : Deferral}
    {steps : Nat} {t t₁ t₂ : SymbolTable} {r : Except ResolutionFault Resolution} (ht : t.Sound)
    (hc : t.ChainIn chain) (hk : k ≤ steps)
    (h : resolveType σ k x chain t = (.ok (.deferred token), t₁))
    (h' : resolveType τ k x chain t = (r, t₂)) (hr : ¬ RanOut r) :
    ∃ r', resolveType τ steps token.type token.chain t₁ = (r', t₂) ∧ SameAnswer Eq r r' := by
  induction k generalizing x chain t with
  | zero =>
    rw [resolveType_zero] at h
    cases h
  | succ k ih =>
    have hheld := resume_held hle ht hc hk h h' hr
    have hk' : k ≤ steps := by omega
    cases x with
    | scalar n => cases h
    | named n =>
      obtain ⟨next, hn, hnext⟩ := resolveType_named_ok h
      rw [resolveType_named, hn] at h'
      exact ih ht hc hk' hnext h'
    | param p =>
      rw [resolveType_param] at h
      cases hp : σ.get? p with
      | none =>
        rw [hp] at h
        cases h
        exact hheld (.refl _) rfl
      | some b =>
        rw [hp] at h
        rw [resolveType_param, hle p b hp] at h'
        exact ih ht hc hk' h h'
    | scope s =>
      rw [resolveType_scope] at h
      split at h
      · cases h
      · split at h <;> cases h
    | apply s args =>
      rw [resolveType_apply] at h
      rcases hargs : canonicalArgs (fun a => canonicalArg σ k a chain) (substituteAll σ args) t with
        ⟨fault | _ | canonical, u⟩ <;> rw [hargs] at h <;> cases h
      refine hheld ?_ rfl
      have hsubst := (Unfolds.refl (.apply s args)).substitute_right hle
      rwa [substitute] at hsubst
    | member base n =>
      rw [resolveType_member, throughMember_run] at h
      rcases hb : resolveType σ k base chain t with ⟨fault | target | held, u⟩ <;> rw [hb] at h
      · cases h
      · -- the base is settled for both, and resolution goes on with the same member
        rw [resolveType_member, throughMember_run] at h'
        rcases hb' : resolveType τ k base chain t with ⟨rb, u'⟩
        rw [hb'] at h'
        have hrb : ¬ RanOut rb := fun hf => by
          cases hf
          cases h'
          exact hr rfl
        obtain ⟨rfl, rfl⟩ :=
          ((resolution_begins hle k).1 (.refl base) hb hb' hrb).whole ⟨target, rfl⟩
        simp only at h h'
        have hu := ht.grows ((resolveType_growing σ k base chain).of_run hb)
        rcases hm : followMember target n u' with ⟨fault | ⟨next, inside⟩, v⟩ <;> rw [hm] at h h'
        · cases h
        · exact ih (hu.grows ((followMember_growing target n).of_run hm))
            (chainIn_of_followMember hu hm) hk' h h'
      · cases h
        exact hheld (.refl _) rfl

end SymbolTable

end NameLookup
