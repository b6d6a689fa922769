import NameLookup.Proofs.Operand.Repetition
import NameLookup.Proofs.TypeExpr.Unfolding

/-!
# Resolution with more steps, and along other chains

An answer that was not cut off by the step budget stays the same when more steps are allowed, when
some parameters were already replaced by what they are bound to, and when names are looked up along
another chain on which they stand for the same (`resolveType_interchange`). Only the type that a
deferral keeps depends on how far it was replaced and where it is looked up, so resolutions are
compared by `SameAnswer`.

Chains are compared by a relation that is carried along while a type is followed (`Interchange`);
for one and the same chain there is nothing to carry (`resolveType_moreSteps`).
-/

set_option autoImplicit false

namespace NameLookup.SymbolTable

open Attempt TypeExpr

/-- The same target, a deferral both times, or faults that correspond. -/
inductive SameAnswer {ε : Type} (same : ε → ε → Prop) :
    Except ε Resolution → Except ε Resolution → Prop
  | resolved (target : Target) : SameAnswer same (.ok (.resolved target)) (.ok (.resolved target))
  | deferred (x y : Deferral) : SameAnswer same (.ok (.deferred x)) (.ok (.deferred y))
  | fault {e e' : ε} (h : same e e') : SameAnswer same (.error e) (.error e')

/-- The step budget was used up. -/
def RanOut {α : Type} (r : Except ResolutionFault α) : Prop := r = .error (.operand .aliasCycle)

theorem RanOut.fault {α β : Type} {fault : ResolutionFault}
    (h : RanOut (.error fault : Except ResolutionFault α)) :
    RanOut (.error fault : Except ResolutionFault β) := by
  cases h
  rfl

theorem SameAnswer.refl (r : Except ResolutionFault Resolution) : SameAnswer Eq r r := by
  rcases r with fault | target | token
  · exact .fault rfl
  · exact .resolved target
  · exact .deferred token token

theorem SameAnswer.target_eq {ε : Type} {same : ε → ε → Prop} {x y : Target}
    (h : SameAnswer same (.ok (.resolved x)) (.ok (.resolved y))) : x = y := by
  cases h
  rfl

/-! ## Chains that are interchangeable -/

/-- `C t ty c c'` says that on the table `t` the chain `c'` serves as well as `c` for following `ty`.
This is so for what `ty` leads to, and remains so while the table grows. -/
structure Interchange (σ : Substitution)
    (C : SymbolTable → TypeExpr → ScopeChain → ScopeChain → Prop) : Prop where
  refl : ∀ t ty c, C t ty c c
  named : ∀ {t n c c'}, C t (.named n) c c' → t.typeNamed? n c' = t.typeNamed? n c
  next : ∀ {t n c c' ty}, C t (.named n) c c' → t.typeNamed? n c = some ty → C t ty c c'
  bound : ∀ {t p c c' ty}, C t (.param p) c c' → σ.get? p = some ty → C t ty c c'
  substitute : ∀ {t ty c c'}, C t ty c c' → C t (ty.substitute σ) c c'
  arg : ∀ {t s args c c'}, C t (.apply s args) c c' → ∀ a ∈ args, C t a c c'
  base : ∀ {t ty n c c'}, C t (.member ty n) c c' → C t ty c c'
  grows : ∀ {t u ty c c'}, C t ty c c' → t.Grows u → C u ty c c'

/-- A chain is as good as itself. -/
theorem Interchange.same (σ : Substitution) : Interchange σ fun _ _ c c' => c = c' where
  refl _ _ _ := rfl
  named h := by rw [h]
  next h _ := h
  bound h _ := h
  substitute h := h
  arg h _ _ := h
  base h := h
  grows h _ := h

variable {σ : Substitution} {C : SymbolTable → TypeExpr → ScopeChain → ScopeChain → Prop}

/-- The arguments are canonical one by one, so what holds of each holds of all of them. -/
theorem canonicalArgs_interchange (hC : Interchange σ C) {c c' : ScopeChain}
    {f g : TypeExpr → TableM ResolutionFault (Option TypeExpr)} (hgrow : ∀ a, Growing (f a))
    (hfg : ∀ {a b t r t'}, Unfolds σ a b → C t a c c' → f a t = (r, t') → ¬ RanOut r →
      g b t = (r, t'))
    {as bs : List TypeExpr} (hu : UnfoldsAll σ as bs) {t t' : SymbolTable}
    (hin : ∀ a ∈ as, C t a c c') {r : Except ResolutionFault (Option (List TypeExpr))}
    (h : canonicalArgs f as t = (r, t')) (hr : ¬ RanOut r) : canonicalArgs g bs t = (r, t') := by
  induction as generalizing bs t r t' with
  | nil =>
    cases bs with
    | nil => exact h
    | cons b bs => cases hu.1
  | cons a as ih =>
    cases bs with
    | nil => cases hu.1
    | cons b bs =>
      obtain ⟨hab, htail⟩ := hu.head_tail
      have hhead := hin a List.mem_cons_self
      rw [canonicalArgs_cons] at h ⊢
      rcases ha : f a t with ⟨fault | _ | a', u⟩ <;> rw [ha] at h
      · cases h
        rw [hfg hab hhead ha fun hf => hr hf.fault]
      · cases h
        rw [hfg hab hhead ha fun hf => by cases hf]
      · rw [hfg hab hhead ha fun hf => by cases hf]
        have hrest : ∀ a ∈ as, C u a c c' := fun a' ha' =>
          hC.grows (hin a' (List.mem_cons_of_mem a ha')) ((hgrow a).of_run ha)
        simp only at h ⊢
        rcases has : canonicalArgs f as u with ⟨fault | o, v⟩ <;> rw [has] at h
        · cases h
          rw [ih htail hrest has fun hf => hr hf.fault]
        · cases h
          rw [ih htail hrest has fun hf => by cases hf]

/-- A member is followed to an answer that corresponds if its base is. -/
theorem throughMember_interchange {α : Type}
    {S : Except ResolutionFault α → Except ResolutionFault α → Prop}
    {base base' : TableM ResolutionFault Resolution} {waiting waiting' : α}
    {f g : TypeExpr → ScopeChain → TableM ResolutionFault α} {n : Name} {t t' : SymbolTable}
    {r : Except ResolutionFault α} (hS : ∀ r, S r r) (hwaiting : S (.ok waiting) (.ok waiting'))
    (hbase : ∀ {r t'}, base t = (r, t') → ¬ RanOut r →
      ∃ r', base' t = (r', t') ∧ SameAnswer Eq r r')
    (hfg : ∀ {ty chain t r t'}, f ty chain t = (r, t') → ¬ RanOut r →
      ∃ r', g ty chain t = (r', t') ∧ S r r')
    (h : throughMember base n waiting f t = (r, t')) (hr : ¬ RanOut r) :
    ∃ r', throughMember base' n waiting' g t = (r', t') ∧ S r r' := by
  rw [throughMember_run] at h ⊢
  rcases hb : base t with ⟨fault | target | token, u⟩ <;> rw [hb] at h
  · cases h
    obtain ⟨r', hb', hsame⟩ := hbase hb fun hf => hr hf.fault
    rw [hb']
    cases hsame with
    | fault hf => exact ⟨_, rfl, hf ▸ hS _⟩
  · obtain ⟨r', hb', hsame⟩ := hbase hb fun hf => by cases hf
    rw [hb']
    cases hsame
    simp only at h ⊢
    rcases hm : followMember target n u with ⟨fault | ⟨next, inside⟩, v⟩ <;> rw [hm] at h
    · cases h
      exact ⟨_, rfl, hS _⟩
    · exact hfg h hr
  · cases h
    obtain ⟨r', hb', hsame⟩ := hbase hb fun hf => by cases hf
    rw [hb']
    cases hsame
    exact ⟨_, rfl, hwaiting⟩

/-- An answer to a type that took `k` steps at most corresponds to the one with more steps, also
when parameters were replaced beforehand and along another chain that serves as well. -/
def TypeKeeps (C : SymbolTable → TypeExpr → ScopeChain → ScopeChain → Prop) (σ : Substitution)
    (k : Nat) : Prop :=
  ∀ {x y c c' t r t' m}, Unfolds σ x y → C t x c c' → k ≤ m → resolveType σ k x c t = (r, t') →
    ¬ RanOut r → ∃ r', resolveType σ m y c' t = (r', t') ∧ SameAnswer Eq r r'

/-- A canonical form that took `k` steps at most is the one with more steps and along the other
chain. -/
def ArgKeeps (C : SymbolTable → TypeExpr → ScopeChain → ScopeChain → Prop) (σ : Substitution)
    (k : Nat) : Prop :=
  ∀ {x y c c' t r t' m}, Unfolds σ x y → C t x c c' → k ≤ m → canonicalArg σ k x c t = (r, t') →
    ¬ RanOut r → canonicalArg σ m y c' t = (r, t')

theorem typeKeeps_succ (hC : Interchange σ C) {k : Nat} (ihr : TypeKeeps C σ k)
    (iha : ArgKeeps C σ k) : TypeKeeps C σ (k + 1) := by
  intro x y c c' t r t' m hu hin hkm h hr
  obtain ⟨m, rfl⟩ : ∃ n, m = n + 1 := ⟨m - 1, by omega⟩
  have hkm' : k ≤ m := by omega
  cases hu with
  | scalar n => exact ⟨r, h, .refl r⟩
  | named n =>
    rw [resolveType_named] at h ⊢
    rw [hC.named hin]
    cases hn : t.typeNamed? n c with
    | none =>
      rw [hn] at h
      exact ⟨r, h, .refl r⟩
    | some next =>
      rw [hn] at h
      exact ihr (.refl next) (hC.next hin hn) hkm' h hr
  | param p =>
    rw [resolveType_param] at h ⊢
    cases hp : σ.get? p with
    | none =>
      rw [hp] at h
      cases h
      exact ⟨_, rfl, .deferred _ _⟩
    | some bound =>
      rw [hp] at h
      exact ihr (.refl bound) (hC.bound hin hp) hkm' h hr
  | bound hp hu =>
    rw [resolveType_param, hp] at h
    exact ihr hu (hC.bound hin hp) (by omega) h hr
  | scope s => exact ⟨r, h, .refl r⟩
  | @apply s as bs hlen hu =>
    rw [resolveType_apply] at h ⊢
    have hall := UnfoldsAll.substituteAll (.refl σ) ⟨hlen, hu⟩
    have hargs : ∀ a ∈ substituteAll σ as, C t a c c' := fun a ha => by
      rw [substituteAll_eq_map] at ha
      obtain ⟨a₀, ha₀, rfl⟩ := List.mem_map.1 ha
      exact hC.substitute (hC.arg hin a₀ ha₀)
    have hrun {r u} := @canonicalArgs_interchange σ C hC c c' (fun a => canonicalArg σ k a c)
      (fun a => canonicalArg σ m a c') (fun a => canonicalArg_growing σ k a c)
      (fun hu hin => iha hu hin hkm') _ _ hall t u hargs r
    rcases hc : canonicalArgs (fun a => canonicalArg σ k a c) (substituteAll σ as) t with
      ⟨fault | _ | canonical, u⟩ <;> rw [hc] at h <;> cases h
    · rw [hrun hc fun hf => hr hf.fault]
      exact ⟨_, rfl, .fault rfl⟩
    · rw [hrun hc fun hf => by cases hf]
      exact ⟨_, rfl, .deferred _ _⟩
    · rw [hrun hc fun hf => by cases hf]
      exact ⟨_, rfl, .resolved _⟩
  | @member base base' n hu =>
    rw [resolveType_member] at h ⊢
    exact throughMember_interchange .refl (.deferred _ _) (ihr hu (hC.base hin) hkm')
      (fun {ty inside t} => ihr (.refl ty) (hC.refl t ty inside) hkm') h hr

theorem argKeeps_succ (hC : Interchange σ C) {k : Nat} (ihr : TypeKeeps C σ k)
    (iha : ArgKeeps C σ k) : ArgKeeps C σ (k + 1) := by
  intro x y c c' t r t' m hu hin hkm h hr
  obtain ⟨m, rfl⟩ : ∃ n, m = n + 1 := ⟨m - 1, by omega⟩
  have hkm' : k ≤ m := by omega
  cases hu with
  | scalar n => exact h
  | named n =>
    rw [canonicalArg_named] at h ⊢
    rw [hC.named hin]
    cases hn : t.typeNamed? n c with
    | none =>
      rw [hn] at h
      exact h
    | some next =>
      rw [hn] at h
      exact iha (.refl next) (hC.next hin hn) hkm' h hr
  | param p =>
    rw [canonicalArg_param] at h ⊢
    cases hp : σ.get? p with
    | none =>
      rw [hp] at h
      exact h
    | some bound =>
      rw [hp] at h
      exact iha (.refl bound) (hC.bound hin hp) hkm' h hr
  | bound hp hu =>
    rw [canonicalArg_param, hp] at h
    exact iha hu (hC.bound hin hp) (by omega) h hr
  | scope s => exact h
  | @apply s as bs hlen hu =>
    rw [canonicalArg_apply] at h ⊢
    have hrun {r u} := @canonicalArgs_interchange σ C hC c c' (fun a => canonicalArg σ k a c)
      (fun a => canonicalArg σ m a c') (fun a => canonicalArg_growing σ k a c)
      (fun hu hin => iha hu hin hkm') _ _ ⟨hlen, hu⟩ t u (hC.arg hin) r
    rcases hc : canonicalArgs (fun a => canonicalArg σ k a c) as t with
      ⟨fault | canonical, u⟩ <;> rw [hc] at h <;> cases h
    · rw [hrun hc fun hf => hr hf.fault]
    · rw [hrun hc fun hf => by cases hf]
  | @member base base' n hu =>
    rw [canonicalArg_member] at h ⊢
    obtain ⟨_, hrun, rfl⟩ := throughMember_interchange (S := Eq) (fun _ => rfl) rfl
      (ihr hu (hC.base hin) hkm')
      (fun {ty inside t r t'} hf hr => ⟨r, iha (.refl ty) (hC.refl t ty inside) hkm' hf hr, rfl⟩)
      h hr
    exact hrun

theorem resolution_interchange (hC : Interchange σ C) (k : Nat) :
    TypeKeeps C σ k ∧ ArgKeeps C σ k := by
  induction k with
  | zero =>
    constructor
    · intro x y c c' t r t' m _ _ _ h hr
      rw [resolveType_zero] at h
      cases h
      exact absurd rfl hr
    · intro x y c c' t r t' m hu _ _ h hr
      cases hu with
      | scalar n =>
        rw [canonicalArg_scalar] at h ⊢
        exact h
      | scope s =>
        rw [canonicalArg_scope] at h ⊢
        exact h
      | named | param | bound | apply | member =>
        cases h
        exact absurd rfl hr
  | succ k ih => exact ⟨typeKeeps_succ hC ih.1 ih.2, argKeeps_succ hC ih.1 ih.2⟩

variable {x y : TypeExpr} {c c' : ScopeChain} {k m : Nat} {t t' : SymbolTable}
  {r : Except ResolutionFault Resolution}

/-- More steps, parameters replaced beforehand and a chain that serves as well do not change an
answer that was not cut off. -/
theorem resolveType_interchange (hC : Interchange σ C) (hu : Unfolds σ x y) (hin : C t x c c')
    (hkm : k ≤ m) (h : resolveType σ k x c t = (r, t')) (hr : ¬ RanOut r) :
    ∃ r', resolveType σ m y c' t = (r', t') ∧ SameAnswer Eq r r' :=
  (resolution_interchange hC k).1 hu hin hkm h hr

theorem resolveType_moreSteps (hu : Unfolds σ x y) (hkm : k ≤ m)
    (h : resolveType σ k x c t = (r, t')) (hr : ¬ RanOut r) :
    ∃ r', resolveType σ m y c t = (r', t') ∧ SameAnswer Eq r r' :=
  resolveType_interchange (.same σ) hu rfl hkm h hr

theorem canonicalArg_moreSteps {r : Except ResolutionFault (Option TypeExpr)} (hu : Unfolds σ x y)
    (hkm : k ≤ m) (h : canonicalArg σ k x c t = (r, t')) (hr : ¬ RanOut r) :
    canonicalArg σ m y c t = (r, t') :=
  (resolution_interchange (.same σ) k).2 hu rfl hkm h hr

end NameLookup.SymbolTable
