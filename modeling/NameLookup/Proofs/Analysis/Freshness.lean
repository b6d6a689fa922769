import NameLookup.Proofs.Analysis.Stored
import NameLookup.Proofs.Reexports

/-!
# Settled imports are up to date

In an analysis that starts on a closed table and is never asked about scopes that do not exist
(`ClosedRun`), what a waiting import came to under some bindings is what it would come to now if it
were settled afresh, without the cache of exports (`settled_afresh`). The invariant is `Coherent`:
all that is stored, faults included, would be found again on every later table.
-/

set_option autoImplicit false

namespace NameLookup

/-! ## Settling without a cache -/

namespace SymbolTable

variable {t : SymbolTable} {σ : Substitution} {token : Deferral}

/-- The scopes that a deferral is about exist. -/
def KnowsDeferral (t : SymbolTable) (token : Deferral) : Prop :=
  t.Knows token.type ∧ t.ChainIn token.chain

theorem KnowsDeferral.mono {u : SymbolTable} (h : t.KnowsDeferral token) (he : t.Extends u) :
    u.KnowsDeferral token :=
  ⟨h.1.mono he, h.2.mono he⟩

/-- What a waiting import comes to, its exports worked out on the spot. -/
def settleAfresh (σ : Substitution) (steps : Nat) (token : Deferral) :
    TableM ImportFault Contribution := do
  match ← resumeDeferral σ steps token with
  | .resolved target => return .ready (← targetExports target)
  | .deferred _ => return .pending

theorem settleAfresh_run (σ : Substitution) (steps : Nat) (token : Deferral) (t : SymbolTable) :
    settleAfresh σ steps token t =
      match resumeDeferral σ steps token t with
      | (.error fault, t) => (.error fault, t)
      | (.ok (.deferred _), t) => (.ok .pending, t)
      | (.ok (.resolved target), t) =>
        match targetExports target t with
        | (.error fault, t) => (.error fault, t)
        | (.ok exports, t) => (.ok (.ready exports), t) := by
  rw [settleAfresh, Attempt.run_bind]
  rcases resumeDeferral σ steps token t with ⟨_ | target | token, u⟩
  · rfl
  · simp only [Attempt.run_bind]
    rcases targetExports target u with ⟨_ | _, _⟩ <;> rfl
  · rfl

/-- In a closed table it is settled what a known deferral comes to; what is found mentions scopes
that exist, and the table stays closed. -/
theorem resumeDeferral_lasting (ht : t.Sound) (hc : t.Closed) (hσ : t.KnowsBindings σ)
    (hk : t.KnowsDeferral token) (steps : Nat) :
    Lasting (resumeDeferral σ steps token) t ∧ (resumeDeferral σ steps token t).2.Closed ∧
      ∀ target, (resumeDeferral σ steps token t).1 = .ok (.resolved target) →
        (resumeDeferral σ steps token t).2.Knows (.apply target.scope target.args) := by
  have hruns := resolveType_runs ht hc hσ hk.2 hk.1 steps
  refine ⟨fun u hu => ?_, ?_, fun target hr => ?_⟩
  · rw [resumeDeferral_run] at hu ⊢
    rw [resumeDeferral_run, hruns.claim u hu,
      (hruns.grows.trans hu).extends.spellType ht hc hk.1]
  · rw [resumeDeferral_run]
    exact hruns.table.2
  · rw [resumeDeferral_run] at hr ⊢
    exact hruns.result (Attempt.ok_of_mapError hr)

/-- So it is for operands, as far as the table and deferrals are concerned. -/
theorem resolveOperand_closed (ht : t.Sound) (hc : t.Closed) (hσ : t.KnowsBindings σ)
    {operand : Operand} (hop : ∀ ty, operand = .type ty → t.Knows ty) {chain : ScopeChain}
    (hchain : t.ChainIn chain) (steps : Nat) :
    (resolveOperand σ steps operand chain t).2.Closed ∧
      ∀ r, (resolveOperand σ steps operand chain t).1 = .ok r →
        permanence.Answers (resolveOperand σ steps operand chain t).2 r := by
  rw [resolveOperand_run]
  cases hty : t.operandType? chain operand with
  | none => exact ⟨hc, fun r hr => by cases hr⟩
  | some ty =>
    have hruns := resolveType_runs ht hc hσ hchain (hc.knows_operandType? hop hty) steps
    exact ⟨hruns.table.2, fun r hr => hruns.result (Attempt.ok_of_mapError hr)⟩

end SymbolTable

namespace Analysis

open Relation SymbolTable

variable {a b : Analysis} {σ : Substitution} {token : Deferral}

/-- Settling with an empty cache of exports is settling without one. -/
theorem settle_emptyCache (a : Analysis) (σ : Substitution) (token : Deferral) :
    (settle σ token { a with exportCache := .empty }).1 =
      (settleAfresh σ a.options.stepBudget token a.table).1 := by
  rw [settle_run, settleAfresh_run]
  simp only
  rcases resumeDeferral σ a.options.stepBudget token a.table with ⟨fault | target | token, t⟩
  · rfl
  · simp only [fetchExports_run, ExportCache.fetch_run]
    have hempty : ExportCache.empty.entries.lookup target = none := rfl
    rw [hempty]
    rcases targetExports target t with ⟨_ | _, _⟩ <;> rfl
  · rfl

/-! ## What is stored stays true -/

/-- The target exports this on every later table. -/
def Reproducible (t : SymbolTable) (target : Target) (e : Exports) : Prop :=
  ∀ u, t.Grows u → targetExports target u = (.ok e, u)

theorem supports_reproducible {t : SymbolTable} (ht : t.Sound) (hr : t.ReexportsIn) :
    Supports Reproducible t where
  made hg hrun _ hu := targetExports_again (ht.grows hg) (hr.grows hg) hrun hu
  kept _ hg h v hv := h v (hg.trans hv)

/-- The deferral comes to this on every later table. -/
def ComesTo (t : SymbolTable) (σ : Substitution) (steps : Nat) (token : Deferral)
    (c : Contribution) : Prop :=
  ∃ r, outcomeOf r = c ∧ ∀ u, t.Grows u → settleAfresh σ steps token u = (r, u)

theorem ComesTo.mono {t u : SymbolTable} {steps : Nat} {c : Contribution}
    (h : ComesTo t σ steps token c) (hg : t.Grows u) : ComesTo u σ steps token c := by
  obtain ⟨r, hr, hlast⟩ := h
  exact ⟨r, hr, fun v hv => hlast v (hg.trans hv)⟩

structure Coherent (a : Analysis) : Prop where
  closed : a.table.Closed
  frames : ∀ σ ∈ a.frames, a.table.KnowsBindings σ
  waiting : ∀ i ∈ a.imports.toList, ∀ token, i.state = .deferred token → a.table.KnowsDeferral token
  stores : Stores Reproducible a
  settled : ∀ x ∈ a.settled, ∃ i ∈ a.imports.toList, i.id = x.1.1 ∧
    ∃ token, i.state = .deferred token ∧ ComesTo a.table x.1.2 a.options.stepBudget token x.2

theorem knows_bindingsOf {t : SymbolTable} {frames : List Substitution}
    (h : ∀ σ ∈ frames, t.KnowsBindings σ) : t.KnowsBindings (bindingsOf frames) := by
  induction frames with
  | nil => exact fun b hb => absurd hb List.not_mem_nil
  | cons σ frames ih =>
    intro b hb
    rcases Substitution.mem_bindings_insertAll hb with hb | hb
    · exact ih (fun τ hτ => h τ (List.mem_cons_of_mem σ hτ)) b hb
    · exact h σ List.mem_cons_self b hb

theorem fetchExports_reproducible {target : Target} {r : Except ImportFault Exports}
    (ht : a.table.Sound) (hc : a.table.Closed) (hs : Stores Reproducible a)
    (hk : a.table.Knows (.apply target.scope target.args)) (h : fetchExports target a = (r, b)) :
    b.table.Closed ∧ ∀ u, b.table.Grows u → targetExports target u = (r, u) := by
  rw [fetchExports_run, ExportCache.fetch_run] at h
  cases hl : a.exportCache.entries.lookup target with
  | some e =>
    rw [hl] at h
    cases h
    exact ⟨hc, hs.cached hl⟩
  | none =>
    rw [hl] at h
    simp only at h
    have hclosed := targetExports_closed hc hk
    have hlast := targetExports_lasting ht hc hk
    unfold Lasting at hlast
    rcases hx : targetExports target a.table with ⟨fault | e, t⟩ <;>
      rw [hx] at h hclosed hlast <;> cases h <;> exact ⟨hclosed, hlast⟩

namespace Coherent

theorem new {t : SymbolTable} (hc : t.Closed) (options : Options) (associated : AssociatedScopes) :
    Coherent (.new t options associated) where
  closed := hc
  frames _ hσ := absurd hσ List.not_mem_nil
  waiting _ hi := absurd hi List.not_mem_nil
  stores := .new t options associated
  settled _ hx := absurd hx List.not_mem_nil

variable (h : a.Coherent) (ht : a.table.Sound)
include h ht

theorem consults (hc : a.Consults b) (hclosed : b.table.Closed) : b.Coherent where
  closed := hclosed
  frames σ hσ := (h.frames σ (hc.frames ▸ hσ)).mono hc.grows.extends
  waiting i hi token hstate :=
    (h.waiting i (hc.imports ▸ hi) token hstate).mono hc.grows.extends
  stores := h.stores.consults (supports_reproducible ht h.closed.reexports) hc
  settled x hx := by
    rw [hc.settled] at hx
    obtain ⟨i, hi, hid, token, hstate, hcomes⟩ := h.settled x hx
    rw [hc.imports, hc.options]
    exact ⟨i, hi, hid, token, hstate, hcomes.mono hc.grows⟩

/-- The analysis once the table has grown. -/
theorem stores_of_grows {t : SymbolTable} (hg : a.table.Grows t) :
    Stores Reproducible { a with table := t } :=
  h.stores.consults (supports_reproducible ht h.closed.reexports) (.ofGrows hg)

/-- What a waiting import comes to now, it will always come to. -/
theorem settle_comesTo (hσ : a.table.KnowsBindings σ) (hk : a.table.KnowsDeferral token)
    {r : Except ImportFault Contribution} (hrun : settle σ token a = (r, b)) :
    b.table.Closed ∧ ComesTo b.table σ a.options.stepBudget token (outcomeOf r) := by
  obtain ⟨hlast, hclosed, hknown⟩ :=
    resumeDeferral_lasting ht h.closed hσ hk a.options.stepBudget
  have hg := resumeDeferral_growing σ a.options.stepBudget token a.table
  unfold Lasting at hlast
  rw [settle_run] at hrun
  rcases hr : resumeDeferral σ a.options.stepBudget token a.table
    with ⟨fault | target | token', t⟩ <;> rw [hr] at hrun hlast hclosed hknown hg
  · cases hrun
    refine ⟨hclosed, _, rfl, fun u hu => ?_⟩
    rw [settleAfresh_run, hlast u hu]
  · rcases hf : fetchExports target { a with table := t } with ⟨r', c⟩
    obtain ⟨hclosed', hfetch⟩ :=
      fetchExports_reproducible (ht.grows hg) hclosed (h.stores_of_grows ht hg) (hknown target rfl) hf
    have hgc : t.Grows c.table :=
      (fetchExports_consults (a := { a with table := t }) (.refl t) hf).1.grows
    simp only [hf] at hrun
    rcases r' with fault | exports <;> cases hrun <;>
    · refine ⟨hclosed', _, rfl, fun u hu => ?_⟩
      rw [settleAfresh_run, hlast u (hgc.trans hu)]
      simp only [hfetch u hu]
  · cases hrun
    refine ⟨hclosed, _, rfl, fun u hu => ?_⟩
    rw [settleAfresh_run, hlast u hu]

/-- Asking what an operand denotes leaves a closed table, and a deferral that it knows. -/
theorem openingState_knows {operand : Operand} {chain : ScopeChain}
    (hop : ∀ ty, operand = .type ty → a.table.Knows ty) (hchain : a.table.ChainIn chain)
    {r : Except ImportFault ImportState} (hrun : openingState operand chain a = (r, b)) :
    b.table.Closed ∧ ∀ token, r = .ok (.deferred token) → b.table.KnowsDeferral token := by
  have hσ := knows_bindingsOf h.frames
  obtain ⟨hclosed, hanswers⟩ :=
    resolveOperand_closed ht h.closed hσ hop hchain a.options.stepBudget
  have hg := resolveOperand_growing (bindingsOf a.frames) a.options.stepBudget operand chain a.table
  rw [openingState_run] at hrun
  rcases hr : resolveOperand (bindingsOf a.frames) a.options.stepBudget operand chain a.table
    with ⟨fault | target | token, t⟩ <;> rw [hr] at hrun hclosed hanswers hg
  · cases hrun
    exact ⟨hclosed, fun token hr => by cases hr⟩
  · rcases hf : fetchExports target { a with table := t } with ⟨r', c⟩
    obtain ⟨hclosed', -⟩ := fetchExports_reproducible (ht.grows hg) hclosed
      (h.stores_of_grows ht hg) (hanswers _ rfl) hf
    simp only [hf] at hrun
    rcases r' with fault | exports <;> cases hrun <;>
      exact ⟨hclosed', fun token hr => by cases hr⟩
  · cases hrun
    exact ⟨hclosed, fun token' hr => by cases hr; exact hanswers _ rfl⟩

theorem openMove {operand : Operand} {chain : ScopeChain}
    (hop : ∀ ty, operand = .type ty → a.table.Knows ty) (hchain : a.table.ChainIn chain)
    (hm : OpenMove operand chain a b) : b.Coherent := by
  have hstores := h.stores.openMove (supports_reproducible ht h.closed.reexports) hm
  cases hm with
  | ask hrun =>
    exact h.consults ht (openingState_consults hrun).1 (h.openingState_knows ht hop hchain hrun).1
  | @register state c hrun kind extent fromSwitch =>
    obtain ⟨hclosed, hknows⟩ := h.openingState_knows ht hop hchain hrun
    have hc := h.consults ht (openingState_consults hrun).1 hclosed
    refine ⟨hc.closed, hc.frames, fun i hi token hstate => ?_, hstores, fun x hx => ?_⟩
    · rcases List.mem_append.1 hi with hi | hi
      · exact hc.waiting i hi token hstate
      · rw [List.mem_singleton.1 hi] at hstate
        exact hknows token (congrArg _ hstate)
    · obtain ⟨i, hi, hrest⟩ := hc.settled x hx
      exact ⟨i, List.mem_append_left _ hi, hrest⟩

theorem settleMove (hm : SettleMove a b) : b.Coherent := by
  have hstores := h.stores.settleMove (supports_reproducible ht h.closed.reexports) hm
  cases hm with
  | @mk i token σ r c hi hstate hσ _ hrun =>
  have hbound : a.table.KnowsBindings σ := by
    unfold bindings? at hσ
    split at hσ <;> cases hσ
    exact knows_bindingsOf h.frames
  obtain ⟨hclosed, hcomes⟩ := h.settle_comesTo ht hbound (h.waiting i hi token hstate) hrun
  have hconsults := (settle_consults hrun).1
  have hc := h.consults ht hconsults hclosed
  refine ⟨hc.closed, hc.frames, hc.waiting, hstores, fun x hx => ?_⟩
  rcases List.mem_cons.1 hx with rfl | hx
  · refine ⟨i, hconsults.imports ▸ hi, rfl, token, hstate, ?_⟩
    show ComesTo c.table σ c.options.stepBudget token (outcomeOf r)
    rw [hconsults.options]
    exact hcomes
  · exact hc.settled x hx

theorem settleMoves (hm : ReflTransGen SettleMove a b) : b.Coherent := by
  induction hm with
  | refl => exact h
  | tail hms hm ih => exact ih.settleMove (ht.grows (grows_of_settles hms)) hm

end Coherent

/-! ## Histories in a closed table -/

/-- The operation speaks only of scopes that exist. -/
def Operation.SpeaksOf (t : SymbolTable) : Operation → Prop
  | .openImport (.type ty) _ _ | .openSwitchImport (.type ty) _ => t.Knows ty
  | .enterFrame σ => t.KnowsBindings σ
  | _ => True

/-- The analysis started on a closed table and was only asked about scopes that existed. -/
inductive ClosedRun : Analysis → Prop
  | new {t : SymbolTable} (ht : t.Reachable) (hc : t.Closed) (options : Options)
      (associated : AssociatedScopes) : ClosedRun (.new t options associated)
  | operation {a : Analysis} (h : ClosedRun a) (op : Operation) (hop : op.SpeaksOf a.table) :
      ClosedRun (op.apply a)

theorem ClosedRun.reachable (h : ClosedRun a) : a.Reachable := by
  induction h with
  | new ht _ options associated => exact .new ht options associated
  | operation _ op _ ih => exact ih.operation op

theorem Coherent.withoutImport (h : a.Coherent) (hk : a.Kept) (id : ImportId) :
    (a.withoutImport id).Coherent where
  closed := h.closed
  frames := h.frames
  waiting i hi := h.waiting i (List.mem_of_mem_eraseP hi)
  stores := ⟨h.stores.cached, fun hi => h.stores.opened (List.mem_of_mem_eraseP hi),
    fun hx => h.stores.settled (List.mem_filter.1 hx).1⟩
  settled x hx := by
    obtain ⟨hx, hne⟩ := List.mem_filter.1 hx
    obtain ⟨i, hi, hid, hrest⟩ := h.settled x hx
    have hne : x.1.1 ≠ id := by simpa using hne
    exact ⟨i, hk.ordered.mem_erase.2 ⟨hi, hid ▸ hne⟩, hid, hrest⟩

theorem Coherent.operation (h : a.Coherent) (hk : a.Kept) {op : Operation}
    (hop : op.SpeaksOf a.table) : (op.apply a).Coherent := by
  have hchain (extent : Extent) : a.table.ChainIn (a.table.chainAt extent.block) :=
    chainAt_in hk.sound h.closed.blocks extent.block
  cases op with
  | openImport operand kind extent =>
    refine h.openMove hk.sound (fun ty hty => ?_) (hchain extent)
      (openImport_move a operand kind extent)
    subst hty
    exact hop
  | openSwitchImport controlling extent =>
    refine h.openMove hk.sound (fun ty hty => ?_)
      (fun s hs => hchain extent s (List.mem_of_mem_tail hs))
      (openSwitchImport_move a controlling extent)
    subst hty
    exact hop
  | closeImport id =>
    show (Analysis.closeImport id a).2.Coherent
    rw [closeImport_run]
    cases a.imports.get? id with
    | none => exact h
    | some i => exact h.withoutImport hk id
  | enterFrame σ =>
    refine ⟨h.closed, fun τ hτ => ?_, h.waiting, ⟨h.stores.cached, h.stores.opened, h.stores.settled⟩,
      h.settled⟩
    rcases List.mem_cons.1 hτ with rfl | hτ
    · exact hop
    · exact h.frames τ hτ
  | leaveFrame =>
    exact ⟨h.closed, fun τ hτ => h.frames τ (List.mem_of_mem_tail hτ), h.waiting,
      ⟨h.stores.cached, h.stores.opened, h.stores.settled⟩, h.settled⟩
  | visibleImports p => exact h.settleMoves hk.sound (visibleImports_settles a p)
  | lookup name p => exact h.settleMoves hk.sound (lookup_settles a name p)

theorem ClosedRun.coherent (h : ClosedRun a) : a.Coherent := by
  induction h with
  | new _ hc options associated => exact .new hc options associated
  | operation h op hop ih => exact ih.operation h.reachable.kept hop

/-- At a block beside the class template `Box<T>`. -/
def besideBox : Analysis :=
  .new (((SymbolTable.new SymbolTable.defaultInstantiationLimit).withScope SymbolTable.global "Box"
    .classType (some ["T"])).withDecl ⟨"size", .staticData, .scope ⟨1⟩, some (.param "T"), none⟩
    |>.addBlock (.scope SymbolTable.global)).2 .default fun _ _ => []

theorem besideBox_closedRun : ClosedRun besideBox := by
  refine .new ((((SymbolTable.Reachable.new _).withScope _ _ _ _).withDecl _).change (.addBlock _))
    ((((Closed.new _).withScope _ _ _ _).withDecl fun ty hty => ?_).addBlock fun s hs => ?_) _ _
  · cases hty
    exact fun s hs => absurd hs List.not_mem_nil
  · cases hs
    decide

end Analysis

end NameLookup
