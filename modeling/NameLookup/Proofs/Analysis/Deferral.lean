import NameLookup.Proofs.Analysis.Moves
import NameLookup.Proofs.Operand.Answers
import NameLookup.Proofs.Operand.Deferral
import NameLookup.Proofs.SymbolTable.Rendering

/-!
# Deferral is transparent

An operand that waits for template arguments comes later to what it would have come to at once under
the bindings that are then in force (`resume_sameAnswer`), and an import of it contributes what one
contributes that is opened there (`contributes_deferred`). Two things are wanted for that
(`deferral_not_transparent`). The scopes of the chain exist already: a scope that comes into being
while the operand waits has members that were not seen before. And spelling the type that waits ends:
it is another type than that of the operand, and is spelled when it is asked for again.
-/

set_option autoImplicit false

namespace NameLookup

/-- Faults that differ at most in how they spell the operand. -/
inductive SameFault : ImportFault → ImportFault → Prop
  | unresolved (x y : String) (fault : OperandFault) :
      SameFault (.unresolved x fault) (.unresolved y fault)
  | refl (fault : ImportFault) : SameFault fault fault

/-- The operand used up the step budget. -/
def CutOff {α : Type} (r : Except ImportFault α) : Prop :=
  ∃ operand, r = .error (.unresolved operand .aliasCycle)

namespace SymbolTable

theorem SameAnswer.mapError {r r' : Except ResolutionFault Resolution} (h : SameAnswer Eq r r')
    (x y : String) :
    SameAnswer SameFault (r.mapError (ResolutionFault.toImportFault x))
      (r'.mapError (ResolutionFault.toImportFault y)) := by
  cases h with
  | resolved target => exact .resolved target
  | deferred token token' => exact .deferred token token'
  | @fault e _ h =>
    subst h
    cases e with
    | operand fault => exact .fault (.unresolved x y fault)
    | instantiation fault => exact .fault (.refl _)

theorem cutOff_of_ranOut {r : Except ResolutionFault Resolution} (h : RanOut r) (operand : String) :
    CutOff (r.mapError (ResolutionFault.toImportFault operand)) := by
  rw [h]
  exact ⟨operand, rfl⟩

/-- An operand that was deferred under some bindings, asked for again under more of them, has the
answer that it would have had under those at once, and leaves the same table. -/
theorem resume_sameAnswer {t t₁ t₂ : SymbolTable} {σ τ : Substitution} {steps : Nat}
    {operand : Operand} {chain : ScopeChain} {token : Deferral} {r : Except ImportFault Resolution}
    (ht : t.Sound) (hc : t.ChainIn chain) (hle : σ.Within τ)
    (h : resolveOperand σ steps operand chain t = (.ok (.deferred token), t₁))
    (h' : resolveOperand τ steps operand chain t = (r, t₂)) (hr : ¬ CutOff r) :
    ∃ r', resumeDeferral τ steps token t₁ = (r', t₂) ∧ SameAnswer SameFault r r' := by
  rw [resolveOperand_run] at h h'
  cases ho : t.operandType? chain operand with
  | none =>
    rw [ho] at h
    cases h
  | some ty =>
    simp only [ho] at h h'
    rcases hx : resolveType σ steps ty chain t with ⟨fault | o, u⟩ <;> rw [hx] at h <;> cases h
    rcases hy : resolveType τ steps ty chain t with ⟨ry, u'⟩
    rw [hy] at h'
    cases h'
    have hry : ¬ RanOut ry := fun hf => hr (cutOff_of_ranOut hf _)
    obtain ⟨r', hresume, hsame⟩ := resolveType_resume hle steps ht hc (Nat.le_refl _) hx hy hry
    rw [resumeDeferral_run, hresume]
    exact ⟨_, rfl, hsame.mapError _ _⟩

/-- A type that waited is followed to the target that the operand denotes at once, in the same table. -/
theorem resume_resolved {t t₁ t₂ : SymbolTable} {σ τ : Substitution} {steps : Nat}
    {operand : Operand} {chain : ScopeChain} {token : Deferral} {r : Except ImportFault Resolution}
    (ht : t.Sound) (hc : t.ChainIn chain) (hle : σ.Within τ)
    (h : resolveOperand σ steps operand chain t = (.ok (.deferred token), t₁))
    (h' : resolveOperand τ steps operand chain t = (r, t₂)) (hr : ¬ CutOff r) {target : Target}
    {u : SymbolTable} (hres : resumeDeferral τ steps token t₁ = (.ok (.resolved target), u)) :
    r = .ok (.resolved target) ∧ u = t₂ := by
  obtain ⟨r', hrun, hsame⟩ := resume_sameAnswer ht hc hle h h' hr
  rw [hrun] at hres
  cases hres
  cases hsame
  exact ⟨rfl, rfl⟩

/-- What is spelled to work out the exports of a target ends: the name of a generic body, which is
refused. -/
def ExportsSpelled (t : SymbolTable) (target : Target) : Prop :=
  ∀ s u, concreteScope target t = (.ok s, u) → u.isTemplate s = true → u.SpellingEnds (.scope s)

theorem Grounded.exportsSpelled {t : SymbolTable} (h : t.Grounded) {target : Target}
    (hargs : ∀ a ∈ target.args, t.Knows a) : t.ExportsSpelled target := by
  intro s u hrun _
  unfold concreteScope at hrun
  split at hrun
  · cases hrun
    exact h.ordered.spellingEnds _
  · have hu := h.change (.instantiate ⟨target.scope, target.args⟩ hargs)
    rw [hrun] at hu
    exact hu.ordered.spellingEnds _

end SymbolTable

namespace Analysis

/-- What an import that opens in a state contributes. -/
inductive Matches : Except ImportFault ImportState → Except ImportFault Contribution → Prop
  | active (target : Target) (e : Exports) : Matches (.ok (.active target e)) (.ok (.ready e))
  | deferred (token : Deferral) : Matches (.ok (.deferred token)) (.ok .pending)
  | fault {f f' : ImportFault} (h : SameFault f f') : Matches (.error f) (.error f')

/-- Opening an import of the operand answers `r` and leaves `b`. The operand of one that opens is
spelled once more at the end. -/
structure OpensTo (a : Analysis) (operand : Operand) (kind : ImportKind) (extent : Extent)
    (r : Except ImportFault OpenImport) (b : Analysis) : Prop where
  spelled : ∃ text, a.table.OperandText operand text
  spelledAgain : ∀ i, r = .ok i → ∃ text, b.table.OperandText operand text
  exports : ∀ target t, SymbolTable.resolveOperand (bindingsOf a.frames) a.options.stepBudget operand
    (a.table.chainAt extent.block) a.table = (.ok (.resolved target), t) → t.ExportsSpelled target
  run : openImport operand kind extent a = (r, b)

/-- Asked for what it contributes the import answers `c`, and `b` is left. If it waits and has not
been settled under the bindings in force, its type is asked for again. -/
structure Contributes (a : Analysis) (i : OpenImport) (c : Contribution) (b : Analysis) : Prop where
  spelled : ∀ token σ, i.state = .deferred token → a.bindings? = some σ →
    a.settled.lookup (i.id, σ) = none → a.table.SpellingEnds token.type ∧
      ∀ target t, SymbolTable.resumeDeferral σ a.options.stepBudget token a.table =
        (.ok (.resolved target), t) → t.ExportsSpelled target
  run : contributionOf i a = (c, b)

variable {a a₁ b : Analysis} {operand : Operand} {chain : ScopeChain} {token : Deferral}

theorem openingState_deferred (h : openingState operand chain a = (.ok (.deferred token), b)) :
    ∃ t, b = { a with table := t } ∧ SymbolTable.resolveOperand (bindingsOf a.frames)
      a.options.stepBudget operand chain a.table = (.ok (.deferred token), t) := by
  rw [openingState_run] at h
  rcases hx : SymbolTable.resolveOperand (bindingsOf a.frames) a.options.stepBudget operand chain
    a.table with ⟨fault | target | token', t⟩ <;> simp only [hx] at h
  · cases h
  · rcases hf : fetchExports target { a with table := t } with ⟨fault | exports, c⟩ <;>
      rw [hf] at h <;> cases h
  · cases h
    exact ⟨t, rfl, rfl⟩

/-- What cuts an operand off cuts an import of it off. -/
theorem not_cutOff_operand {r : Except ImportFault ImportState}
    (h : openingState operand chain a = (r, b)) (hr : ¬ CutOff r) :
    ¬ CutOff (SymbolTable.resolveOperand (bindingsOf a.frames) a.options.stepBudget operand chain
      a.table).1 := by
  rintro ⟨text, htext⟩
  rw [openingState_run, Attempt.run_of_fst htext] at h
  cases h
  exact hr ⟨text, rfl⟩

theorem not_cutOff_openingState {kind : ImportKind} {extent : Extent}
    {r : Except ImportFault OpenImport} (h : openImport operand kind extent a = (r, b))
    (hr : ¬ CutOff r) :
    ¬ CutOff (openingState operand (a.table.chainAt extent.block) a).1 := by
  rintro ⟨text, htext⟩
  rw [openImport_run, Attempt.run_of_fst htext] at h
  cases h
  exact hr ⟨text, rfl⟩

/-- A deferred operand settles as an import of it would have opened under the bindings of `fs`. -/
theorem settle_matches {fs : List Substitution} {r : Except ImportFault ImportState}
    (ht : a.table.Sound) (hc : a.table.ChainIn chain)
    (hle : (bindingsOf a.frames).Within (bindingsOf fs))
    (h : openingState operand chain a = (.ok (.deferred token), a₁))
    (h' : openingState operand chain { a with frames := fs } = (r, b)) (hr : ¬ CutOff r)
    {c : Analysis} (htable : c.table = a₁.table) (hoptions : c.options = a.options)
    (hcache : c.exportCache = a.exportCache) :
    ∃ r' d, settle (bindingsOf fs) token c = (r', d) ∧ d.table = b.table ∧ Matches r r' := by
  obtain ⟨t₁, rfl, hx⟩ := openingState_deferred h
  have hry := not_cutOff_operand h' hr
  rw [openingState_run] at h'
  rcases hy : SymbolTable.resolveOperand (bindingsOf fs) a.options.stepBudget operand chain
    a.table with ⟨ry, t₂⟩
  simp only [hy] at h' hry
  obtain ⟨r', hresume, hsame⟩ := SymbolTable.resume_sameAnswer ht hc hle hx hy hry
  rw [settle_run, hoptions, htable]
  simp only [hresume]
  cases hsame with
  | fault hf =>
    cases h'
    exact ⟨_, _, rfl, rfl, .fault hf⟩
  | deferred x y =>
    cases h'
    exact ⟨_, _, rfl, rfl, .deferred x⟩
  | resolved target =>
    simp only [fetchExports_run, hcache] at h' ⊢
    rcases hf : a.exportCache.fetch target t₂ with ⟨fault | ⟨exports, cache⟩, t₃⟩ <;>
      simp only [hf] at h' ⊢ <;> cases h'
    · exact ⟨_, _, rfl, rfl, .fault (.refl _)⟩
    · exact ⟨_, _, rfl, rfl, .active target exports⟩

/-- An import that opens and waits was registered as such, and only the table has changed before. -/
theorem openImport_deferred {kind : ImportKind} {extent : Extent} {i : OpenImport}
    (h : openImport operand kind extent a = (.ok i, a₁)) (hstate : i.state = .deferred token) :
    ∃ t, i = (a.imports.insert kind extent operand (.deferred token) false).1 ∧
      a₁ = ({ a with table := t } : Analysis).withImport kind extent operand (.deferred token) false ∧
      openingState operand (a.table.chainAt extent.block) a =
        (.ok (.deferred token), { a with table := t }) := by
  rw [openImport_run] at h
  rcases hx : openingState operand (a.table.chainAt extent.block) a with ⟨fault | state, c⟩ <;>
    rw [hx] at h <;> cases h
  change state = _ at hstate
  subst hstate
  obtain ⟨t, rfl, -⟩ := openingState_deferred hx
  exact ⟨t, rfl, rfl, rfl⟩

/-- An import that opens is the one that has its number. -/
theorem openImport_denotes (ha : a.Reachable) {kind : ImportKind} {extent : Extent} {i : OpenImport}
    (h : openImport operand kind extent a = (.ok i, b)) (hfit : b.imports.NumbersFit) :
    b.imports.Denotes i.id i := by
  have hb : b.Reachable := by
    have hop := ha.operation (.openImport operand kind extent)
    rwa [Operation.apply, h] at hop
  refine hb.kept.ordered.denotes hfit ?_
  rw [openImport_run] at h
  rcases ho : openingState operand (a.table.chainAt extent.block) a with ⟨fault | state, c⟩ <;>
    rw [ho] at h <;> cases h
  exact List.mem_append_right _ (List.mem_singleton_self _)

/-- Nothing is settled for the import that is opened next. -/
theorem Kept.settled_nextId (h : a.Kept) (σ : Substitution) :
    a.settled.lookup (⟨a.imports.nextId⟩, σ) = none := by
  cases hl : a.settled.lookup (⟨a.imports.nextId⟩, σ) with
  | none => rfl
  | some c =>
    obtain ⟨i, hi, hid, -⟩ := h.settled _ (AssocList.mem_of_lookup hl)
    have hlt := h.ordered.below i hi
    rw [hid] at hlt
    exact absurd hlt (Nat.lt_irrefl _)

/-- An import that has just been opened and waits contributes what its type comes to. -/
theorem contributionOf_opened (i : OpenImport) {τ : Substitution} {fs : List Substitution}
    {r : Except ImportFault Contribution} {c : Analysis} (ha : a.Kept)
    (h : settle (bindingsOf (τ :: fs)) token b = (r, c)) (hid : i.id = ⟨a.imports.nextId⟩)
    (hstate : i.state = .deferred token) (hframes : b.frames = τ :: fs)
    (hsettled : b.settled = a.settled) :
    (contributionOf i b).1 = outcomeOf r ∧ (contributionOf i b).2.table = c.table := by
  have hbindings : b.bindings? = some (bindingsOf (τ :: fs)) := by rw [bindings?, hframes]; rfl
  rw [contributionOf_run, hstate]
  simp only
  rw [contribution_run, hbindings, hsettled, hid]
  simp only
  rw [ha.settled_nextId, h]
  exact ⟨rfl, rfl⟩

/-- Inside of a frame, an import that waits since before contributes what one contributes that is
opened there, and leaves the same table. -/
theorem contributionOf_deferred {kind : ImportKind} {extent : Extent} {i : OpenImport}
    {τ : Substitution} {r : Except ImportFault OpenImport} (ha : a.Reachable)
    (hc : a.table.ChainIn (a.table.chainAt extent.block))
    (hle : (bindingsOf a.frames).Within (bindingsOf (τ :: a.frames)))
    (h : openImport operand kind extent a = (.ok i, a₁)) (hstate : i.state = .deferred token)
    (h' : openImport operand kind extent (a.enterFrame τ) = (r, b)) (hr : ¬ CutOff r) :
    (contributionOf i (a₁.enterFrame τ)).2.table = b.table ∧
      (∀ j, r = .ok j → (contributionOf i (a₁.enterFrame τ)).1 = (contributionOf j b).1) ∧
      ∀ fault, r = .error fault → ∃ fault',
        (contributionOf i (a₁.enterFrame τ)).1 = .failed fault' ∧ SameFault fault fault' := by
  have hk := ha.kept
  have hry := not_cutOff_openingState h' hr
  obtain ⟨t₁, rfl, rfl, hx⟩ := openImport_deferred h hstate
  rw [openImport_run] at h'
  rcases hy : openingState operand ((a.enterFrame τ).table.chainAt extent.block) (a.enterFrame τ)
    with ⟨ry, c⟩
  rw [hy] at h' hry
  obtain ⟨r', d, hsettle, htable, hmatch⟩ :=
    @settle_matches a _ c operand _ token (τ :: a.frames) ry hk.sound hc hle hx hy hry
      ((({ a with table := t₁ } : Analysis).withImport kind extent operand (.deferred token)
        false).enterFrame τ) rfl rfl rfl
  obtain ⟨hcontrib, htable'⟩ := contributionOf_opened
    (a.imports.insert kind extent operand (.deferred token) false).1 hk hsettle rfl rfl rfl rfl
  rw [hcontrib, htable', htable]
  cases hmatch with
  | fault hf =>
    cases h'
    refine ⟨rfl, fun _ hj => (by cases hj), fun _ hf' => ?_⟩
    cases hf'
    exact ⟨_, rfl, hf⟩
  | active target e =>
    cases h'
    refine ⟨rfl, fun _ hj => ?_, fun _ hf' => by cases hf'⟩
    cases hj
    rfl
  | deferred token' =>
    cases h'
    refine ⟨rfl, fun _ hj => ?_, fun _ hf' => by cases hf'⟩
    cases hj
    -- it waits here as well: asked again under the same bindings it is still deferred
    obtain ⟨t₂, rfl, -⟩ := openingState_deferred hy
    obtain ⟨r'', d', hagain, -, hmatch'⟩ :=
      @settle_matches (a.enterFrame τ) _ _ operand _ token' (τ :: a.frames) _ hk.sound hc
        (.refl _) hy hy hry
        (({ a.enterFrame τ with table := t₂ } : Analysis).withImport kind extent operand
          (.deferred token') false) rfl rfl rfl
    obtain ⟨hcontrib', -⟩ := contributionOf_opened
      (a.imports.insert kind extent operand (.deferred token') false).1 hk hagain rfl rfl rfl rfl
    cases hmatch'
    exact hcontrib'.symm

/-- It does so if its type can be spelled. Whatever else is spelled for that is also spelled where one
is opened inside of the frame. -/
theorem contributes_deferred {kind : ImportKind} {extent : Extent} {i : OpenImport}
    {τ : Substitution} {r : Except ImportFault OpenImport} (ha : a.Reachable)
    (hc : a.table.ChainIn (a.table.chainAt extent.block))
    (hle : (bindingsOf a.frames).Within (bindingsOf (τ :: a.frames)))
    (h : a.OpensTo operand kind extent (.ok i) a₁) (hstate : i.state = .deferred token)
    (hends : a₁.table.SpellingEnds token.type)
    (h' : (a.enterFrame τ).OpensTo operand kind extent r b) (hr : ¬ CutOff r) :
    ∃ c d, (a₁.enterFrame τ).Contributes i c d ∧ d.table = b.table ∧
      (∀ j, r = .ok j → ∀ c' d', b.Contributes j c' d' → c' = c) ∧
      ∀ fault, r = .error fault → ∃ fault', c = .failed fault' ∧ SameFault fault fault' := by
  obtain ⟨htable, hopened, hfault⟩ := contributionOf_deferred ha hc hle h.run hstate h'.run hr
  refine ⟨(contributionOf i (a₁.enterFrame τ)).1, _, ⟨fun token' σ hstate' hσ _ => ?_, rfl⟩, htable,
    fun j hj c' d' hj' => ?_, hfault⟩
  · cases hstate.symm.trans hstate'
    refine ⟨hends, fun target u hres => ?_⟩
    obtain ⟨t₁, -, rfl, hx⟩ := openImport_deferred h.run hstate
    obtain ⟨t, ht, hdeferred⟩ := openingState_deferred hx
    cases ht
    obtain rfl : bindingsOf (τ :: a.frames) = σ := Option.some.inj hσ
    have hdirect := not_cutOff_operand (a := a.enterFrame τ) (Attempt.run_of_fst rfl)
      (not_cutOff_openingState h'.run hr)
    obtain ⟨hresolved, rfl⟩ := SymbolTable.resume_resolved ha.kept.sound hc hle hdeferred
      (Attempt.run_of_fst rfl) hdirect hres
    exact h'.exports target _ (Attempt.run_of_fst hresolved)
  · rw [hopened j hj, hj'.run]

/-- Deferral is transparent, both for an operand that is resolved again and for an import that was
opened before the frame in which it is used. -/
theorem deferral_transparent :
    (∀ {t t₁ t₂ : SymbolTable} {σ τ : Substitution} {steps : Nat} {operand : Operand}
      {chain : ScopeChain} {token : Deferral} {r : Except ImportFault Resolution},
      t.Reachable → t.ChainIn chain → σ.Within τ →
      t.ResolvesTo σ steps operand chain (.ok (.deferred token)) t₁ →
      t.ResolvesTo τ steps operand chain r t₂ → ¬ CutOff r → t₁.SpellingEnds token.type →
      ∃ r', t₁.ResumesTo τ steps token r' t₂ ∧ SymbolTable.SameAnswer SameFault r r') ∧
    ∀ {a a₁ b : Analysis} {operand : Operand} {kind : ImportKind} {extent : Extent}
      {i : OpenImport} {token : Deferral} {τ : Substitution} {r : Except ImportFault OpenImport},
      a.Reachable → a.table.ChainIn (a.table.chainAt extent.block) →
      (bindingsOf a.frames).Within (bindingsOf (τ :: a.frames)) →
      a.OpensTo operand kind extent (.ok i) a₁ → i.state = .deferred token →
      a₁.table.SpellingEnds token.type → a₁.imports.NumbersFit →
      (a.enterFrame τ).OpensTo operand kind extent r b → ¬ CutOff r → b.imports.NumbersFit →
      a₁.imports.Denotes i.id i ∧
      ∃ c d, (a₁.enterFrame τ).Contributes i c d ∧ d.table = b.table ∧
        (∀ j, r = .ok j → b.imports.Denotes j.id j ∧ ∀ c' d', b.Contributes j c' d' → c' = c) ∧
        ∀ fault, r = .error fault → ∃ fault', c = .failed fault' ∧ SameFault fault fault' := by
  constructor
  · intro t t₁ t₂ σ τ steps operand chain token r ht hc hle h h' hr hends
    obtain ⟨r', hrun, hsame⟩ := SymbolTable.resume_sameAnswer ht.sound hc hle h.run h'.run hr
    exact ⟨r', ⟨hends, hrun⟩, hsame⟩
  · intro a a₁ b operand kind extent i token τ r ha hc hle h hstate hends hfit h' hr hfit'
    obtain ⟨c, d, hcontributes, htable, hopened, hfault⟩ :=
      contributes_deferred ha hc hle h hstate hends h' hr
    refine ⟨openImport_denotes ha h.run hfit, c, d, hcontributes, htable, fun j hj => ?_, hfault⟩
    subst hj
    exact ⟨openImport_denotes (ha.operation (.enterFrame τ)) h'.run hfit', hopened j rfl⟩

/-- Two class templates; the first declares the alias `A`, and so does the global namespace. -/
def twoAliases : SymbolTable :=
  (SymbolTable.new SymbolTable.defaultInstantiationLimit)
    |>.withScope SymbolTable.global "W" .classType (some ["P"])
    |>.withScope SymbolTable.global "Triple" .classType (some ["X", "Y", "Z"])
    |>.withDecl ⟨"A", .typeAlias, .scope ⟨1⟩, some (.scalar "inner"), none⟩
    |>.withDecl ⟨"m", .typeAlias, .scope ⟨1⟩, some (.scalar "int"), none⟩
    |>.withDecl ⟨"A", .typeAlias, .scope SymbolTable.global, some (.scalar "outer"), none⟩

theorem twoAliases_grounded : twoAliases.Grounded :=
  ((((((SymbolTable.Grounded.new _).withScope _ _ _ _).withScope _ _ _ _).withDecl _).withDecl _)
    |>.withDecl _)

/-- `Triple<A, W<int>::m, T>`: looking `m` up builds an instance after `A` was looked up. -/
def tripleType : TypeExpr :=
  .apply ⟨2⟩ [.named "A", .member (.apply ⟨1⟩ [.scalar "int"]) "m", .param "T"]

/-- Binds `T` to a type. -/
def bindT (ty : TypeExpr) : Substitution := ⟨[("T", ty)], by simp⟩

/-- At a block of the global namespace. -/
def tripleAnalysis : Analysis :=
  .new (twoAliases.addBlock (.scope SymbolTable.global)).2 .default fun _ _ => []

def tripleExtent : Extent := ⟨⟨0⟩, { file := ⟨0⟩, start := 0, stop := 9 }⟩

/-- The import of `Triple<A, W<int>::m, T>` as it is opened outside of any frame. -/
def tripleImport : OpenImport :=
  ⟨⟨0⟩, .unconditional, tripleExtent, .type tripleType,
    .deferred ⟨tripleType, [.block ⟨0⟩, .scope SymbolTable.global]⟩, false⟩

theorem deferral_transparent_of_triple :
    (∃ r', (SymbolTable.resolveOperand .empty 32 (.type tripleType) [.scope SymbolTable.global]
        twoAliases).2.ResumesTo (bindT (.scalar "char")) 32
        ⟨tripleType, [.scope SymbolTable.global]⟩ r'
        (SymbolTable.resolveOperand (bindT (.scalar "char")) 32 (.type tripleType)
          [.scope SymbolTable.global] twoAliases).2 ∧
      SymbolTable.SameAnswer SameFault
        (.ok (.resolved ⟨⟨2⟩, [.scalar "outer", .scalar "int", .scalar "char"]⟩)) r') ∧
    ∃ c d, ((openImport (.type tripleType) .unconditional tripleExtent
        tripleAnalysis).2.enterFrame (bindT (.scalar "char"))).Contributes tripleImport c d ∧
      d.table = (openImport (.type tripleType) .unconditional tripleExtent
        (tripleAnalysis.enterFrame (bindT (.scalar "char")))).2.table := by
  have hwithin : Substitution.empty.Within (bindT (.scalar "char")) := fun p ty hp => by cases hp
  have hcut {α : Type} {x : α} : ¬ CutOff (.ok x : Except ImportFault α) := by
    rintro ⟨_, hr⟩
    cases hr
  -- resolving the operand builds `W<int>`, in the table as in that with the block
  have hint {t : SymbolTable} (h : t.Grounded) :
      (SymbolTable.instantiate ⟨⟨1⟩, [.scalar "int"]⟩ t).2.Grounded :=
    h.change (.instantiate _ fun a ha => by
      rw [List.mem_singleton.1 ha]
      exact fun s hs => absurd hs List.not_mem_nil)
  have hblock : tripleAnalysis.table.Grounded :=
    twoAliases_grounded.change (.addBlock (.scope SymbolTable.global) (by decide))
  have hreach : tripleAnalysis.Reachable := .new hblock.reachable _ _
  have hspelled := hblock.ordered.exists_operandText (.type tripleType)
  have hends : (openImport (.type tripleType) .unconditional tripleExtent
      tripleAnalysis).2.table.SpellingEnds tripleType := (hint hblock).ordered.spellingEnds _
  have hopens : tripleAnalysis.OpensTo (.type tripleType) .unconditional tripleExtent
      (.ok tripleImport)
      (openImport (.type tripleType) .unconditional tripleExtent tripleAnalysis).2 := by
    refine ⟨hspelled, fun _ _ => hends.imp fun _ => .type, fun target t h => ?_,
      Attempt.run_of_fst rfl⟩
    cases h
  obtain ⟨j, hj⟩ : ∃ j, (openImport (.type tripleType) .unconditional tripleExtent
      (tripleAnalysis.enterFrame (bindT (.scalar "char")))).1 = .ok j := ⟨_, rfl⟩
  have hinside : (tripleAnalysis.enterFrame (bindT (.scalar "char"))).OpensTo (.type tripleType)
      .unconditional tripleExtent (.ok j) (openImport (.type tripleType) .unconditional tripleExtent
        (tripleAnalysis.enterFrame (bindT (.scalar "char")))).2 := by
    have htriple := (hint hblock).change (.instantiate
      ⟨⟨2⟩, [.scalar "outer", .scalar "int", .scalar "char"]⟩ (by decide))
    refine ⟨hspelled, fun _ _ => htriple.ordered.exists_operandText _, fun target t h => ?_,
      Attempt.run_of_fst hj⟩
    cases h
    exact (hint hblock).exportsSpelled (by decide)
  have hframes : (bindingsOf tripleAnalysis.frames).Within
      (bindingsOf (bindT (.scalar "char") :: tripleAnalysis.frames)) := hwithin
  obtain ⟨-, c, d, hcontributes, htable, -⟩ := deferral_transparent.2 hreach (by decide) hframes hopens
    rfl hends (by decide) hinside hcut (by decide)
  have horder := twoAliases_grounded.ordered
  refine ⟨deferral_transparent.1 twoAliases_grounded.reachable (by decide) hwithin
    (horder.resolvesTo rfl) (horder.resolvesTo rfl) hcut ?_, c, d, hcontributes, htable⟩
  exact (hint twoAliases_grounded).ordered.spellingEnds _

/-! ### What deferral is not transparent without -/

/-- The first link of this chain will be the instance `W<int>`. -/
def lateChain : ScopeChain := [.scope ⟨3⟩, .scope SymbolTable.global]

/-- The class template `T` has an instance for that instance itself, so its name `T<T<...>>` has no
end, and there is an alias `a` of `W<T<...>, T>` with the parameter `T`. -/
def endlessName : SymbolTable :=
  (SymbolTable.instantiate ⟨⟨1⟩, [.scope ⟨2⟩]⟩
      ((SymbolTable.new SymbolTable.defaultInstantiationLimit).withScope SymbolTable.global "T"
        .classType (some ["P"]))).2
    |>.withScope SymbolTable.global "W" .classType (some ["A", "B"])
    |>.withDecl ⟨"a", .typeAlias, .scope SymbolTable.global,
      some (.apply ⟨3⟩ [.scope ⟨2⟩, .param "T"]), none⟩

theorem endlessName_reachable : endlessName.Reachable :=
  ((((SymbolTable.Reachable.new _).withScope _ _ _ _).change (.instantiate _)).withScope _ _ _ _)
    |>.withDecl _

/-- The name of the instance needs itself. -/
theorem not_spellingEnds_endlessName {ty : TypeExpr} (hty : ⟨2⟩ ∈ ty.mentions) :
    ¬ endlessName.SpellingEnds ty := by
  intro hends
  have hself : endlessName.NeededBy ⟨2⟩ ⟨2⟩ :=
    .argument rfl rfl rfl (List.mem_singleton_self (TypeExpr.scope ⟨2⟩)) (List.mem_singleton_self _)
  exact SymbolTable.not_transGen_neededBy_self (SymbolTable.spellingEnds_iff.1 hends _ hty)
    (.single hself)

/-- Deferral is not transparent in general. The scopes of the chain must exist: otherwise a name may
have another meaning by the time that the operand is resolved again. And the name of what waits must
end: otherwise an alias of it is resolved at once, but there is no answer to what it waits as. -/
theorem deferral_not_transparent :
    (¬ ∀ {t t₁ t₂ : SymbolTable} {σ τ : Substitution} {steps : Nat} {operand : Operand}
      {chain : ScopeChain} {token : Deferral} {r : Except ImportFault Resolution},
      t.Reachable → σ.Within τ →
      t.ResolvesTo σ steps operand chain (.ok (.deferred token)) t₁ →
      t.ResolvesTo τ steps operand chain r t₂ → ¬ CutOff r → t₁.SpellingEnds token.type →
      ∃ r', t₁.ResumesTo τ steps token r' t₂ ∧ SymbolTable.SameAnswer SameFault r r') ∧
    ¬ ∀ {t t₁ t₂ : SymbolTable} {σ τ : Substitution} {steps : Nat} {operand : Operand}
      {chain : ScopeChain} {token : Deferral} {r : Except ImportFault Resolution},
      t.Reachable → t.ChainIn chain → σ.Within τ →
      t.ResolvesTo σ steps operand chain (.ok (.deferred token)) t₁ →
      t.ResolvesTo τ steps operand chain r t₂ → ¬ CutOff r →
      ∃ r', t₁.ResumesTo τ steps token r' t₂ ∧ SymbolTable.SameAnswer SameFault r r' := by
  have hwithin : Substitution.empty.Within (bindT (.scalar "char")) := fun p ty hp => by cases hp
  have hcut {o : Resolution} : ¬ CutOff (.ok o : Except ImportFault Resolution) := by
    rintro ⟨_, hr⟩
    cases hr
  constructor
  · intro h
    have horder := twoAliases_grounded.ordered
    have hbuilt := twoAliases_grounded.change (.instantiate ⟨⟨1⟩, [.scalar "int"]⟩ (by decide))
    have hresume : (SymbolTable.resumeDeferral (bindT (.scalar "char")) 32 ⟨tripleType, lateChain⟩
        (SymbolTable.resolveOperand .empty 32 (.type tripleType) lateChain twoAliases).2).1 =
      .ok (.resolved ⟨⟨2⟩, [.scalar "inner", .scalar "int", .scalar "char"]⟩) := rfl
    have hdirect : (SymbolTable.resolveOperand (bindT (.scalar "char")) 32 (.type tripleType)
        lateChain twoAliases).1 =
      .ok (.resolved ⟨⟨2⟩, [.scalar "outer", .scalar "int", .scalar "char"]⟩) := rfl
    obtain ⟨r', hresumes, hsame⟩ := h twoAliases_grounded.reachable hwithin
      (horder.resolvesTo (r := .ok (.deferred ⟨tripleType, lateChain⟩)) rfl)
      (horder.resolvesTo hdirect) hcut (hbuilt.ordered.spellingEnds _)
    rw [hresumes.run] at hresume
    obtain rfl : r' = _ := hresume
    exact absurd hsame.target_eq (by decide)
  · intro h
    have hresolves {σ : Substitution} {r : Except ImportFault Resolution}
        (h : (SymbolTable.resolveOperand σ 32 (.type (.named "a")) [.scope SymbolTable.global]
          endlessName).1 = r) :
        endlessName.ResolvesTo σ 32 (.type (.named "a")) [.scope SymbolTable.global] r _ :=
      ⟨⟨"a", .type (.named "a")⟩, Attempt.run_of_fst h⟩
    have hdirect : (SymbolTable.resolveOperand (bindT (.scalar "char")) 32 (.type (.named "a"))
        [.scope SymbolTable.global] endlessName).1 =
      .ok (.resolved ⟨⟨3⟩, [.scope ⟨2⟩, .scalar "char"]⟩) := rfl
    obtain ⟨r', hresumes, -⟩ := h endlessName_reachable (by decide) hwithin
      (hresolves (r := .ok (.deferred
        ⟨.apply ⟨3⟩ [.scope ⟨2⟩, .param "T"], [.scope SymbolTable.global]⟩)) rfl)
      (hresolves hdirect) hcut
    exact not_spellingEnds_endlessName (by decide) hresumes.spelled

end Analysis

end NameLookup
