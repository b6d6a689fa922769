import Mathlib.Logic.Relation
import NameLookup.Analysis.History
import NameLookup.Proofs.Exports
import NameLookup.Proofs.OpenImports

/-!
# The moves of an analysis

Whatever is asked of an analysis is made of a few `Move`s. The constructors of `Move` say all that
later proofs have to know of an operation, so that an invariant is shown for each of them once
(`Reachable.invariant`). The others rest on two of these: the table came about from a fresh one
(`Reachable.table`), and the books about imports are in order (`Tidy`).
-/

set_option autoImplicit false

namespace NameLookup.Analysis

/-- What finding out what an operand denotes, and what that exports, does to an analysis. -/
structure Consults (a b : Analysis) : Prop where
  grows : a.table.Grows b.table
  cached : ∀ target e, b.exportCache.entries.lookup target = some e →
    a.exportCache.entries.lookup target = some e ∨
      ∃ t, a.table.Grows t ∧ SymbolTable.targetExports target t = (.ok e, b.table)
  remembered : ∀ target e, a.exportCache.entries.lookup target = some e →
    b.exportCache.entries.lookup target = some e
  options : b.options = a.options
  associated : b.associated = a.associated
  imports : b.imports = a.imports
  frames : b.frames = a.frames
  settled : b.settled = a.settled

theorem Consults.ofGrows {a : Analysis} {t : SymbolTable} (h : a.table.Grows t) :
    a.Consults { a with table := t } where
  grows := h
  cached _ _ h := .inl h
  remembered _ _ h := h
  options := rfl
  associated := rfl
  imports := rfl
  frames := rfl
  settled := rfl

theorem fetchExports_consults {a b : Analysis} {target : Target} {t : SymbolTable}
    {r : Except ImportFault Exports} (hg : a.table.Grows t)
    (h : fetchExports target { a with table := t } = (r, b)) :
    a.Consults b ∧ ∀ e, r = .ok e → b.exportCache.entries.lookup target = some e := by
  rw [fetchExports_run] at h
  rcases hf : a.exportCache.fetch target t with ⟨fault | ⟨exports, cache⟩, u⟩ <;>
    simp only [hf] at h <;> cases h
  · exact ⟨.ofGrows (hg.trans ((ExportCache.fetch_growing _ _).of_run hf)), fun _ h => by cases h⟩
  · obtain ⟨hlookup, hentries, hremembered⟩ := ExportCache.fetch_ok hf
    refine ⟨⟨hg.trans ((ExportCache.fetch_growing _ _).of_run hf), fun target' e' h' => ?_,
      hremembered, rfl, rfl, rfl, rfl, rfl⟩, fun e he => by cases he; exact hlookup⟩
    exact (hentries target' e' h').imp_right fun hx => ⟨t, hg, hx⟩

section
variable {a b : Analysis}

theorem resolveOperand_growing (σ : Substitution) (steps : Nat) (operand : Operand)
    (chain : ScopeChain) :
    SymbolTable.Growing (SymbolTable.resolveOperand σ steps operand chain) := by
  intro t
  rw [SymbolTable.resolveOperand_run]
  cases t.operandType? chain operand with
  | none => exact .refl t
  | some ty => exact SymbolTable.resolveType_growing σ steps ty chain t

theorem resumeDeferral_growing (σ : Substitution) (steps : Nat) (token : Deferral) :
    SymbolTable.Growing (SymbolTable.resumeDeferral σ steps token) := by
  intro t
  rw [SymbolTable.resumeDeferral_run]
  exact SymbolTable.resolveType_growing σ steps token.type token.chain t

theorem openingState_consults {operand : Operand} {chain : ScopeChain}
    {r : Except ImportFault ImportState} (h : openingState operand chain a = (r, b)) :
    a.Consults b ∧
      ∀ target e, r = .ok (.active target e) → b.exportCache.entries.lookup target = some e := by
  rw [openingState_run] at h
  have hg := resolveOperand_growing (bindingsOf a.frames) a.options.stepBudget operand chain a.table
  rcases hr : SymbolTable.resolveOperand (bindingsOf a.frames) a.options.stepBudget operand chain
    a.table with ⟨fault | target | token, t⟩ <;> simp only [hr] at h hg
  · cases h
    exact ⟨.ofGrows hg, fun _ _ h => by cases h⟩
  · rcases hf : fetchExports target { a with table := t } with ⟨fault | exports, c⟩ <;>
      rw [hf] at h <;> cases h
    · exact ⟨(fetchExports_consults hg hf).1, fun _ _ h => by cases h⟩
    · obtain ⟨hc, hlookup⟩ := fetchExports_consults hg hf
      exact ⟨hc, fun _ _ h => by cases h; exact hlookup _ rfl⟩
  · cases h
    exact ⟨.ofGrows hg, fun _ _ h => by cases h⟩

theorem settle_consults {σ : Substitution} {token : Deferral} {r : Except ImportFault Contribution}
    (h : settle σ token a = (r, b)) :
    a.Consults b ∧
      ∀ e, r = .ok (.ready e) → ∃ target, b.exportCache.entries.lookup target = some e := by
  rw [settle_run] at h
  have hg := resumeDeferral_growing σ a.options.stepBudget token a.table
  rcases hr : SymbolTable.resumeDeferral σ a.options.stepBudget token a.table
    with ⟨fault | target | token, t⟩ <;> simp only [hr] at h hg
  · cases h
    exact ⟨.ofGrows hg, fun _ h => by cases h⟩
  · rcases hf : fetchExports target { a with table := t } with ⟨fault | exports, c⟩ <;>
      rw [hf] at h <;> cases h
    · exact ⟨(fetchExports_consults hg hf).1, fun _ h => by cases h⟩
    · obtain ⟨hc, hlookup⟩ := fetchExports_consults hg hf
      exact ⟨hc, fun _ h => by cases h; exact ⟨target, hlookup _ rfl⟩⟩
  · cases h
    exact ⟨.ofGrows hg, fun _ h => by cases h⟩

end

/-! ## Moves -/

/-- An import that waits comes to something under the bindings in force. -/
inductive SettleMove (a : Analysis) : Analysis → Prop
  | mk {i : OpenImport} {token : Deferral} {σ : Substitution}
      {r : Except ImportFault Contribution} {b : Analysis} (hi : i ∈ a.imports.toList)
      (hstate : i.state = .deferred token) (hσ : a.bindings? = some σ)
      (hnew : a.settled.lookup (i.id, σ) = none) (h : settle σ token a = (r, b)) :
      SettleMove a { b with settled := ((i.id, σ), outcomeOf r) :: b.settled }

/-- An import of `operand` is asked for, and perhaps opened. -/
inductive OpenMove (operand : Operand) (chain : ScopeChain) (a : Analysis) : Analysis → Prop
  | ask {r : Except ImportFault ImportState} {b : Analysis}
      (h : openingState operand chain a = (r, b)) : OpenMove operand chain a b
  | register {state : ImportState} {b : Analysis} (h : openingState operand chain a = (.ok state, b))
      (kind : ImportKind) (extent : Extent) (fromSwitch : Bool) :
      OpenMove operand chain a (b.withImport kind extent operand state fromSwitch)

inductive Move (a : Analysis) : Analysis → Prop
  | openImport {operand : Operand} {chain : ScopeChain} {b : Analysis}
      (h : OpenMove operand chain a b) : Move a b
  | closeImport {id : ImportId} {i : OpenImport} (h : a.imports.get? id = some i) :
      Move a (a.withoutImport id)
  | enterFrame (σ : Substitution) : Move a (a.enterFrame σ)
  | leaveFrame : Move a a.leaveFrame
  | settle {b : Analysis} (h : SettleMove a b) : Move a b

open Relation

variable (a : Analysis)

theorem openImport_move (operand : Operand) (kind : ImportKind) (extent : Extent) :
    OpenMove operand (a.table.chainAt extent.block) a (openImport operand kind extent a).2 := by
  rw [openImport_run]
  rcases h : openingState operand (a.table.chainAt extent.block) a with ⟨fault | state, b⟩
  · exact .ask h
  · exact .register h kind extent false

theorem openSwitchImport_move (controlling : Operand) (extent : Extent) :
    OpenMove controlling (a.table.chainAt extent.block).tail a
      (openSwitchImport controlling extent a).2 := by
  rw [openSwitchImport_run]
  rcases h : openingState controlling (a.table.chainAt extent.block).tail a
    with ⟨fault | ⟨target, exports⟩ | token, b⟩
  · exact .ask h
  · simp only
    split
    · exact .ask h
    · exact .register h .fallback extent true
  · exact .register h .fallback extent true

theorem contributionOf_settles {i : OpenImport} (hi : i ∈ a.imports.toList) :
    ReflTransGen SettleMove a (contributionOf i a).2 := by
  rw [contributionOf_run]
  cases hstate : i.state with
  | active target exports => exact .refl
  | deferred token =>
    simp only
    rw [contribution_run]
    cases hσ : a.bindings? with
    | none => exact .refl
    | some σ =>
      simp only
      cases hnew : a.settled.lookup (i.id, σ) with
      | some known => exact .refl
      | none =>
        rcases h : settle σ token a with ⟨r, b⟩
        exact .single (.mk hi hstate hσ hnew h)

theorem SettleMove.imports_eq {a b : Analysis} (h : SettleMove a b) : b.imports = a.imports := by
  obtain ⟨_, _, _, _, h⟩ := h
  exact (settle_consults h).1.imports

theorem SettleMove.grows {a b : Analysis} (h : SettleMove a b) : a.table.Grows b.table := by
  obtain ⟨_, _, _, _, h⟩ := h
  exact (settle_consults h).1.grows

theorem imports_eq_of_settles {a b : Analysis} (h : ReflTransGen SettleMove a b) :
    b.imports = a.imports := by
  induction h with
  | refl => rfl
  | tail _ hm ih => rw [hm.imports_eq, ih]

theorem grows_of_settles {a b : Analysis} (h : ReflTransGen SettleMove a b) :
    a.table.Grows b.table := by
  induction h with
  | refl => exact .refl _
  | tail _ hm ih => exact ih.trans hm.grows

theorem visibleAmong_settles (is : List OpenImport) (hi : ∀ i ∈ is, i ∈ a.imports.toList) :
    ReflTransGen SettleMove a (visibleAmong is a).2 := by
  induction is generalizing a with
  | nil => exact .refl
  | cons i is ih =>
    have hfirst := contributionOf_settles a (hi i List.mem_cons_self)
    refine hfirst.trans (ih (contributionOf i a).2 fun j hj => ?_)
    rw [imports_eq_of_settles hfirst]
    exact hi j (List.mem_cons_of_mem _ hj)

theorem visibleImports_settles (p : Point) :
    ReflTransGen SettleMove a (visibleImports p a).2 :=
  visibleAmong_settles a _ fun _ hi => (List.mem_filter.1 hi).1

theorem lookup_settles (name : Name) (p : Point) :
    ReflTransGen SettleMove a (lookup name p a).2 :=
  visibleImports_settles a p

theorem Operation.moves (op : Operation) : ReflTransGen Move a (op.apply a) := by
  cases op with
  | openImport operand kind extent => exact .single (.openImport (openImport_move a operand kind extent))
  | openSwitchImport controlling extent =>
    exact .single (.openImport (openSwitchImport_move a controlling extent))
  | closeImport id =>
    show ReflTransGen Move a (Analysis.closeImport id a).2
    rw [closeImport_run]
    cases h : a.imports.get? id with
    | none => exact .refl
    | some i => exact .single (.closeImport h)
  | enterFrame σ => exact .single (.enterFrame σ)
  | leaveFrame => exact .single .leaveFrame
  | visibleImports p => exact (visibleImports_settles a p).lift id fun _ _ => .settle
  | lookup name p => exact (lookup_settles a name p).lift id fun _ _ => .settle

theorem Move.grows {a b : Analysis} (h : Move a b) : a.table.Grows b.table := by
  cases h with
  | openImport ho =>
    cases ho with
    | ask ho => exact (openingState_consults ho).1.grows
    | register ho => exact (openingState_consults ho).1.grows
  | closeImport | enterFrame | leaveFrame => exact .refl _
  | settle hs => exact hs.grows

/-- What holds at the start, and is kept by every move and by every change of the table, holds of
every analysis. The tables of all analyses came about from fresh ones. -/
theorem Reachable.invariant {P : Analysis → Prop} {a : Analysis} (h : Reachable a)
    (hnew : ∀ {t : SymbolTable}, t.Reachable → ∀ options associated, P (.new t options associated))
    (hmove : ∀ {a b}, a.table.Reachable → P a → Move a b → P b)
    (hchange : ∀ {a : Analysis} {t}, P a → a.table.Change t → P { a with table := t }) : P a := by
  suffices hboth : a.table.Reachable ∧ P a from hboth.2
  induction h with
  | new ht options associated => exact ⟨ht, hnew ht options associated⟩
  | @operation a _ op ih =>
    have hm := op.moves a
    generalize op.apply a = b at hm
    induction hm with
    | refl => exact ih
    | tail _ hm ih => exact ⟨ih.1.grows hm.grows, hmove ih.1 ih.2 hm⟩
  | change _ hc ih => exact ⟨ih.1.change hc, hchange ih.2 hc⟩

theorem Reachable.table {a : Analysis} (h : Reachable a) : a.table.Reachable :=
  h.invariant (P := fun a => a.table.Reachable) (fun ht _ _ => ht) (fun ht _ hm => ht.grows hm.grows)
    fun h hc => h.change hc

/-! ## What holds of every analysis -/

/-- The imports are numbered in order, and what is settled is about imports that are open and wait. -/
structure Tidy (a : Analysis) : Prop where
  ordered : a.imports.Ordered
  settled : ∀ x ∈ a.settled, ∃ i ∈ a.imports.toList, i.id = x.1.1 ∧ ∃ token, i.state = .deferred token

namespace Tidy

variable {a b : Analysis}

theorem consults (h : a.Tidy) (hc : a.Consults b) : b.Tidy where
  ordered := hc.imports ▸ h.ordered
  settled x hx := by
    rw [hc.imports]
    rw [hc.settled] at hx
    exact h.settled x hx

theorem withImport (h : a.Tidy) (kind : ImportKind) (extent : Extent) (operand : Operand)
    (state : ImportState) (fromSwitch : Bool) :
    (a.withImport kind extent operand state fromSwitch).Tidy where
  ordered := h.ordered.insert kind extent operand state fromSwitch
  settled x hx := by
    obtain ⟨i, hi, hid⟩ := h.settled x hx
    exact ⟨i, List.mem_append_left _ hi, hid⟩

theorem withoutImport (h : a.Tidy) (id : ImportId) : (a.withoutImport id).Tidy where
  ordered := h.ordered.erase id
  settled x hx := by
    obtain ⟨hx, hne⟩ := List.mem_filter.1 hx
    obtain ⟨j, hj, hid, hstate⟩ := h.settled x hx
    have hne : x.1.1 ≠ id := by simpa using hne
    exact ⟨j, h.ordered.mem_erase.2 ⟨hj, hid ▸ hne⟩, hid, hstate⟩

theorem settleMove (h : a.Tidy) (hm : SettleMove a b) : b.Tidy := by
  obtain ⟨hi, hstate, -, -, hrun⟩ := hm
  have hc := (settle_consults hrun).1
  have hb := h.consults hc
  refine ⟨hb.ordered, fun x hx => ?_⟩
  rcases List.mem_cons.1 hx with rfl | hx
  · exact ⟨_, hc.imports ▸ hi, rfl, _, hstate⟩
  · exact hb.settled x hx

theorem settleMoves (h : a.Tidy) (hm : ReflTransGen SettleMove a b) : b.Tidy := by
  induction hm with
  | refl => exact h
  | tail _ hm ih => exact ih.settleMove hm

theorem move (h : a.Tidy) (hm : Move a b) : b.Tidy := by
  cases hm with
  | openImport ho =>
    cases ho with
    | ask ho => exact h.consults (openingState_consults ho).1
    | register ho kind extent fromSwitch =>
      exact (h.consults (openingState_consults ho).1).withImport kind extent _ _ fromSwitch
  | closeImport => exact h.withoutImport _
  | enterFrame => exact ⟨h.ordered, h.settled⟩
  | leaveFrame => exact ⟨h.ordered, h.settled⟩
  | settle hs => exact h.settleMove hs

end Tidy

/-- The table is sound, and the analysis is tidy. -/
structure Kept (a : Analysis) : Prop extends Tidy a where
  sound : a.table.Sound

theorem Reachable.kept {a : Analysis} (h : Reachable a) : a.Kept := by
  refine ⟨h.invariant (fun _ _ _ => ?_) (fun _ h hm => h.move hm) fun h _ => ?_, h.table.sound⟩
  · exact ⟨.empty, fun x hx => absurd hx List.not_mem_nil⟩
  · exact ⟨h.ordered, h.settled⟩

end NameLookup.Analysis
