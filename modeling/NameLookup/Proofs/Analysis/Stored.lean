import NameLookup.Proofs.Analysis.Moves

/-!
# Stored exports

An analysis keeps exports in three places: the cache, the imports in force and the settled imports.
All of them were worked out by `targetExports` at some time, so what holds of its results and
survives the growth of the table holds of every one of them (`Stores.move`).
-/

set_option autoImplicit false

namespace NameLookup.Analysis

open Relation

variable {P : SymbolTable → Target → Exports → Prop} {a b : Analysis}

/-- All exports that the analysis keeps are as `P` says. -/
structure Stores (P : SymbolTable → Target → Exports → Prop) (a : Analysis) : Prop where
  cached : ∀ {target e}, a.exportCache.entries.lookup target = some e → P a.table target e
  opened : ∀ {i target e}, i ∈ a.imports.toList → i.state = .active target e → P a.table target e
  settled : ∀ {key e}, (key, .ready e) ∈ a.settled → ∃ target, P a.table target e

/-- The tables that come from `t` by growth keep what `P` says, and `targetExports` gives it. -/
structure Supports (P : SymbolTable → Target → Exports → Prop) (t : SymbolTable) : Prop where
  made : ∀ {u u' target e}, t.Grows u → SymbolTable.targetExports target u = (.ok e, u') →
    P u' target e
  kept : ∀ {u u' target e}, t.Grows u → u.Grows u' → P u target e → P u' target e

theorem Supports.mono {t u : SymbolTable} (h : Supports P t) (hg : t.Grows u) : Supports P u where
  made hg' := h.made (hg.trans hg')
  kept hg' := h.kept (hg.trans hg')

namespace Stores

theorem new (t : SymbolTable) (options : Options) (associated : AssociatedScopes) :
    Stores P (.new t options associated) where
  cached h := by cases h
  opened h := absurd h List.not_mem_nil
  settled h := absurd h List.not_mem_nil

theorem consults (h : Stores P a) (hP : Supports P a.table) (hc : a.Consults b) : Stores P b where
  cached {target e} hl := by
    rcases hc.cached target e hl with hl | ⟨t, hg, hrun⟩
    · exact hP.kept (.refl _) hc.grows (h.cached hl)
    · exact hP.made hg hrun
  opened hi hstate := by
    rw [hc.imports] at hi
    exact hP.kept (.refl _) hc.grows (h.opened hi hstate)
  settled hx := by
    rw [hc.settled] at hx
    obtain ⟨target, ht⟩ := h.settled hx
    exact ⟨target, hP.kept (.refl _) hc.grows ht⟩

theorem openMove (h : Stores P a) (hP : Supports P a.table) {operand : Operand}
    {chain : ScopeChain} (hm : OpenMove operand chain a b) : Stores P b := by
  cases hm with
  | ask hrun => exact h.consults hP (openingState_consults hrun).1
  | @register state c hrun kind extent fromSwitch =>
    obtain ⟨hc, hactive⟩ := openingState_consults hrun
    have hb := h.consults hP hc
    refine ⟨hb.cached, fun {i target e} hi hstate => ?_, hb.settled⟩
    rcases List.mem_append.1 hi with hi | hi
    · exact hb.opened hi hstate
    · rw [List.mem_singleton.1 hi] at hstate
      change state = _ at hstate
      subst hstate
      exact hb.cached (hactive target e rfl)

theorem settleMove (h : Stores P a) (hP : Supports P a.table) (hm : SettleMove a b) :
    Stores P b := by
  cases hm with
  | @mk i token σ r c _ _ _ _ hrun =>
  obtain ⟨hc, hready⟩ := settle_consults hrun
  have hb := h.consults hP hc
  refine ⟨hb.cached, hb.opened, fun {key e} hx => ?_⟩
  rcases List.mem_cons.1 hx with hx | hx
  · obtain ⟨target, hl⟩ := hready e (outcomeOf_eq_ready (congrArg Prod.snd hx).symm)
    exact ⟨target, hb.cached hl⟩
  · exact hb.settled hx

theorem settleMoves (h : Stores P a) (hP : Supports P a.table)
    (hm : ReflTransGen SettleMove a b) : Stores P b := by
  induction hm with
  | refl => exact h
  | tail hms hm ih => exact ih.settleMove (hP.mono (grows_of_settles hms)) hm

theorem move (h : Stores P a) (hP : Supports P a.table) (hm : Move a b) : Stores P b := by
  cases hm with
  | openImport hm => exact h.openMove hP hm
  | closeImport =>
    exact ⟨h.cached, fun hi => h.opened (List.mem_of_mem_eraseP hi),
      fun hx => h.settled (List.mem_filter.1 hx).1⟩
  | enterFrame => exact ⟨h.cached, h.opened, h.settled⟩
  | leaveFrame => exact ⟨h.cached, h.opened, h.settled⟩
  | settle hm => exact h.settleMove hP hm

/-- What is kept while the table is changed from outside stays so of all that is stored. -/
theorem amend (h : Stores P a) {t : SymbolTable}
    (hkeep : ∀ {target e}, P a.table target e → P t target e) : Stores P { a with table := t } where
  cached hl := hkeep (h.cached hl)
  opened hi hstate := hkeep (h.opened hi hstate)
  settled hx := (h.settled hx).imp fun _ => hkeep

end Stores

/-- What `targetExports` gives, growth keeps and changes of the table keep holds of all that an
analysis stores. -/
theorem Reachable.stores (h : a.Reachable) (hP : ∀ {t : SymbolTable}, t.Reachable → Supports P t)
    (hchange : ∀ {t u : SymbolTable} {target e}, t.Change u → P t target e → P u target e) :
    Stores P a :=
  h.invariant (fun _ _ _ => .new _ _ _) (fun ht h hm => h.move (hP ht) hm)
    fun h hc => h.amend (hchange hc)

/-! ## The names of what is stored -/

/-- The exports hold under each name declarations of that name. -/
def RightlyNamed (t : SymbolTable) (_ : Target) (e : Exports) : Prop := t.NamesIn e.members

theorem supports_rightlyNamed (t : SymbolTable) : Supports RightlyNamed t where
  made _ hrun := by
    obtain ⟨entry, -, -, -, he⟩ := SymbolTable.targetExports_ok hrun
    rw [RightlyNamed, he]
    exact SymbolTable.namesIn_exportsOf _ _ _
  kept _ hg h := h.mono fun hd => ⟨_, hg.extends.decl_some hd, rfl⟩

theorem Reachable.stores_rightlyNamed (h : a.Reachable) : Stores RightlyNamed a :=
  h.stores (fun _ => supports_rightlyNamed _) fun hc hn => hn.mono hc.decl_name

end NameLookup.Analysis
