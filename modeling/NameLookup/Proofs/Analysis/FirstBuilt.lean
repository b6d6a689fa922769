import NameLookup.Proofs.Analysis.Stored
import NameLookup.Proofs.ExportClosure
import NameLookup.Proofs.Reexports

/-!
# Exports are as they were when first built

An analysis works out what a target exports once and gives that out again ever after. So the exports
that an import brings in are right for the table on which their target was first asked about
(`FirstBuilt`), be it by this import or by an earlier operation, and for the table as it is now if
nobody but the analysis has touched it since (`import_firstBuilt`). A member that is declared between
two imports of a scope is not seen by the second one (`later_member_missed`).
-/

set_option autoImplicit false

namespace NameLookup

namespace SymbolTable

variable {t u : SymbolTable} {target : Target} {e : Exports}

/-- The exports are what their scope offers in `t`. -/
def Exact (t : SymbolTable) (e : Exports) : Prop := ∀ d, d ∈ e.members.decls ↔ t.Offers e.scope d

theorem targetExports_exact (ht : t.Registered) (h : targetExports target t = (.ok e, u)) :
    u.Exact e := by
  have hu : u.Registered := ht.grows ((targetExports_growing target).of_run h)
  obtain ⟨entry, -, -, -, he⟩ := targetExports_ok h
  intro d
  rw [he]
  exact hu.mem_exportsOf entry.kind

/-- Where all re-exports exist, building instances changes nothing about what a scope offers. -/
theorem Exact.grows (h : t.Exact e) (hs : t.HasScope e.scope) (ht : t.Sound) (hr : t.Registered)
    (hin : t.ReexportsIn) (hg : t.Grows u) : u.Exact e := by
  intro d
  rw [h d, ← hr.mem_exportsOf e.kind, ← (hr.grows hg).mem_exportsOf e.kind,
    hg.extends.exportsOf ht hin hs e.kind]

/-- A target that has been found in the table stays the same scope. -/
theorem Change.concreteScope (h : t.Change u) {s : ScopeId}
    (hs : concreteScope target t = (.ok s, t)) : concreteScope target u = (.ok s, u) := by
  unfold SymbolTable.concreteScope at hs ⊢
  split at hs
  · next hempty =>
    rw [if_pos hempty]
    cases hs
    rfl
  · next hargs =>
    rw [if_neg hargs, instantiate_run, h.instance_some (instance?_of_instantiate hs)]

end SymbolTable

namespace Analysis

open Relation SymbolTable

variable {a b c : Analysis} {target : Target} {e : Exports}

/-! ## Later states -/

/-- The analysis is asked something, or its table is changed from outside. -/
inductive Step (a : Analysis) : Analysis → Prop
  | operation (op : Operation) : Step a (op.apply a)
  | change {t : SymbolTable} (h : a.table.Change t) : Step a { a with table := t }

/-- The analysis comes to this later on. -/
abbrev Later : Analysis → Analysis → Prop := ReflTransGen Step

/-- The analysis comes to this without its table being changed from outside. -/
abbrev Undisturbed : Analysis → Analysis → Prop :=
  ReflTransGen fun a b => ∃ op : Operation, b = op.apply a

/-- What is asked of an analysis makes its table grow; it adds to the exports that are remembered,
and what it adds it has worked out. -/
structure Advances (a b : Analysis) : Prop where
  grows : a.table.Grows b.table
  remembered : ∀ target e, a.exportCache.entries.lookup target = some e →
    b.exportCache.entries.lookup target = some e
  cached : ∀ target e, b.exportCache.entries.lookup target = some e →
    a.exportCache.entries.lookup target = some e ∨
      ∃ t u, a.table.Grows t ∧ targetExports target t = (.ok e, u) ∧ u.Grows b.table

namespace Advances

theorem refl (a : Analysis) : a.Advances a := ⟨.refl _, fun _ _ h => h, fun _ _ h => .inl h⟩

theorem trans (h : a.Advances b) (h' : b.Advances c) : a.Advances c where
  grows := h.grows.trans h'.grows
  remembered target e hl := h'.remembered target e (h.remembered target e hl)
  cached target e hl := by
    rcases h'.cached target e hl with hl | ⟨t, u, hg, hrun, hu⟩
    · refine (h.cached target e hl).imp_right ?_
      rintro ⟨t, u, hg, hrun, hu⟩
      exact ⟨t, u, hg, hrun, hu.trans h'.grows⟩
    · exact .inr ⟨t, u, h.grows.trans hg, hrun, hu⟩

end Advances

theorem Consults.advances (h : a.Consults b) : a.Advances b where
  grows := h.grows
  remembered := h.remembered
  cached target e hl := by
    refine (h.cached target e hl).imp_right ?_
    rintro ⟨t, hg, hrun⟩
    exact ⟨t, b.table, hg, hrun, .refl _⟩

/-- An analysis with the same table and the same cache has advanced as far. -/
theorem Advances.congr (h : a.Advances b) (htable : c.table = b.table)
    (hcache : c.exportCache = b.exportCache) : a.Advances c where
  grows := htable ▸ h.grows
  remembered := hcache ▸ h.remembered
  cached := by
    rw [hcache, htable]
    exact h.cached

theorem Move.advances (h : Move a b) : a.Advances b := by
  cases h with
  | openImport hm =>
    cases hm with
    | ask hrun => exact (openingState_consults hrun).1.advances
    | register hrun => exact (openingState_consults hrun).1.advances.congr rfl rfl
  | closeImport => exact (Advances.refl a).congr rfl rfl
  | enterFrame => exact (Advances.refl a).congr rfl rfl
  | leaveFrame => exact (Advances.refl a).congr rfl rfl
  | settle hm =>
    obtain ⟨-, -, -, -, hrun⟩ := hm
    exact (settle_consults hrun).1.advances.congr rfl rfl

theorem Operation.advances (a : Analysis) (op : Operation) : a.Advances (op.apply a) := by
  have hm := op.moves a
  generalize op.apply a = b at hm
  induction hm with
  | refl => exact .refl a
  | tail _ hm ih => exact ih.trans hm.advances

theorem Undisturbed.grows (h : Undisturbed a b) : a.table.Grows b.table := by
  induction h with
  | refl => exact .refl _
  | tail _ hop ih =>
    obtain ⟨op, rfl⟩ := hop
    exact ih.trans (op.advances _).grows

/-! ## Where remembered exports come from -/

/-- The target had not been asked about in `p`; then the operation `op` worked out its exports, on a
table that this made `t`. -/
structure FirstBuilt (target : Target) (e : Exports) (p : Analysis) (op : Operation)
    (t : SymbolTable) : Prop where
  reachable : p.Reachable
  unknown : p.exportCache.entries.lookup target = none
  before : ∃ t₀, p.table.Grows t₀ ∧ targetExports target t₀ = (.ok e, t)
  after : t.Grows (op.apply p).table

theorem FirstBuilt.of_advances (ha : a.Reachable) (op : Operation)
    (hnew : a.exportCache.entries.lookup target = none)
    (hl : (op.apply a).exportCache.entries.lookup target = some e) :
    ∃ t, FirstBuilt target e a op t := by
  rcases (op.advances a).cached target e hl with hl | ⟨t₀, t, hg, hrun, ht⟩
  · rw [hnew] at hl
    cases hl
  · exact ⟨t, ha, hnew, ⟨t₀, hg, hrun⟩, ht⟩

/-- What is remembered about a target was worked out by the first operation that asked for it. -/
theorem Reachable.firstBuilt (ha : a.Reachable)
    (hl : a.exportCache.entries.lookup target = some e) :
    ∃ p op t, FirstBuilt target e p op t ∧ Later (op.apply p) a := by
  induction ha with
  | new => cases hl
  | @operation a ha op ih =>
    cases hold : a.exportCache.entries.lookup target with
    | none =>
      obtain ⟨t, hfirst⟩ := FirstBuilt.of_advances ha op hold hl
      exact ⟨a, op, t, hfirst, .refl⟩
    | some e' =>
      obtain rfl : e' = e :=
        Option.some.inj (((op.advances a).remembered target e' hold).symm.trans hl)
      obtain ⟨p, op', t, hfirst, hlater⟩ := ih hold
      exact ⟨p, op', t, hfirst, hlater.tail (.operation op)⟩
  | change ha hc ih =>
    obtain ⟨p, op, t, hfirst, hlater⟩ := ih hl
    exact ⟨p, op, t, hfirst, hlater.tail (.change hc)⟩

namespace FirstBuilt

variable {p : Analysis} {op : Operation} {t : SymbolTable} (h : FirstBuilt target e p op t)
include h

theorem grows : p.table.Grows t := by
  obtain ⟨t₀, hg, hrun⟩ := h.before
  exact hg.trans ((targetExports_growing target).of_run hrun)

theorem exact_ : t.Exact e := by
  obtain ⟨t₀, hg, hrun⟩ := h.before
  exact targetExports_exact (h.reachable.table.registered.grows hg) hrun

/-- As long as nobody but the analysis touches the table, the exports stay right. -/
theorem exact_of_undisturbed (hin : t.ReexportsIn) (hb : Undisturbed (op.apply p) b) :
    b.table.Exact e := by
  obtain ⟨t₀, -, hrun⟩ := h.before
  obtain ⟨entry, -, hentry, -⟩ := targetExports_ok hrun
  exact h.exact_.grows (hasScope_of_scope? hentry) (h.reachable.kept.sound.grows h.grows)
    (h.reachable.table.registered.grows h.grows) hin (h.after.trans hb.grows)

end FirstBuilt

/-! ## Imports -/

/-- The target denotes the scope of the exports, whose instance has been built if it is one. -/
def Denotes (t : SymbolTable) (target : Target) (e : Exports) : Prop :=
  concreteScope target t = (.ok e.scope, t)

theorem supports_denotes (t : SymbolTable) : Supports Denotes t where
  made _ hrun := by
    obtain ⟨entry, hscope, -⟩ := targetExports_ok hrun
    exact (concreteScope_repeatable _ _).again hscope (.refl _)
  kept _ hg h := (concreteScope_repeatable _ _).again h hg

theorem Reachable.stores_denotes (h : a.Reachable) : Stores Denotes a :=
  h.stores (fun _ => supports_denotes _) fun hc hd => hc.concreteScope hd

/-- An import that opens with a target has resolved its operand to it, and takes the exports of the
target from the cache, into which they have come now or before. -/
theorem openImport_active {operand : Operand} {kind : ImportKind} {extent : Extent} {i : OpenImport}
    (h : openImport operand kind extent a = (.ok i, b)) (hstate : i.state = .active target e) :
    (∃ t, resolveOperand (bindingsOf a.frames) a.options.stepBudget operand
      (a.table.chainAt extent.block) a.table = (.ok (.resolved target), t)) ∧
    b.exportCache.entries.lookup target = some e ∧
    (a.exportCache.entries.lookup target = some e ∨
      ∃ t, a.table.Grows t ∧ targetExports target t = (.ok e, b.table)) := by
  rw [openImport_run] at h
  rcases hrun : openingState operand (a.table.chainAt extent.block) a with ⟨fault | state, c⟩ <;>
    rw [hrun] at h <;> cases h
  change state = _ at hstate
  subst hstate
  obtain ⟨hconsults, hl⟩ := openingState_consults hrun
  refine ⟨?_, hl target e rfl, hconsults.cached target e (hl target e rfl)⟩
  rw [openingState_run] at hrun
  rcases hr : resolveOperand (bindingsOf a.frames) a.options.stepBudget operand
    (a.table.chainAt extent.block) a.table with ⟨fault | target' | token, t⟩ <;>
    simp only [hr] at hrun
  · cases hrun
  · rcases hf : fetchExports target' { a with table := t } with ⟨fault | e', c'⟩ <;>
      rw [hf] at hrun <;> cases hrun
    exact ⟨t, rfl⟩
  · cases hrun

/-- An import that opens with a target brings in what the target's scope offered when the target was
first asked about: in this import, if it was never before. If since then the table was only touched
by the analysis itself, that is what the scope offers now. -/
theorem import_firstBuilt (ha : a.Reachable) {operand : Operand} {kind : ImportKind}
    {extent : Extent} {i : OpenImport} (h : openImport operand kind extent a = (.ok i, b))
    (hstate : i.state = .active target e) :
    (∃ t, resolveOperand (bindingsOf a.frames) a.options.stepBudget operand
      (a.table.chainAt extent.block) a.table = (.ok (.resolved target), t)) ∧
    concreteScope target b.table = (.ok e.scope, b.table) ∧
    ∃ p op t, FirstBuilt target e p op t ∧ Later (op.apply p) b ∧ t.Exact e ∧
      (a.exportCache.entries.lookup target = none → op.apply p = b ∧ b.table.Exact e) ∧
      (Undisturbed (op.apply p) b → t.ReexportsIn → b.table.Exact e) := by
  obtain ⟨hresolved, hl, hfrom⟩ := openImport_active h hstate
  let now : Operation := .openImport operand kind extent
  have hb : now.apply a = b := congrArg Prod.snd h
  have hreachable : b.Reachable := hb ▸ ha.operation now
  refine ⟨hresolved, hreachable.stores_denotes.cached hl, ?_⟩
  cases hold : a.exportCache.entries.lookup target with
  | none =>
    have hbuilt : ∃ t, a.table.Grows t ∧ targetExports target t = (.ok e, b.table) := by
      rcases hfrom with hold' | hbuilt
      · rw [hold] at hold'
        cases hold'
      · exact hbuilt
    have hfirst : FirstBuilt target e a now b.table := ⟨ha, hold, hbuilt, hb ▸ .refl _⟩
    exact ⟨a, now, b.table, hfirst, hb ▸ .refl, hfirst.exact_, fun _ => ⟨hb, hfirst.exact_⟩,
      fun _ _ => hfirst.exact_⟩
  | some e' =>
    obtain rfl : e' = e :=
      Option.some.inj (((now.advances a).remembered target e' hold).symm.trans (hb ▸ hl))
    obtain ⟨p, op, t, hfirst, hlater⟩ := ha.firstBuilt hold
    exact ⟨p, op, t, hfirst, hlater.tail (hb ▸ .operation now), hfirst.exact_,
      fun hnew => absurd hnew (Option.some_ne_none e'),
      fun hquiet hin => hfirst.exact_of_undisturbed hin hquiet⟩

/-- At a block beside the class `X`, which has a static member `first`. -/
def besideX : Analysis :=
  .new (((SymbolTable.new SymbolTable.defaultInstantiationLimit)
    |>.withScope SymbolTable.global "X" .classType none
    |>.withDecl ⟨"first", .staticData, .scope ⟨1⟩, none, none⟩).addBlock
      (.scope SymbolTable.global)).2 .default fun _ _ => []

theorem besideX_reachable : besideX.Reachable :=
  .new ((((SymbolTable.Reachable.new _).withScope _ _ _ _).withDecl _).change (.addBlock _)) _ _

/-- Eight bytes of that block. -/
def extentBesideX : Extent := ⟨⟨0⟩, { file := ⟨0⟩, start := 0, stop := 8 }⟩

/-- An import of `X` into that block. -/
def importX : Analysis → Except ImportFault OpenImport × Analysis :=
  openImport (.type (.scope ⟨1⟩)) .unconditional extentBesideX

/-- `first` is all that `X` exports. -/
def exportsOfX : Exports := ⟨⟨1⟩, .classType, ⟨[⟨1⟩], [("first", [⟨1⟩])]⟩⟩

/-- The import of `X` under a handle. -/
def importedX (id : ImportId) : OpenImport :=
  ⟨id, .unconditional, extentBesideX, .type (.scope ⟨1⟩), .active ⟨⟨1⟩, []⟩ exportsOfX, false⟩

theorem importX_besideX : (importX besideX).1 = .ok (importedX ⟨0⟩) := by rfl

/-- The first import of `X` brings in `first`, which is all that `X` offers then. -/
theorem import_firstBuilt_of_X :
    (importX besideX).1 = .ok (importedX ⟨0⟩) ∧ (importX besideX).2.table.Exact exportsOfX := by
  have hstate : (importedX ⟨0⟩).state = .active ⟨⟨1⟩, []⟩ exportsOfX := rfl
  obtain ⟨-, -, p, op, t, -, -, -, hnow, -⟩ :=
    import_firstBuilt besideX_reachable (Attempt.run_of_fst importX_besideX) hstate
  exact ⟨importX_besideX, (hnow rfl).2⟩

/-- A second static member of `X`. -/
def secondOfX : Declaration := ⟨"second", .staticData, .scope ⟨1⟩, none, none⟩

/-- After an import of `X` the second member has been declared. -/
def besideGrownX : Analysis :=
  { (importX besideX).2 with table := ((importX besideX).2.table.declare secondOfX).2 }

theorem besideGrownX_reachable : besideGrownX.Reachable :=
  (besideX_reachable.operation (.openImport _ _ _)).change (.declare (d := secondOfX) rfl)

/-- An import does not always bring in what its scope offers at that time: a second member that is
declared after a first import of `X` is not among what the next import of `X` brings in. -/
theorem later_member_missed :
    ¬ ∀ (a b : Analysis) (operand : Operand) (kind : ImportKind) (extent : Extent) (i : OpenImport)
      (target : Target) (e : Exports), a.Reachable → openImport operand kind extent a = (.ok i, b) →
      i.state = .active target e → b.table.Exact e := by
  intro hall
  have hrun : (importX besideGrownX).1 = .ok (importedX ⟨1⟩) := by rfl
  have hexact := hall besideGrownX _ _ _ _ _ ⟨⟨1⟩, []⟩ exportsOfX besideGrownX_reachable
    (Attempt.run_of_fst hrun) rfl
  have hoffers : (importX besideGrownX).2.table.Offers ⟨1⟩ ⟨2⟩ :=
    ⟨⟨1⟩, _, secondOfX, .refl, by rfl, by rfl, rfl, rfl⟩
  have hmem : (⟨2⟩ : DeclId) ∈ exportsOfX.members.decls := (hexact ⟨2⟩).2 hoffers
  revert hmem
  decide

end Analysis

end NameLookup
