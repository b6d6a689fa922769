import NameLookup.Proofs.Analysis.Moves
import NameLookup.Proofs.Exports
import NameLookup.Proofs.Operand.PastBlock
import NameLookup.Proofs.SymbolTable.Walks

/-!
# A switch does not look into its body

The operand of a `switch` is looked up from where the `switch` stands, not from its body. What is
declared in the body is therefore of no consequence to the import that the `switch` opens
(`switch_body_captures_nothing`), unless the body stands in itself, which nothing prevents: then its
chain comes back to it (`block_not_mem_tail_chainAt` has the condition). The declarations of an
instance that is built on the way are entered after those of the body and have other numbers then,
so imports are compared without the list of what they export.
-/

set_option autoImplicit false

namespace NameLookup

open Relation

/-- The exports without the list of the members. -/
def Exports.bare (e : Exports) : Exports := { e with members := .empty }

/-- What an import came to, without the list of the members. -/
def ImportState.bare : ImportState → ImportState
  | .active target e => .active target e.bare
  | .deferred token => .deferred token

/-- The import without the list of the members. -/
def OpenImport.bare (i : OpenImport) : OpenImport := { i with state := i.state.bare }

/-- Results that `f` makes the same are the same fault, or both results. -/
theorem Attempt.cases_of_map_eq {ε α β : Type} {f : α → β} {r r' : Except ε α}
    (h : r'.map f = r.map f) :
    (∃ fault, r = .error fault ∧ r' = .error fault) ∨
      ∃ a a', r = .ok a ∧ r' = .ok a' ∧ f a' = f a := by
  cases r with
  | error fault =>
    cases r' with
    | error fault' => exact .inl ⟨fault, rfl, congrArg _ (Except.error.inj h)⟩
    | ok a' => cases h
  | ok a =>
    cases r' with
    | error fault' => cases h
    | ok a' => exact .inr ⟨a, a', rfl, rfl, Except.ok.inj h⟩

namespace SymbolTable

/-- One step outwards: `o'` is what `o` stands in. -/
def StepsOut (t : SymbolTable) (o o' : Owner) : Prop := t.around? o = some o'

variable {t u : SymbolTable} {b : BlockId} {n k : Nat}

/-! ## The way out from the body -/

/-- Stepping outwards from an owner one comes to every block among its links. -/
theorem stepsOut_of_mem_ownerLinks {m : Nat} {o : Owner} (hb : .block b ∈ t.ownerLinks m o) :
    ReflTransGen t.StepsOut o (.block b) := by
  induction m generalizing o with
  | zero =>
    cases o with
    | scope s => exact absurd hb (block_not_mem_chainOfScope t b s)
    | block c => exact absurd hb List.not_mem_nil
  | succ m ih =>
    cases o with
    | scope s => exact absurd hb (block_not_mem_chainOfScope t b s)
    | block c =>
      rcases List.mem_cons.1 hb with hsame | hb
      · rw [hsame]
      · cases hc : t.block? c with
        | none =>
          rw [hc] at hb
          exact absurd hb List.not_mem_nil
        | some e =>
          rw [hc] at hb
          exact (ih hb).head (by rw [StepsOut, around?, hc]; rfl)

/-- A block that does not stand in itself is not met again on the way out. -/
theorem block_not_mem_tail_chainAt (h : ¬ TransGen t.StepsOut (.block b) (.block b)) :
    .block b ∉ (t.chainAt b).tail := by
  intro hb
  rw [chainAt, ownerLinks, List.tail_cons] at hb
  cases he : t.block? b with
  | none =>
    rw [he] at hb
    exact List.not_mem_nil hb
  | some e =>
    rw [he] at hb
    have hfirst : t.StepsOut (.block b) e.parent := by rw [StepsOut, around?, he]; rfl
    exact h (TransGen.head' hfirst (stepsOut_of_mem_ownerLinks hb))

/-- In an ordered table nothing stands in itself. -/
theorem Ordered.not_stepsOut_to_itself (h : t.Ordered) {o : Owner} (ho : t.HasOwner o) :
    ¬ TransGen t.StepsOut o o := by
  have hlt : ∀ {o'}, TransGen t.StepsOut o o' → t.HasOwner o' ∧ t.rank o' < t.rank o := by
    intro o' hs
    induction hs with
    | single hs => exact h.around?_lt ho hs
    | tail _ hs ih =>
      have hnext := h.around?_lt ih.1 hs
      exact ⟨hnext.1, Nat.lt_trans hnext.2 ih.2⟩
  exact fun hs => Nat.lt_irrefl _ (hlt hs).2

/-! ## Exports -/

namespace SameOutside

variable (h : SameOutside b n k t u)
include h

theorem readExports_bare (s : ScopeId) :
    (readExports s u).1.map Exports.bare = (readExports s t).1.map Exports.bare := by
  rw [readExports_run, readExports_run]
  cases hs : t.scope? s with
  | none => rw [h.scope_none hs]
  | some e =>
    obtain ⟨members, -, hu⟩ := h.scope_some hs
    rw [hu, h.qualifiedName]
    show (if e.isTemplate then _ else _ : Except ImportFault Exports × SymbolTable).1.map _ =
      (if e.isTemplate then _ else _ : Except ImportFault Exports × SymbolTable).1.map _
    split <;> rfl

theorem targetExports_bare (target : Target) :
    (targetExports target u).1.map Exports.bare = (targetExports target t).1.map Exports.bare := by
  rw [targetExports_run, targetExports_run]
  obtain ⟨fault | s, t', u', h', ht, hu⟩ := (h.concreteScope target).exists_run
  · rw [ht, hu]
  · simp only [ht, hu]
    exact h'.readExports_bare s

/-- The cache is of equal use to both. -/
theorem fetch_bare (c : ExportCache) (target : Target) :
    (c.fetch target u).1.map (·.1.bare) = (c.fetch target t).1.map (·.1.bare) := by
  rw [ExportCache.fetch_run, ExportCache.fetch_run]
  cases c.entries.lookup target with
  | some e => rfl
  | none =>
    have hbare := h.targetExports_bare target
    rcases ht : targetExports target t with ⟨r, t'⟩
    rcases hu : targetExports target u with ⟨r', u'⟩
    rw [ht, hu] at hbare
    obtain ⟨fault, rfl, rfl⟩ | ⟨e, e', rfl, rfl, he⟩ := Attempt.cases_of_map_eq hbare
    · rfl
    · exact congrArg Except.ok he

end SameOutside

end SymbolTable

namespace Analysis

variable {a : Analysis} {u : SymbolTable} {b : BlockId} {n k : Nat}

theorem fetchExports_bare (h : a.table.SameOutside b n k u) (target : Target) :
    (fetchExports target { a with table := u }).1.map Exports.bare =
      (fetchExports target a).1.map Exports.bare := by
  rw [fetchExports_run, fetchExports_run]
  have hbare := h.fetch_bare a.exportCache target
  rcases ht : a.exportCache.fetch target a.table with ⟨r, t'⟩
  rcases hu : a.exportCache.fetch target u with ⟨r', u'⟩
  rw [ht, hu] at hbare
  obtain ⟨fault, rfl, rfl⟩ | ⟨e, e', rfl, rfl, he⟩ := Attempt.cases_of_map_eq hbare
  · rfl
  · exact congrArg Except.ok he

/-- An operand that is looked up past the block comes to the same on both tables. -/
theorem openingState_bare (h : a.table.SameOutside b n k u) {chain : ScopeChain}
    (hc : .block b ∉ chain) (operand : Operand) :
    (openingState operand chain { a with table := u }).1.map ImportState.bare =
      (openingState operand chain a).1.map ImportState.bare := by
  rw [openingState_run, openingState_run]
  obtain ⟨fault | target | token, t', u', h', ht, hu⟩ :=
    (h.resolveOperand hc (bindingsOf a.frames) a.options.stepBudget operand).exists_run
  · simp only [ht, hu]
  · simp only [ht, hu]
    have hbare := fetchExports_bare (a := { a with table := t' }) h' target
    rcases hx : fetchExports target { a with table := t' } with ⟨r, c⟩
    rcases hy : fetchExports target { a with table := u' } with ⟨r', c'⟩
    rw [hx, hy] at hbare
    obtain ⟨fault, rfl, rfl⟩ | ⟨e, e', rfl, rfl, he⟩ := Attempt.cases_of_map_eq hbare
    · rfl
    · exact congrArg (fun e => Except.ok (ImportState.active target e)) he
  · simp only [ht, hu]

/-! ## The import of a switch -/

/-- What a `switch` opens follows from what its operand came to and from the number of the next
import. -/
theorem openSwitchImport_bare {a' : Analysis} {controlling : Operand} {extent : Extent}
    (himports : a'.imports = a.imports)
    (hstate : (openingState controlling (a'.table.chainAt extent.block).tail a').1.map
        ImportState.bare =
      (openingState controlling (a.table.chainAt extent.block).tail a).1.map ImportState.bare) :
    (openSwitchImport controlling extent a').1.map (Option.map OpenImport.bare) =
      (openSwitchImport controlling extent a).1.map (Option.map OpenImport.bare) := by
  rw [openSwitchImport_run, openSwitchImport_run]
  rcases hx : openingState controlling (a.table.chainAt extent.block).tail a with ⟨r, c⟩
  rcases hy : openingState controlling (a'.table.chainAt extent.block).tail a' with ⟨r', c'⟩
  have hc : c'.imports = c.imports :=
    (openingState_consults hy).1.imports.trans
      (himports.trans (openingState_consults hx).1.imports.symm)
  rw [hx, hy] at hstate
  obtain ⟨fault, rfl, rfl⟩ | ⟨state, state', rfl, rfl, hbare⟩ := Attempt.cases_of_map_eq hstate
  · rfl
  · cases state with
    | active target e =>
      cases state' with
      | active target' e' =>
        obtain ⟨rfl, he⟩ := ImportState.active.inj hbare
        have hkind : e'.kind = e.kind := by
          show e'.bare.kind = e.bare.kind
          rw [he]
        simp only [hkind, hc]
        split
        · rfl
        · simp only [Except.map, Option.map_some, OpenImport.bare, OpenImports.insert,
            ImportState.bare, he]
      | deferred token => cases hbare
    | deferred token =>
      cases state' with
      | active target e => cases hbare
      | deferred token' =>
        cases hbare
        simp only [hc]

/-- The body of a `switch` captures nothing of its operand. Whatever is declared in the body, as long
as the body does not stand in itself, the `switch` opens nothing in either case, or is refused in
both for the same fault, or opens imports of the same target, or which wait for the same type in the
same chain. -/
theorem switch_body_captures_nothing (ha : a.Reachable) {extent : Extent}
    (hout : ¬ TransGen a.table.StepsOut (.block extent.block) (.block extent.block))
    (controlling : Operand) {ds : List Declaration}
    (hds : ∀ d ∈ ds, d.owner = .block extent.block) :
    (openSwitchImport controlling extent
        { a with table := ds.foldl SymbolTable.withDecl a.table }).1.map
          (Option.map OpenImport.bare) =
      (openSwitchImport controlling extent a).1.map (Option.map OpenImport.bare) := by
  obtain ⟨k, h⟩ := (SymbolTable.SameOutside.refl extent.block a.table).foldl_withDecl ha.table.sound
    hds
  refine openSwitchImport_bare rfl ?_
  rw [h.chainAt]
  exact openingState_bare h (SymbolTable.block_not_mem_tail_chainAt hout) controlling

/-- The class template `Box<T>` with an enumeration `State`, and block 0 with the alias `Int` of `int`
and a variable `x` of type `Box<Int>::State`; block 1 is inside of that. -/
def switchOverState : SymbolTable :=
  let t := ((SymbolTable.new SymbolTable.defaultInstantiationLimit)
    |>.withScope SymbolTable.global "Box" .classType (some ["T"])
    |>.withScope ⟨1⟩ "State" .enumType none
    |>.withDecl ⟨"on", .enumerator, .scope ⟨2⟩, some (.scope ⟨2⟩), none⟩
    |>.addBlock (.scope SymbolTable.global)).2
  let x : TypeExpr := .member (.apply ⟨1⟩ [.named "Int"]) "State"
  ((t.withDecl ⟨"Int", .typeAlias, .block ⟨0⟩, some (.scalar "int"), none⟩
    |>.withDecl ⟨"x", .var, .block ⟨0⟩, some x, none⟩).addBlock (.block ⟨0⟩)).2

theorem switchOverState_grounded : switchOverState.Grounded := by
  have houter := ((((SymbolTable.Grounded.new SymbolTable.defaultInstantiationLimit).withScope
    SymbolTable.global "Box" .classType (some ["T"])).withScope ⟨1⟩ "State" .enumType none).withDecl
      ⟨"on", .enumerator, .scope ⟨2⟩, some (.scope ⟨2⟩), none⟩).change
        (.addBlock (.scope SymbolTable.global) (by decide))
  exact ((houter.withDecl _).withDecl _).change (.addBlock (.block ⟨0⟩) (by decide))

/-- A `switch` over `x` with block 1 as its body, in which `x` and `Int` are declared once more, is
over the `State` of `Box<int>`. -/
theorem switch_body_captures_nothing_of_state :
    let a : Analysis := .new switchOverState .default fun _ _ => []
    let extent : Extent := ⟨⟨1⟩, { file := ⟨0⟩, start := 0, stop := 11 }⟩
    let ds : List Declaration := [⟨"x", .var, .block ⟨1⟩, some (.scope ⟨1⟩), none⟩,
      ⟨"Int", .typeAlias, .block ⟨1⟩, some (.scope SymbolTable.global), none⟩]
    a.Reachable ∧ ¬ TransGen a.table.StepsOut (.block extent.block) (.block extent.block) ∧
      (∀ d ∈ ds, d.owner = .block extent.block) ∧
      (openSwitchImport (.value "x") extent
          { a with table := ds.foldl SymbolTable.withDecl a.table }).1.map
            (Option.map OpenImport.bare) =
        .ok (some ⟨⟨0⟩, .fallback, extent, .value "x",
          .active ⟨⟨4⟩, []⟩ ⟨⟨4⟩, .enumType, .empty⟩, true⟩) := by
  intro a extent ds
  have ha : a.Reachable := .new switchOverState_grounded.reachable _ _
  have hout : ¬ TransGen a.table.StepsOut (.block extent.block) (.block extent.block) :=
    switchOverState_grounded.ordered.not_stepsOut_to_itself (by decide)
  have hds : ∀ d ∈ ds, d.owner = .block extent.block := by decide
  refine ⟨ha, hout, hds, ?_⟩
  rw [switch_body_captures_nothing ha hout (.value "x") hds]
  decide +kernel

end Analysis

end NameLookup
