import NameLookup.Proofs.Analysis.Moves
import NameLookup.Proofs.Lookup

/-!
# Detours

A `Detour` does anything with an analysis but close imports and leave frames that were there before.
Once it has closed and left what it opened and entered, a lookup gives what it gave before
(`lookup_after_detour`). What a detour keeps is `Away`; that an answer is not worked out anew is
`visibleAmong_again`.
-/

set_option autoImplicit false

namespace NameLookup.Analysis

open Relation

/-! ## Settled imports are remembered -/

/-- In `b` the same bindings are in force, and all that was settled in `a` still is. -/
structure Remembers (a b : Analysis) : Prop where
  frames : b.frames = a.frames
  settled : ∀ key c, a.settled.lookup key = some c → b.settled.lookup key = some c

variable {a b c : Analysis}

theorem Remembers.refl (a : Analysis) : a.Remembers a := ⟨rfl, fun _ _ h => h⟩

theorem Remembers.trans (h : a.Remembers b) (h' : b.Remembers c) : a.Remembers c :=
  ⟨h'.frames.trans h.frames, fun key x hx => h'.settled key x (h.settled key x hx)⟩

theorem SettleMove.remembers (h : SettleMove a b) : a.Remembers b := by
  obtain ⟨-, -, -, hnew, hrun⟩ := h
  have hc := (settle_consults hrun).1
  refine ⟨hc.frames, fun key x hx => ?_⟩
  rw [AssocList.lookup_cons, hc.settled]
  split
  · next hkey =>
    rw [hkey, hnew] at hx
    cases hx
  · exact hx

theorem remembers_of_settles (h : ReflTransGen SettleMove a b) : a.Remembers b := by
  induction h with
  | refl => exact .refl a
  | tail _ hm ih => exact ih.trans hm.remembers

theorem Remembers.bindings? (h : a.Remembers b) : b.bindings? = a.bindings? := by
  unfold Analysis.bindings?
  rw [h.frames]

/-- What a waiting import came to is settled from then on. -/
theorem contribution_settled {id : ImportId} {token : Deferral} {σ : Substitution}
    (hσ : a.bindings? = some σ) :
    (contribution id token a).2.frames = a.frames ∧
      (contribution id token a).2.settled.lookup (id, σ) = some (contribution id token a).1 := by
  rw [contribution_run, hσ]
  simp only
  cases hl : a.settled.lookup (id, σ) with
  | some known => exact ⟨rfl, hl⟩
  | none =>
    rcases h : settle σ token a with ⟨r, b⟩
    refine ⟨(settle_consults h).1.frames, ?_⟩
    rw [AssocList.lookup_cons, if_pos rfl]

/-- What an import contributed it contributes again. -/
theorem contributionOf_again {i : OpenImport} (h : (contributionOf i a).2.Remembers b) :
    contributionOf i b = ((contributionOf i a).1, b) := by
  rw [contributionOf_run] at h ⊢
  rw [contributionOf_run]
  cases hstate : i.state with
  | active target exports => rfl
  | deferred token =>
    simp only [hstate] at h ⊢
    rw [contribution_run b]
    cases hσ : a.bindings? with
    | none =>
      have hrun : contribution i.id token a = (.pending, a) := by rw [contribution_run, hσ]
      rw [hrun] at h ⊢
      rw [h.bindings?, hσ]
    | some σ =>
      obtain ⟨hframes, hsettled⟩ := @contribution_settled a i.id token σ hσ
      have hb : b.bindings? = some σ := by
        rw [← hσ]
        unfold bindings?
        rw [h.frames, hframes]
      rw [hb]
      simp only
      rw [h.settled _ _ hsettled]

/-- The imports in force are seen again as they were seen. -/
theorem visibleAmong_again {is : List OpenImport} (hi : ∀ i ∈ is, i ∈ a.imports.toList)
    (h : (visibleAmong is a).2.Remembers b) : visibleAmong is b = ((visibleAmong is a).1, b) := by
  induction is generalizing a with
  | nil => rfl
  | cons i is ih =>
    have himports := imports_eq_of_settles (contributionOf_settles a (hi i List.mem_cons_self))
    have hrest : ∀ j ∈ is, j ∈ (contributionOf i a).2.imports.toList := fun j hj =>
      himports ▸ hi j (List.mem_cons_of_mem _ hj)
    have hfirst : (contributionOf i a).2.Remembers b :=
      (remembers_of_settles (visibleAmong_settles _ is hrest)).trans h
    rw [visibleAmong_cons b, contributionOf_again hfirst]
    simp only [ih hrest h]
    rfl

/-! ## Detours -/

/-- What was done since `a` opened and entered things, `n` frames of which are still entered, but
closed and left nothing that was there before. -/
inductive Detour (a : Analysis) : Nat → Analysis → Prop
  | start : Detour a 0 a
  | openImport {n : Nat} {b : Analysis} (h : Detour a n b) (operand : Operand) (kind : ImportKind)
      (extent : Extent) : Detour a n (Operation.apply b (.openImport operand kind extent))
  | openSwitchImport {n : Nat} {b : Analysis} (h : Detour a n b) (controlling : Operand)
      (extent : Extent) : Detour a n (Operation.apply b (.openSwitchImport controlling extent))
  | closeImport {n : Nat} {b : Analysis} (h : Detour a n b) {id : ImportId}
      (hid : a.imports.get? id = none) : Detour a n (Operation.apply b (.closeImport id))
  | enterFrame {n : Nat} {b : Analysis} (h : Detour a n b) (σ : Substitution) :
      Detour a (n + 1) (Operation.apply b (.enterFrame σ))
  | leaveFrame {n : Nat} {b : Analysis} (h : Detour a (n + 1) b) :
      Detour a n (Operation.apply b .leaveFrame)
  | visibleImports {n : Nat} {b : Analysis} (h : Detour a n b) (p : Point) :
      Detour a n (Operation.apply b (.visibleImports p))
  | lookup {n : Nat} {b : Analysis} (h : Detour a n b) (name : Name) (p : Point) :
      Detour a n (Operation.apply b (.lookup name p))

/-- What a detour from `a` keeps: all that was there is still there, under what came on top. -/
structure Away (a : Analysis) (n : Nat) (b : Analysis) : Prop where
  grows : a.table.Grows b.table
  options : b.options = a.options
  associated : b.associated = a.associated
  frames : ∃ entered, entered.length = n ∧ b.frames = entered ++ a.frames
  imports : ∃ opened, b.imports.toList = a.imports.toList ++ opened ∧
    ∀ i ∈ opened, a.imports.nextId ≤ i.id.index
  nextId : a.imports.nextId ≤ b.imports.nextId
  settled : ∀ key c, a.settled.lookup key = some c → b.settled.lookup key = some c

namespace Away

variable {n : Nat}

theorem refl (a : Analysis) : a.Away 0 a where
  grows := .refl _
  options := rfl
  associated := rfl
  frames := ⟨[], rfl, rfl⟩
  imports := ⟨[], (List.append_nil _).symm, fun _ hi => absurd hi List.not_mem_nil⟩
  nextId := Nat.le_refl _
  settled _ _ h := h

theorem consults (h : a.Away n b) (hc : b.Consults c) : a.Away n c where
  grows := h.grows.trans hc.grows
  options := hc.options.trans h.options
  associated := hc.associated.trans h.associated
  frames := hc.frames ▸ h.frames
  imports := hc.imports ▸ h.imports
  nextId := hc.imports ▸ h.nextId
  settled key x hx := by
    rw [hc.settled]
    exact h.settled key x hx

theorem openMove (h : a.Away n b) {operand : Operand} {chain : ScopeChain}
    (hm : OpenMove operand chain b c) : a.Away n c := by
  cases hm with
  | ask hrun => exact h.consults (openingState_consults hrun).1
  | @register state d hrun kind extent fromSwitch =>
    have hd := h.consults (openingState_consults hrun).1
    obtain ⟨opened, hopened, hnew⟩ := hd.imports
    refine ⟨hd.grows, hd.options, hd.associated, hd.frames, ?_, ?_, hd.settled⟩
    · refine ⟨opened ++ [(d.imports.insert kind extent operand state fromSwitch).1], ?_, ?_⟩
      · show d.imports.toList ++ [_] = _
        rw [hopened, List.append_assoc]
        rfl
      · intro i hi
        rcases List.mem_append.1 hi with hi | hi
        · exact hnew i hi
        · rw [List.mem_singleton.1 hi]
          exact hd.nextId
    · exact Nat.le_succ_of_le hd.nextId

theorem settleMove (h : a.Away n b) (hm : SettleMove b c) : a.Away n c := by
  have hr := hm.remembers
  obtain ⟨-, -, -, -, hrun⟩ := hm
  have hd := h.consults (settle_consults hrun).1
  exact ⟨hd.grows, hd.options, hd.associated, hd.frames, hd.imports, hd.nextId, fun key x hx =>
    hr.settled key x (h.settled key x hx)⟩

theorem settleMoves (h : a.Away n b) (hm : ReflTransGen SettleMove b c) : a.Away n c := by
  induction hm with
  | refl => exact h
  | tail _ hm ih => exact ih.settleMove hm

theorem closeImport (h : a.Away n b) (ha : a.Kept) {id : ImportId}
    (hid : a.imports.get? id = none) : a.Away n (b.withoutImport id) := by
  have hold : ∀ i ∈ a.imports.toList, i.id ≠ id := by
    rintro i hi rfl
    rw [ha.ordered.get?_eq_some.2 hi] at hid
    cases hid
  obtain ⟨opened, hopened, hnew⟩ := h.imports
  refine ⟨h.grows, h.options, h.associated, h.frames, ?_, h.nextId, fun key x hx => ?_⟩
  · refine ⟨opened.eraseP (·.id = id), ?_, fun i hi => hnew i (List.mem_of_mem_eraseP hi)⟩
    show b.imports.toList.eraseP (·.id = id) = _
    rw [hopened, List.eraseP_append_right]
    intro i hi
    simpa using hold i hi
  · obtain ⟨i, hi, hkey, -⟩ := ha.settled _ (AssocList.mem_of_lookup hx)
    have hne : key.1 ≠ id := fun he => hold i hi (hkey.trans he)
    show (b.settled.filter (·.1.1 ≠ id)).lookup key = some x
    rw [AssocList.lookup_filter fun _ => decide_eq_true hne]
    exact h.settled key x hx

end Away

theorem Detour.away {n : Nat} (ha : a.Kept) (h : Detour a n b) : a.Away n b := by
  induction h with
  | start => exact .refl a
  | openImport _ operand kind extent ih => exact ih.openMove (openImport_move _ operand kind extent)
  | openSwitchImport _ controlling extent ih =>
    exact ih.openMove (openSwitchImport_move _ controlling extent)
  | @closeImport n b _ id hid ih =>
    show a.Away n (Analysis.closeImport id b).2
    rw [closeImport_run]
    cases b.imports.get? id with
    | none => exact ih
    | some i => exact ih.closeImport ha hid
  | enterFrame _ σ ih =>
    obtain ⟨entered, hlen, hframes⟩ := ih.frames
    refine ⟨ih.grows, ih.options, ih.associated, ⟨σ :: entered, ?_, ?_⟩, ih.imports, ih.nextId,
      ih.settled⟩
    · rw [List.length_cons, hlen]
    · exact congrArg (σ :: ·) hframes
  | leaveFrame _ ih =>
    obtain ⟨_ | ⟨σ, entered⟩, hlen, hframes⟩ := ih.frames
    · cases hlen
    · refine ⟨ih.grows, ih.options, ih.associated, ⟨entered, Nat.succ.inj hlen, ?_⟩, ih.imports,
        ih.nextId, ih.settled⟩
      exact congrArg List.tail hframes
  | visibleImports _ p ih => exact ih.settleMoves (visibleImports_settles _ p)
  | lookup _ name p ih => exact ih.settleMoves (lookup_settles _ name p)

/-- Where nothing of it is left open or entered, the imports and the bindings are those of before. -/
theorem Away.back (h : a.Away 0 b) (ha : a.Kept)
    (hclosed : ∀ i ∈ b.imports.toList, (a.imports.get? i.id).isSome) :
    b.imports.toList = a.imports.toList ∧ a.Remembers b := by
  obtain ⟨entered, hlen, hframes⟩ := h.frames
  obtain rfl := List.eq_nil_of_length_eq_zero hlen
  obtain ⟨opened, hopened, hnew⟩ := h.imports
  refine ⟨?_, hframes, h.settled⟩
  cases opened with
  | nil => rw [hopened, List.append_nil]
  | cons i is =>
    have hi : i ∈ b.imports.toList := by simp [hopened]
    obtain ⟨j, hj⟩ := Option.isSome_iff_exists.1 (hclosed i hi)
    obtain ⟨hmem, hid⟩ := OpenImports.mem_of_get? hj
    have hlt := ha.ordered.below j hmem
    have hge := hnew i List.mem_cons_self
    rw [hid] at hlt
    omega

/-- A lookup gives what it gave before a detour that closed and left all that it had opened and
entered. -/
theorem lookup_after_detour (ha : a.Reachable) (hb : a.table.BlocksIn) {name : Name} {p : Point}
    (has : ∀ s ∈ a.associated name p, a.table.HasScope s)
    (h : Detour (lookup name p a).2 0 b)
    (hclosed : ∀ i ∈ b.imports.toList, (a.imports.get? i.id).isSome) :
    (lookup name p b).1 = (lookup name p a).1 := by
  have hk := ha.kept
  have hsettles := lookup_settles a name p
  have hstart : a.Away 0 (lookup name p a).2 := (Away.refl a).settleMoves hsettles
  have himports : (lookup name p a).2.imports = a.imports := imports_eq_of_settles hsettles
  have hk' : (lookup name p a).2.Kept := (ha.operation (.lookup name p)).kept
  have haway := h.away hk'
  obtain ⟨hlist, hremembers⟩ := haway.back hk' (himports ▸ hclosed)
  have hforce : b.imports.inForceAt p = a.imports.inForceAt p := by
    unfold OpenImports.inForceAt
    rw [hlist, himports]
  have hseen : visibleImports p b = ((visibleImports p a).1, b) := by
    rw [visibleImports_run b, hforce]
    exact visibleAmong_again (fun i hi => (List.mem_filter.1 hi).1) hremembers
  have hlookup (strict : Bool) (imports : List VisibleImport) {u : SymbolTable}
      (hg : a.table.Grows u) := hg.extends.lookupAt hk.sound hb has strict imports
  rw [lookup_run b, hseen]
  show b.table.lookupAt b.options.strictCaseLabels b.associated (visibleImports p a).1 name p =
    (lookup name p a).2.table.lookupAt (lookup name p a).2.options.strictCaseLabels
      (lookup name p a).2.associated (visibleImports p a).1 name p
  rw [haway.options, haway.associated, hstart.associated,
    hlookup _ _ (hstart.grows.trans haway.grows), hlookup _ _ hstart.grows]

/-- In a block beside the namespace `N`, which has the member `x`. -/
def besideNamespace : Analysis :=
  .new (((SymbolTable.new SymbolTable.defaultInstantiationLimit).withScope SymbolTable.global "N"
    .nameSpace none).withDecl ⟨"x", .var, .scope ⟨1⟩, none, none⟩
    |>.addBlock (.scope SymbolTable.global)).2 .default fun _ _ => []

theorem besideNamespace_reachable : besideNamespace.Reachable :=
  .new ((((SymbolTable.Reachable.new _).withScope _ _ _ _).withDecl _).change (.addBlock _)) _ _

theorem lookup_after_detour_to_namespace :
    let p : Point := ⟨⟨⟨0⟩, 5⟩, ⟨0⟩, .expression⟩
    let extent : Extent := ⟨⟨0⟩, { file := ⟨0⟩, start := 0, stop := 9 }⟩
    let a := besideNamespace
    let b := [Operation.enterFrame .empty, .openImport (.type (.named "N")) .unconditional extent,
      .lookup "x" p, .closeImport ⟨0⟩, .leaveFrame].foldl Operation.apply (lookup "x" p a).2
    (lookup "x" p b).1 = (lookup "x" p a).1 := by
  intro p extent a b
  have hblocks : a.table.BlocksIn := by
    rintro ⟨_ | i⟩ e s hb hp
    · cases hb
      cases hp
      decide
    · cases hb
  refine lookup_after_detour besideNamespace_reachable hblocks
    (fun s hs => absurd hs List.not_mem_nil) ?_ ?_
  · exact .leaveFrame (.closeImport (.lookup (.openImport (.enterFrame .start _) _ _ _) _ _) rfl)
  · decide

end NameLookup.Analysis
