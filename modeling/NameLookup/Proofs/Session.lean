import NameLookup.Session
import NameLookup.Proofs.Analysis.Detour
import NameLookup.Proofs.Analysis.FirstBuilt

/-!
# Sessions are balanced

Where no construct leaks, a session leaves an analysis as it found it but for the imports that its
actions closed (`session_balanced`): the frames are the same, and so are the imports, in their order,
without those. `Leaves` says this of two states. A construct opens an import or enters a frame
(`Opens`), its steps leave the analysis as they found it, and leaving the construct undoes what was
opened, whether or not the steps closed it before (`Opens.leaves`). The induction is over the steps, and
makes no use of how the session goes on after a step that ends it.
-/

set_option autoImplicit false

namespace NameLookup

variable {α σ ρ : Type}

/-! ## Traces and steps -/

mutual

/-- The answers that a step gave, at any depth and in order. -/
def Trace.answers : Trace ρ → List ρ
  | .answer r => [r]
  | .refused _ | .unopened => []
  | .opened _ body _ => answersAll body
  | .instantiated body => answersAll body

/-- The answers that some steps gave. -/
def Trace.answersAll : List (Trace ρ) → List ρ
  | [] => []
  | t :: ts => t.answers ++ answersAll ts

end

mutual

/-- No construct of the step leaves open what it opened. -/
def Step.LeaksNothing : Step α → Prop
  | .action _ => True
  | .importing _ _ _ exit body => exit ≠ .leak ∧ leakNothing body
  | .switching _ _ exit body => exit ≠ .leak ∧ leakNothing body
  | .instantiating _ exit body => exit ≠ .leak ∧ leakNothing body

/-- No construct of the steps leaves open what it opened. -/
def Step.leakNothing : List (Step α) → Prop
  | [] => True
  | s :: ss => s.LeaksNothing ∧ leakNothing ss

end

namespace Session

open Analysis Relation

/-! ## Runs -/

section
variable {β γ : Type} (s : σ) (a : Analysis)

theorem run_pure (x : β) : (pure x : SessionM σ β) s a = ((x, s), a) := rfl

theorem run_bind (x : SessionM σ β) (f : β → SessionM σ γ) :
    (x >>= f) s a = f (x s a).1.1 (x s a).1.2 (x s a).2 := rfl

theorem run_lift (x : StateM Analysis β) :
    (liftM x : SessionM σ β) s a = (((x a).1, s), (x a).2) := rfl

theorem run_modify (f : Analysis → Analysis) :
    (modifyThe Analysis f : SessionM σ PUnit) s a = ((⟨⟩, s), f a) := rfl

end

section
variable (act : α → SessionM σ (ρ × Bool)) (s : σ) (a : Analysis)

theorem runStep_action (x : α) :
    runStep act (.action x) s a =
      (((.answer (act x s a).1.1.1, (act x s a).1.1.2), (act x s a).1.2), (act x s a).2) := by
  simp only [runStep, run_bind, run_pure]

/-- What is left of a construct once its import is open: its steps, and leaving it. -/
def inside (i : OpenImport) (exit : Exit) (body : List (Step α)) :
    ((Trace ρ × Bool) × σ) × Analysis :=
  let r := runSteps act body s a
  (((.opened i r.1.1.1 (leaveImport i.id exit r.2).1, r.1.1.2), r.1.2), (leaveImport i.id exit r.2).2)

theorem runStep_importing (operand : Operand) (kind : ImportKind) (extent : Extent) (exit : Exit)
    (body : List (Step α)) :
    runStep act (.importing operand kind extent exit body) s a =
      match openImport operand kind extent a with
      | (.error fault, b) => (((.refused fault, true), s), b)
      | (.ok i, b) => inside act s b i exit body := by
  have hrun : (openImport operand kind extent).run a = openImport operand kind extent a := rfl
  simp only [runStep, run_bind, run_lift, hrun]
  rcases openImport operand kind extent a with ⟨fault | i, b⟩
  · rfl
  · rfl

theorem runStep_switching (controlling : Operand) (extent : Extent) (exit : Exit)
    (body : List (Step α)) :
    runStep act (.switching controlling extent exit body) s a =
      match openSwitchImport controlling extent a with
      | (.error fault, b) => (((.refused fault, true), s), b)
      | (.ok none, b) => (((.unopened, true), s), b)
      | (.ok (some i), b) => inside act s b i exit body := by
  have hrun : (openSwitchImport controlling extent).run a = openSwitchImport controlling extent a :=
    rfl
  simp only [runStep, run_bind, run_lift, hrun]
  rcases openSwitchImport controlling extent a with ⟨fault | _ | i, b⟩
  · rfl
  · rfl
  · rfl

theorem runStep_instantiating (bindings : Substitution) (exit : Exit) (body : List (Step α)) :
    runStep act (.instantiating bindings exit body) s a =
      (((.instantiated (runSteps act body s (a.enterFrame bindings)).1.1.1,
          (runSteps act body s (a.enterFrame bindings)).1.1.2),
        (runSteps act body s (a.enterFrame bindings)).1.2),
        (leaveInstantiation exit (runSteps act body s (a.enterFrame bindings)).2).2) := by
  simp only [runStep, run_bind, run_lift, run_modify, run_pure]

theorem runSteps_nil : runSteps act [] s a = ((([], true), s), a) := by
  simp only [runSteps, run_pure]

theorem runSteps_cons (st : Step α) (ss : List (Step α)) :
    runSteps act (st :: ss) s a =
      match runStep act st s a with
      | (((trace, true), s), b) =>
        ((((trace :: (runSteps act ss s b).1.1.1, (runSteps act ss s b).1.1.2)),
          (runSteps act ss s b).1.2), (runSteps act ss s b).2)
      | (((trace, false), s), b) => ((([trace], false), s), b) := by
  simp only [runSteps, run_bind]
  rcases runStep act st s a with ⟨⟨⟨trace, goesOn⟩, s⟩, b⟩
  cases goesOn
  · rfl
  · simp only [if_true, run_bind, run_pure]

end

/-! ## Leaving things as they were -/

/-- In `b` all is as in `a`, but that the imports of some numbers have been closed. -/
structure Leaves (closed : List ImportId) (a b : Analysis) : Prop where
  frames : b.frames = a.frames
  imports : b.imports.toList = a.imports.toList.filter (·.id ∉ closed)
  nextId_le : a.imports.nextId ≤ b.imports.nextId
  tidy : b.Tidy

/-- Between `a` and `b` the import `i` was opened, and nothing else. -/
structure Opens (i : OpenImport) (a b : Analysis) : Prop where
  frames : b.frames = a.frames
  imports : b.imports.toList = a.imports.toList ++ [i]
  id : i.id = ⟨a.imports.nextId⟩
  nextId_le : a.imports.nextId ≤ b.imports.nextId
  tidy : b.Tidy

variable {a b c : Analysis} {closed closed' : List ImportId} {i : OpenImport}

namespace Leaves

theorem of_eq (hframes : b.frames = a.frames) (himports : b.imports = a.imports) (h : b.Tidy) :
    Leaves [] a b where
  frames := hframes
  imports := by
    rw [himports]
    exact (List.filter_eq_self.2 fun _ _ => by simp).symm
  nextId_le := Nat.le_of_eq (congrArg OpenImports.nextId himports).symm
  tidy := h

theorem refl (h : a.Tidy) : Leaves [] a a := .of_eq rfl rfl h

theorem consults (h : a.Tidy) (hc : a.Consults b) : Leaves [] a b :=
  .of_eq hc.frames hc.imports (h.consults hc)

theorem settles (h : a.Tidy) (hs : ReflTransGen SettleMove a b) : Leaves [] a b :=
  .of_eq (remembers_of_settles hs).frames (imports_eq_of_settles hs) (h.settleMoves hs)

theorem trans (h : Leaves closed a b) (h' : Leaves closed' b c) : Leaves (closed ++ closed') a c where
  frames := h'.frames.trans h.frames
  imports := by
    rw [h'.imports, h.imports, List.filter_filter]
    refine List.filter_congr fun j _ => ?_
    simp [Bool.and_comm]
  nextId_le := Nat.le_trans h.nextId_le h'.nextId_le
  tidy := h'.tidy

/-- Closing an import, which need not be open, leaves the others. -/
theorem closeImport (h : a.Tidy) (id : ImportId) : Leaves [id] a (Analysis.closeImport id a).2 := by
  rw [closeImport_run]
  cases hi : a.imports.get? id with
  | none =>
    refine ⟨rfl, (List.filter_eq_self.2 fun j hj => ?_).symm, Nat.le_refl _, h⟩
    have hne : j.id ≠ id := by
      rintro rfl
      rw [h.ordered.get?_eq_some.2 hj] at hi
      cases hi
    simpa using hne
  | some i =>
    refine ⟨rfl, (h.ordered.toList_erase id).trans ?_, Nat.le_refl _, h.withoutImport id⟩
    exact List.filter_congr fun j _ => by simp

end Leaves

/-! ## Constructs -/

theorem withImport_opens (h : a.Tidy) (hc : a.Consults b) (kind : ImportKind) (extent : Extent)
    (operand : Operand) (state : ImportState) (fromSwitch : Bool) :
    Opens (b.imports.insert kind extent operand state fromSwitch).1 a
      (b.withImport kind extent operand state fromSwitch) where
  frames := hc.frames
  imports := by
    rw [← hc.imports]
    rfl
  id := by
    rw [← hc.imports]
    rfl
  nextId_le := by
    rw [← hc.imports]
    exact Nat.le_succ _
  tidy := (h.consults hc).withImport kind extent operand state fromSwitch

/-- An import opens, or leaves things as they were. -/
theorem openImport_opens (h : a.Tidy) {operand : Operand} {kind : ImportKind} {extent : Extent}
    {r : Except ImportFault OpenImport} (hrun : openImport operand kind extent a = (r, b)) :
    (∀ i, r = .ok i → Opens i a b) ∧ ∀ fault, r = .error fault → Leaves [] a b := by
  rw [openImport_run] at hrun
  rcases ho : openingState operand (a.table.chainAt extent.block) a with ⟨fault | state, c⟩ <;>
    rw [ho] at hrun <;> cases hrun
  · exact ⟨fun i hr => (nomatch hr), fun _ _ => .consults h (openingState_consults ho).1⟩
  · refine ⟨fun i hr => ?_, fun fault hr => by cases hr⟩
    cases hr
    exact withImport_opens h (openingState_consults ho).1 kind extent operand state false

/-- The import of a `switch` opens, or leaves things as they were. -/
theorem openSwitchImport_opens (h : a.Tidy) {controlling : Operand} {extent : Extent}
    {r : Except ImportFault (Option OpenImport)}
    (hrun : openSwitchImport controlling extent a = (r, b)) :
    (∀ i, r = .ok (some i) → Opens i a b) ∧ ((∀ i, r ≠ .ok (some i)) → Leaves [] a b) := by
  rw [openSwitchImport_run] at hrun
  rcases ho : openingState controlling (a.table.chainAt extent.block).tail a
    with ⟨fault | ⟨target, exports⟩ | token, c⟩ <;> simp only [ho] at hrun
  · cases hrun
    refine ⟨fun i hr => ?_, fun _ => .consults h (openingState_consults ho).1⟩
    split at hr <;> cases hr
  · split at hrun <;> cases hrun
    · exact ⟨fun i hr => (nomatch hr), fun _ => .consults h (openingState_consults ho).1⟩
    · refine ⟨fun i hr => ?_, fun hr => absurd rfl (hr _)⟩
      cases hr
      exact withImport_opens h (openingState_consults ho).1 ..
  · cases hrun
    refine ⟨fun i hr => ?_, fun hr => absurd rfl (hr _)⟩
    cases hr
    exact withImport_opens h (openingState_consults ho).1 ..

theorem leaveImport_snd {exit : Exit} (h : exit ≠ .leak) (id : ImportId) (a : Analysis) :
    (leaveImport id exit a).2 = (Analysis.closeImport id a).2 := by
  cases exit with
  | release => rfl
  | handOut => rfl
  | leak => exact absurd rfl h

theorem leaveInstantiation_snd {exit : Exit} (h : exit ≠ .leak) (a : Analysis) :
    (leaveInstantiation exit a).2 = a.leaveFrame := by
  cases exit with
  | release => rfl
  | handOut => rfl
  | leak => exact absurd rfl h

/-- Leaving a construct closes what it opened, be it open still or closed by a step inside. -/
theorem Opens.leaves (h : Opens i a b) (ha : a.Tidy) (hbody : Leaves closed b c) {exit : Exit}
    (hexit : exit ≠ .leak) : Leaves closed a (leaveImport i.id exit c).2 := by
  have hclose := hbody.trans (.closeImport hbody.tidy i.id)
  rw [leaveImport_snd hexit]
  refine ⟨hclose.frames.trans h.frames, ?_, Nat.le_trans h.nextId_le hclose.nextId_le, hclose.tidy⟩
  have hi : decide (i.id ∉ closed ++ [i.id]) = false := by simp
  rw [hclose.imports, h.imports, List.filter_append, List.filter_singleton, hi, Bool.cond_false,
    List.append_nil]
  refine List.filter_congr fun j hj => ?_
  have hne : j.id ≠ i.id := by
    have := ha.ordered.below j hj
    rw [h.id]
    rintro heq
    rw [heq] at this
    exact Nat.lt_irrefl _ this
  simp [hne]

/-! ## Sessions -/

section
variable {act : α → SessionM σ (ρ × Bool)} {closes : ρ → List ImportId}

/-- Actions open nothing and touch no frame, and close at most the imports that their answers tell
of. -/
def Tame (act : α → SessionM σ (ρ × Bool)) (closes : ρ → List ImportId) : Prop :=
  ∀ x s a, a.Tidy → Leaves (closes (act x s a).1.1.1) a (act x s a).2

mutual

/-- A step closes what its actions close, at any depth, and nothing else. -/
theorem runStep_leaves (hact : Tame act closes) :
    ∀ (st : Step α), st.LeaksNothing → ∀ s a, a.Tidy →
      Leaves ((runStep act st s a).1.1.1.answers.flatMap closes) a (runStep act st s a).2
  | .action x, _, s, a, ha => by
    rw [runStep_action]
    simp only [Trace.answers, List.flatMap_singleton]
    exact hact x s a ha
  | .importing operand kind extent exit body, ⟨hexit, hbody⟩, s, a, ha => by
    rw [runStep_importing]
    rcases hrun : openImport operand kind extent a with ⟨fault | i, b⟩
    · exact (openImport_opens ha hrun).2 fault rfl
    · have hopens := (openImport_opens ha hrun).1 i rfl
      exact hopens.leaves ha (runSteps_leaves hact body hbody s b hopens.tidy) hexit
  | .switching controlling extent exit body, ⟨hexit, hbody⟩, s, a, ha => by
    rw [runStep_switching]
    rcases hrun : openSwitchImport controlling extent a with ⟨fault | _ | i, b⟩
    · exact (openSwitchImport_opens ha hrun).2 fun i hr => nomatch hr
    · exact (openSwitchImport_opens ha hrun).2 fun i hr => nomatch hr
    · have hopens := (openSwitchImport_opens ha hrun).1 i rfl
      exact hopens.leaves ha (runSteps_leaves hact body hbody s b hopens.tidy) hexit
  | .instantiating bindings exit body, ⟨hexit, hbody⟩, s, a, ha => by
    have h := runSteps_leaves hact body hbody s (a.enterFrame bindings) ⟨ha.ordered, ha.settled⟩
    rw [runStep_instantiating, leaveInstantiation_snd hexit]
    exact ⟨congrArg List.tail h.frames, h.imports, h.nextId_le, h.tidy.ordered, h.tidy.settled⟩

theorem runSteps_leaves (hact : Tame act closes) :
    ∀ (steps : List (Step α)), Step.leakNothing steps → ∀ s a, a.Tidy →
      Leaves ((Trace.answersAll (runSteps act steps s a).1.1.1).flatMap closes) a
        (runSteps act steps s a).2
  | [], _, s, a, ha => by
    rw [runSteps_nil]
    exact .refl ha
  | st :: ss, ⟨hst, hss⟩, s, a, ha => by
    have h := runStep_leaves hact st hst s a ha
    rw [runSteps_cons]
    rcases hrun : runStep act st s a with ⟨⟨⟨trace, _ | _⟩, s'⟩, b⟩ <;> rw [hrun] at h
    · simp only [Trace.answersAll, List.append_nil]
      exact h
    · simp only [Trace.answersAll, List.flatMap_append]
      exact h.trans (runSteps_leaves hact ss hss s' b h.tidy)

end

end

/-! ## What may be asked inside of a construct -/

inductive Request where
  | closeImport (id : ImportId)
  | visibleImports (p : Point)
  | lookup (name : Name) (p : Point)
  /-- The table is changed from outside, in whatever way. -/
  | amend (change : SymbolTable → SymbolTable)
  /-- The session ends here. -/
  | stop

inductive Response where
  /-- The import of that number, if it was open. -/
  | closed (id : ImportId) (i : Option OpenImport)
  | visible (imports : List VisibleImport)
  | found (o : LookupOutcome)
  | done

def Request.run : Request → SessionM Unit (Response × Bool)
  | .closeImport id => return (.closed id (← Analysis.closeImport id), true)
  | .visibleImports p => return (.visible (← Analysis.visibleImports p), true)
  | .lookup name p => return (.found (← Analysis.lookup name p), true)
  | .amend change => do
    modifyThe Analysis fun a => { a with table := change a.table }
    return (.done, true)
  | .stop => return (.done, false)

/-- The numbers that an answer tells to have been asked to be closed. -/
def Response.closes : Response → List ImportId
  | .closed id _ => [id]
  | _ => []

theorem request_tame : Tame Request.run Response.closes := by
  intro x s a ha
  cases x with
  | closeImport id => exact .closeImport ha id
  | visibleImports p => exact .settles ha (visibleImports_settles a p)
  | lookup name p => exact .settles ha (lookup_settles a name p)
  | amend change => exact .of_eq rfl rfl ⟨ha.ordered, ha.settled⟩
  | stop => exact .refl ha

/-- The numbers that were explicitly closed in a session, at any depth. -/
def closedIn (traces : List (Trace Response)) : List ImportId :=
  (Trace.answersAll traces).flatMap Response.closes

end Session

end NameLookup
