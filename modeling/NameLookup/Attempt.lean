/-!
# Attempts

An `Attempt` is a computation that runs on a state and may fail; what it did to the state before it
failed stays done. Each of the lemmas says what one building block does when it is run on a state.
-/

set_option autoImplicit false

namespace NameLookup

/-- A computation on states of type `σ` that may fail with an `ε`. -/
abbrev Attempt (σ ε : Type) := ExceptT ε (StateM σ)

namespace Attempt

variable {σ ε ε' α β : Type}

@[simp] theorem run_pure (a : α) (s : σ) : (pure a : Attempt σ ε α) s = (.ok a, s) := rfl

@[simp] theorem run_throw (e : ε) (s : σ) : (throw e : Attempt σ ε α) s = (.error e, s) := rfl

@[simp] theorem run_get (s : σ) : (get : Attempt σ ε σ) s = (.ok s, s) := rfl

@[simp] theorem run_modify (f : σ → σ) (s : σ) :
    (modify f : Attempt σ ε PUnit) s = (.ok ⟨⟩, f s) := rfl

@[simp] theorem run_modifyGet (f : σ → α × σ) (s : σ) :
    (modifyGet f : Attempt σ ε α) s = (.ok (f s).1, (f s).2) := rfl

theorem run_bind (x : Attempt σ ε α) (f : α → Attempt σ ε β) (s : σ) :
    (x >>= f) s = match x s with
      | (.ok a, s) => f a s
      | (.error e, s) => (.error e, s) := by
  show (match x s with | (r, s) => (ExceptT.bindCont f r : StateM σ (Except ε β)) s) = _
  rcases x s with ⟨_ | _, _⟩ <;> rfl

theorem run_map (f : α → β) (x : Attempt σ ε α) (s : σ) :
    (f <$> x) s = ((x s).1.map f, (x s).2) := by
  rw [← bind_pure_comp, run_bind]
  rcases x s with ⟨_ | _, _⟩ <;> rfl

theorem run_tryCatch (x : Attempt σ ε α) (f : ε → Attempt σ ε α) (s : σ) :
    (tryCatch x f) s = match x s with
      | (.ok a, s) => (.ok a, s)
      | (.error e, s) => f e s := by
  simp only [tryCatch, tryCatchThe, MonadExceptOf.tryCatch, ExceptT.tryCatch, ExceptT.mk, bind,
    StateT.bind]
  rcases x s with ⟨_ | _, _⟩ <;> rfl

theorem run_adapt (f : ε → ε') (x : Attempt σ ε α) (s : σ) :
    (ExceptT.adapt f x) s = ((x s).1.mapError f, (x s).2) := by
  show (match x s with | (r, s) => (r.mapError f, s)) = _
  rfl

@[simp] theorem mapError_ok (f : ε → ε') (a : α) :
    (Except.ok a : Except ε α).mapError f = .ok a := rfl

theorem ok_of_mapError {f : ε → ε'} {r : Except ε α} {a : α} (h : r.mapError f = .ok a) :
    r = .ok a := by
  rcases r with e | b <;> cases h
  rfl

/-- Where nothing failed, nothing was adapted. -/
theorem run_of_adapt {f : ε → ε'} {x : Attempt σ ε α} {s s' : σ} {a : α}
    (h : (ExceptT.adapt f x) s = (.ok a, s')) : x s = (.ok a, s') := by
  rw [run_adapt] at h
  obtain ⟨hr, hs⟩ := Prod.mk.inj h
  exact Prod.ext (ok_of_mapError hr) hs

theorem run_of_fst {x : Attempt σ ε α} {s : σ} {r : Except ε α} (h : (x s).1 = r) :
    x s = (r, (x s).2) :=
  Prod.ext h rfl

end Attempt

end NameLookup
