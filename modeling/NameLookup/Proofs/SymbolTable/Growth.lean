import NameLookup.Proofs.SymbolTable.Copying

/-!
# Growth by instances

`t.Grows u`: the table `u` comes from `t` by building instances that were missing. This is all that
resolving an operand or working out exports does to a table (`Growing`). The instances of `u` tell
in which order they were built, and building one is a function of the table, so the tables between
two given ones form a line (`Grows.total`).

A computation is `Repeatable` on a table when nothing is lost by having built some of its instances
before: asked again later it gives the same answer and changes nothing, and started on a table that
it passes through it ends as it would have.
-/

set_option autoImplicit false

namespace NameLookup.SymbolTable

/-- `u` comes from `t` by building instances that were missing. -/
inductive Grows : SymbolTable → SymbolTable → Prop
  | refl (t : SymbolTable) : Grows t t
  | build {t t' u : SymbolTable} {key : InstanceKey} {s : ScopeId} (hnew : t.instance? key = none)
      (hbuild : buildInstance key t = (.ok s, t')) (h : Grows t' u) : Grows t u

/-- What is known of a table in which the instance of a key was built. -/
theorem buildInstance_ok {key : InstanceKey} {s : ScopeId} {t t' : SymbolTable}
    (h : buildInstance key t = (.ok s, t')) :
    t.Extends t' ∧ t'.HasScope s ∧ t'.instances = (key, s) :: t.instances := by
  obtain ⟨_, u, hc, hs, rfl⟩ := buildInstance_copying h
  have he := hc.extends
  exact ⟨⟨he.scopes_le, he.decls_le, he.scope, he.decl, he.blocks, he.limit⟩, hs, rfl⟩

variable {t u v w : SymbolTable}

theorem Grows.extends (h : t.Grows u) : t.Extends u := by
  induction h with
  | refl t => exact .refl t
  | build _ hbuild _ ih => exact (buildInstance_ok hbuild).1.trans ih

namespace Grows

theorem trans (h : t.Grows u) (h' : u.Grows v) : t.Grows v := by
  induction h with
  | refl => exact h'
  | build hnew hbuild _ ih => exact .build hnew hbuild (ih h')

theorem instances_suffix (h : t.Grows u) : ∃ built, u.instances = built ++ t.instances := by
  induction h with
  | refl => exact ⟨[], rfl⟩
  | @build t t' u key s _ hbuild _ ih =>
    obtain ⟨built, hb⟩ := ih
    refine ⟨built ++ [(key, s)], ?_⟩
    rw [hb, (buildInstance_ok hbuild).2.2, List.append_assoc, List.singleton_append]

theorem instance_some (h : t.Grows u) {key : InstanceKey} {s : ScopeId}
    (hk : t.instance? key = some s) : u.instance? key = some s := by
  induction h with
  | refl => exact hk
  | @build t t' u key' s' hnew hbuild _ ih =>
    refine ih ?_
    have hne : key ≠ key' := by
      rintro rfl
      rw [hnew] at hk
      cases hk
    rw [instance?, (buildInstance_ok hbuild).2.2, AssocList.lookup_cons, if_neg hne]
    exact hk

/-- The tables between two given ones form a line. -/
theorem total (htu : t.Grows u) (htv : t.Grows v) (huw : u.Grows w) (hvw : v.Grows w) :
    u.Grows v ∨ v.Grows u := by
  induction htu generalizing v with
  | refl => exact .inl htv
  | @build t t₁ u key s hnew hbuild h ih =>
    cases htv with
    | refl => exact .inr (.build hnew hbuild h)
    | @build _ t₂ _ key' s' hnew' hbuild' h' =>
      -- the instances of `w` tell which one was built first
      obtain ⟨built, hb⟩ := (h.trans huw).instances_suffix
      obtain ⟨built', hb'⟩ := (h'.trans hvw).instances_suffix
      rw [(buildInstance_ok hbuild).2.2] at hb
      rw [hb, (buildInstance_ok hbuild').2.2, List.append_cons, List.append_cons built'] at hb'
      have hlast := List.append_cancel_right hb'
      obtain ⟨-, hkey⟩ := List.append_inj' hlast rfl
      obtain rfl : key = key' := congrArg Prod.fst (List.cons.inj hkey).1
      obtain rfl : t₁ = t₂ := congrArg Prod.snd (hbuild.symm.trans hbuild')
      exact ih h' huw hvw

theorem antisymm (h : t.Grows u) (h' : u.Grows t) : t = u := by
  cases h with
  | refl => rfl
  | @build _ t₁ _ key s _ hbuild h =>
    exfalso
    obtain ⟨built, hb⟩ := (h.trans h').instances_suffix
    have hlen := congrArg List.length hb
    rw [(buildInstance_ok hbuild).2.2, List.length_append, List.length_cons] at hlen
    omega

end Grows

/-- There is nothing between a table and the next. -/
theorem Grows.eq_or_eq_of_build {t t' u : SymbolTable} {key : InstanceKey} {s : ScopeId}
    (hbuild : buildInstance key t = (.ok s, t')) (hu : t.Grows u) (hu' : u.Grows t') :
    u = t ∨ u = t' := by
  cases hu with
  | refl => exact .inl rfl
  | @build _ t₁ _ key' s' _ hbuild' h =>
    obtain ⟨built, hb⟩ := (h.trans hu').instances_suffix
    rw [(buildInstance_ok hbuild).2.2, (buildInstance_ok hbuild').2.2, List.append_cons] at hb
    have hone : [] ++ [(key, s)] = built ++ [(key', s')] := List.append_cancel_right hb
    obtain ⟨-, hkey⟩ := List.append_inj' hone rfl
    obtain rfl : key = key' := congrArg Prod.fst (List.cons.inj hkey).1
    obtain rfl : t' = t₁ := congrArg Prod.snd (hbuild.symm.trans hbuild')
    exact .inr (hu'.antisymm h)

/-! ## Computations that only build instances -/

open Attempt

variable {ε ε' α β : Type}

/-- All that the computation does to a table is to build instances. -/
def Growing (m : TableM ε α) : Prop := ∀ t : SymbolTable, t.Grows (m t).2

/-- The computation does nothing to a table. -/
def ReadOnly (m : TableM ε α) : Prop := ∀ t : SymbolTable, (m t).2 = t

theorem ReadOnly.growing {m : TableM ε α} (h : ReadOnly m) : Growing m := fun t => by
  rw [h t]
  exact .refl t

theorem Growing.pure (a : α) : Growing (pure a : TableM ε α) := fun t => .refl t

theorem Growing.bind {x : TableM ε α} {f : α → TableM ε β} (hx : Growing x)
    (hf : ∀ a, Growing (f a)) : Growing (x >>= f) := fun t => by
  have h := hx t
  rw [run_bind]
  rcases hr : x t with ⟨e | a, s⟩ <;> rw [hr] at h
  · exact h
  · exact h.trans (hf a s)

theorem Growing.adapt {x : TableM ε α} (hx : Growing x) (f : ε → ε') :
    Growing (ExceptT.adapt f x) := fun t => by
  rw [run_adapt]
  exact hx t

theorem Growing.of_run {m : TableM ε α} {t t' : SymbolTable} {r : Except ε α} (h : Growing m)
    (hr : m t = (r, t')) : t.Grows t' := by
  have := h t
  rwa [hr] at this

/-- Asking for an instance builds it, or leaves the table alone. -/
theorem instantiate_step {key : InstanceKey} {t t' : SymbolTable}
    {r : Except InstantiationFault ScopeId} (h : instantiate key t = (r, t')) :
    t' = t ∨ ∃ s, r = .ok s ∧ t.instance? key = none ∧ buildInstance key t = (.ok s, t') := by
  cases r with
  | error fault => exact .inl (instantiate_error h)
  | ok s =>
    rw [instantiate_run] at h
    cases hi : t.instance? key with
    | some s' =>
      rw [hi] at h
      exact .inl (Prod.mk.inj h).2.symm
    | none =>
      rw [hi] at h
      exact .inr ⟨s, rfl, rfl, h⟩

theorem instantiate_growing (key : InstanceKey) : Growing (instantiate key) := fun t => by
  rcases h : instantiate key t with ⟨r, t'⟩
  rcases instantiate_step h with rfl | ⟨s, -, hnew, hbuild⟩
  · exact .refl _
  · exact .build hnew hbuild (.refl t')

/-- An instance that was given is known from then on. -/
theorem instance?_of_instantiate {key : InstanceKey} {s : ScopeId} {t t' : SymbolTable}
    (h : instantiate key t = (.ok s, t')) : t'.instance? key = some s := by
  rw [instantiate_run] at h
  cases hi : t.instance? key with
  | some s' =>
    rw [hi] at h
    cases h
    exact hi
  | none =>
    rw [hi] at h
    rw [instance?, (buildInstance_ok h).2.2, AssocList.lookup_cons, if_pos rfl]

/-! ## Repeating a computation -/

/-- An answer of `m` on `t` can be had again later, and `m` may as well start on a table between `t`
and the one that it ends with. -/
structure Repeatable (m : TableM ε α) (t : SymbolTable) : Prop where
  again : ∀ {a t' u}, m t = (.ok a, t') → t'.Grows u → m u = (.ok a, u)
  midway : ∀ {r t' u}, m t = (r, t') → t.Grows u → u.Grows t' → m u = (r, t')

theorem Repeatable.pure (a : α) (t : SymbolTable) : Repeatable (pure a : TableM ε α) t where
  again h _ := by cases h; rfl
  midway h hu hu' := by
    cases h
    rw [hu'.antisymm hu]
    rfl

theorem Repeatable.throw (e : ε) (t : SymbolTable) : Repeatable (throw e : TableM ε α) t where
  again h _ := by cases h
  midway h hu hu' := by
    cases h
    rw [hu'.antisymm hu]
    rfl

/-- A computation that only reads is repeatable where its answer stays true. -/
theorem Repeatable.of_readOnly {m : TableM ε α} (h : ReadOnly m) {t : SymbolTable}
    (hstay : ∀ {a u}, (m t).1 = .ok a → t.Grows u → (m u).1 = .ok a) : Repeatable m t where
  again {a t' u} hr hu := by
    obtain rfl : t = t' := by rw [← h t, hr]
    have ha := hstay (by rw [hr]) hu
    exact Prod.ext ha (h u)
  midway {r t' u} hr hu hu' := by
    obtain rfl : t = t' := by rw [← h t, hr]
    rwa [← hu.antisymm hu']

theorem Repeatable.bind {x : TableM ε α} {f : α → TableM ε β} {t : SymbolTable}
    (gx : t.Grows (x t).2) (hx : Repeatable x t)
    (hf : ∀ {a s}, x t = (.ok a, s) → s.Grows (f a s).2 ∧ Repeatable (f a) s) :
    Repeatable (x >>= f) t where
  again {b t' u} hr hu := by
    rw [run_bind] at hr
    rcases h : x t with ⟨e | a, s⟩ <;> rw [h] at hr
    · cases hr
    · obtain ⟨gf, hrest⟩ := hf h
      simp only at hr
      rw [hr] at gf
      rw [run_bind, hx.again h (gf.trans hu)]
      exact hrest.again hr hu
  midway {r t' u} hr hu hu' := by
    rw [run_bind] at hr
    rcases h : x t with ⟨e | a, s⟩ <;> rw [h] at hr gx
    · cases hr
      rw [run_bind, hx.midway h hu hu']
    · obtain ⟨gf, hrest⟩ := hf h
      simp only at hr
      rw [hr] at gf
      rw [run_bind]
      -- either `x` is still under way on `u`, or it is done and the rest is under way
      rcases hu.total gx hu' gf with hus | hsu
      · rw [hx.midway h hu hus]
        exact hr
      · rw [hx.again h hsu]
        exact hrest.midway hr hsu hu'

theorem Repeatable.adapt {x : TableM ε α} {t : SymbolTable} (hx : Repeatable x t) (f : ε → ε') :
    Repeatable (ExceptT.adapt f x) t where
  again {a t' u} hr hu := by
    rw [run_adapt] at hr ⊢
    rcases h : x t with ⟨e | b, s⟩ <;> rw [h] at hr <;> cases hr
    rw [hx.again h hu]
    rfl
  midway {r t' u} hr hu hu' := by
    rw [run_adapt] at hr ⊢
    rcases h : x t with ⟨e | b, s⟩ <;> rw [h] at hr <;> cases hr <;>
      rw [hx.midway h hu hu']

theorem instantiate_repeatable (key : InstanceKey) (t : SymbolTable) :
    Repeatable (instantiate key) t where
  again {s t' u} h hu := by
    rw [instantiate_run, hu.instance_some (instance?_of_instantiate h)]
  midway {r t' u} h hu hu' := by
    rcases instantiate_step h with rfl | ⟨s, rfl, hnew, hbuild⟩
    · rwa [← hu.antisymm hu']
    · rcases hu.eq_or_eq_of_build hbuild hu' with rfl | rfl
      · exact h
      · rw [instantiate_run, instance?_of_instantiate h]

/-! ## Lasting answers -/

/-- Whatever `m` comes to on `t`, be it a fault, it comes to on every later table. -/
def Lasting (m : TableM ε α) (t : SymbolTable) : Prop :=
  ∀ u, (m t).2.Grows u → m u = ((m t).1, u)

theorem Lasting.pure (a : α) (t : SymbolTable) : Lasting (pure a : TableM ε α) t := fun _ _ => rfl

theorem Lasting.throw (e : ε) (t : SymbolTable) : Lasting (throw e : TableM ε α) t := fun _ _ => rfl

/-- A computation that only reads is lasting where what it reads is. -/
theorem Lasting.of_readOnly {m : TableM ε α} (h : ReadOnly m) {t : SymbolTable}
    (hstay : ∀ {u}, t.Grows u → (m u).1 = (m t).1) : Lasting m t := by
  intro u hu
  rw [h t] at hu
  exact Prod.ext (hstay hu) (h u)

theorem Lasting.bind {x : TableM ε α} {f : α → TableM ε β} {t : SymbolTable} (hx : Lasting x t)
    (hf : ∀ {a s}, x t = (.ok a, s) → s.Grows (f a s).2 ∧ Lasting (f a) s) :
    Lasting (x >>= f) t := by
  intro u hu
  rw [run_bind] at hu ⊢
  rw [run_bind]
  rcases h : x t with ⟨e | a, s⟩ <;> rw [h] at hu
  · rw [hx u (h ▸ hu), h]
  · obtain ⟨hg, hlast⟩ := hf h
    rw [hx u (h ▸ hg.trans hu), h]
    exact hlast u hu

theorem Lasting.adapt {x : TableM ε α} {t : SymbolTable} (hx : Lasting x t) (f : ε → ε') :
    Lasting (ExceptT.adapt f x) t := by
  intro u hu
  rw [run_adapt] at hu ⊢
  rw [run_adapt, hx u hu]

end NameLookup.SymbolTable
