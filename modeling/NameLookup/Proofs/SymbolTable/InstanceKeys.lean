import NameLookup.Proofs.SymbolTable.Replicas

/-!
# The key of an instance

Every instance records the key that it was built for, and no edit takes the record away
(`Edits.scope`). So in a table that came about from a fresh one (`Reachable.keyed`) a scope is the
instance of one key at most (`Keyed.key_unique`).
-/

set_option autoImplicit false

namespace NameLookup.SymbolTable

/-- What is entered as an instance of a key is a scope that records the key. -/
def Keyed (t : SymbolTable) : Prop :=
  ∀ key s, t.instance? key = some s → ∃ e, t.scope? s = some e ∧ e.instanceOf = some key

variable {t t' u : SymbolTable} {s : ScopeId} {key key' : InstanceKey}

namespace Keyed

theorem new (limit : Nat) : (SymbolTable.new limit).Keyed := fun _ _ h => by cases h

theorem edits (h : t.Keyed) (he : Edits t t') (hi : t'.instances = t.instances) : t'.Keyed := by
  intro key s hs
  rw [instance?, hi] at hs
  obtain ⟨e, he₀, hkey⟩ := h key s hs
  obtain ⟨members, reexports, he'⟩ := he.scope he₀
  exact ⟨_, he', hkey⟩

theorem build (h : t.Keyed) (ht : t.Sound) (hb : buildInstance key t = (.ok s, u)) : u.Keyed := by
  obtain ⟨hext, -, hi⟩ := buildInstance_ok hb
  intro key' s' hs'
  rw [instance?, hi, AssocList.lookup_cons] at hs'
  split at hs'
  · next heq =>
    cases hs'
    obtain ⟨e, params, made, hr⟩ := buildInstance_replicates ht hb
    obtain ⟨ms, rs, hs⟩ := hr.placed
    exact ⟨_, hs, congrArg some heq.symm⟩
  · obtain ⟨e, he, hkey⟩ := h key' s' hs'
    exact ⟨e, hext.scope_some he, hkey⟩

theorem grows (h : t.Keyed) (ht : t.Sound) (hg : t.Grows u) : u.Keyed := by
  induction hg with
  | refl => exact h
  | build hnew hb _ ih => exact ih (h.build ht hb) (ht.grows (.build hnew hb (.refl _)))

theorem change (h : t.Keyed) (ht : t.Sound) (hc : t.Change u) : u.Keyed := by
  rcases hc.instances with hi | ⟨key, rfl⟩
  · exact h.edits hc.edits hi
  · exact h.grows ht (instantiate_growing key t)

/-- A scope is the instance of one key at most. -/
theorem key_unique (h : t.Keyed) (hs : t.instance? key = some s) (hs' : t.instance? key' = some s) :
    key = key' := by
  obtain ⟨e, he, hkey⟩ := h key s hs
  obtain ⟨e', he', hkey'⟩ := h key' s hs'
  obtain rfl := Option.some.inj (he.symm.trans he')
  exact Option.some.inj (hkey.symm.trans hkey')

end Keyed

theorem Reachable.keyed (h : t.Reachable) : t.Keyed := by
  induction h with
  | new limit => exact .new limit
  | change h hc ih => exact ih.change h.sound hc

/-- What an instance was built of exists. -/
theorem Reachable.hasScope_template (h : t.Reachable) (hs : t.instance? key = some s) :
    t.HasScope key.template := by
  induction h with
  | new limit => cases hs
  | @change t t' h hc ih =>
    rcases hc.instances with hi | ⟨key', rfl⟩
    · rw [instance?, hi] at hs
      obtain ⟨e, he⟩ := (ih hs).entry
      obtain ⟨_, _, he'⟩ := hc.edits.scope he
      exact hasScope_of_scope? he'
    · rcases hr : instantiate key' t with ⟨r, t'⟩
      rw [hr] at hs
      rcases instantiate_step hr with rfl | ⟨s', -, -, hb⟩
      · exact ih hs
      · obtain ⟨hext, -, hi⟩ := buildInstance_ok hb
        rw [instance?, hi, AssocList.lookup_cons] at hs
        split at hs
        · next heq =>
          obtain ⟨e, params, made, hrep⟩ := buildInstance_replicates h.sound hb
          exact heq ▸ hext.hasScope (hasScope_of_scope? hrep.template)
        · exact hext.hasScope (ih hs)

end NameLookup.SymbolTable
