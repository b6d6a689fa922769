import NameLookup.Proofs.ExportClosure
import NameLookup.Proofs.Operand.Lasting

/-!
# Scopes keep their exports

Where all re-exports exist, what a scope exports is settled as soon as the scope exists: a later
table gives the same (`Extends.exportsOf`). The search for re-exported scopes lists each scope once,
so the depth that it is allowed is enough on every table.
-/

set_option autoImplicit false

namespace NameLookup.SymbolTable

variable {t u : SymbolTable}

/-- Whatever is reached by re-exports exists where all re-exports do. -/
theorem ReexportsIn.hasScope_of_reexported (h : t.ReexportsIn) {s r : ScopeId}
    (hr : t.Reexported s r) (hs : t.HasScope s) : t.HasScope r := by
  induction hr with
  | refl => exact hs
  | tail _ hqr _ =>
    obtain ⟨e, he, hmem⟩ := hqr
    exact h _ e _ he hmem

/-- Distinct scopes of the table. -/
structure Visited (t : SymbolTable) (reached : List ScopeId) : Prop where
  nodup : reached.Nodup
  exist : ∀ s ∈ reached, t.HasScope s

namespace Visited

variable {reached : List ScopeId} {s : ScopeId}

theorem empty (t : SymbolTable) : t.Visited [] := ⟨.nil, fun _ hs => absurd hs List.not_mem_nil⟩

theorem append (h : t.Visited reached) (hs : t.HasScope s) (hnew : s ∉ reached) :
    t.Visited (reached ++ [s]) where
  nodup := List.concat_eq_append ▸ h.nodup.concat hnew
  exist r hr := by
    rcases List.mem_append.1 hr with hr | hr
    · exact h.exist r hr
    · rw [List.mem_singleton.1 hr]
      exact hs

/-- All that was reached counts as known. -/
theorem known_eq (h : t.Visited reached) : t.known reached = reached.length :=
  List.countP_eq_length.2 fun s hs => decide_eq_true (h.exist s hs)

/-- The search only adds to what was reached. -/
theorem reachFrom (h : t.Visited reached) (ht : t.ReexportsIn) {n : Nat} (hs : t.HasScope s)
    (hroom : t.scopes.size < n + reached.length) :
    t.Visited (t.reachFrom n reached s) ∧ reached.length ≤ (t.reachFrom n reached s).length := by
  have hsearch : t.Searched reached [s] (t.reachFrom n reached s) :=
    .reachFrom h.nodup (h.known_eq.symm ▸ hroom)
  refine ⟨⟨hsearch.nodup, fun r hr => ?_⟩, hsearch.keeps.length_le⟩
  rcases hsearch.sound r hr with hr | ⟨q, hq, hqr⟩
  · exact h.exist r hr
  · exact ht.hasScope_of_reexported (List.mem_singleton.1 hq ▸ hqr) hs

end Visited

namespace Extends

variable (h : t.Extends u)
include h

/-- The search gives the same with more depth and on a later table. -/
theorem reachFrom (hr : t.ReexportsIn) {n m : Nat} {reached : List ScopeId} {s : ScopeId}
    (hnm : n ≤ m) (hv : t.Visited reached) (hroom : t.scopes.size < n + reached.length)
    (hs : t.HasScope s) : u.reachFrom m reached s = t.reachFrom n reached s := by
  induction n generalizing m reached s with
  | zero =>
    have hle := length_le_of_nodup hv.nodup hv.exist
    omega
  | succ n ih =>
    obtain ⟨m, rfl⟩ : ∃ k, m = k + 1 := ⟨m - 1, by omega⟩
    obtain ⟨e, he⟩ := hs.entry
    unfold SymbolTable.reachFrom
    by_cases hmem : s ∈ reached
    · rw [if_pos hmem, if_pos hmem]
    · rw [if_neg hmem, if_neg hmem, h.scope_some he, he]
      -- each search in turn starts with at least as much reached as the first one
      have hfold : ∀ (rs : List ScopeId) {reached : List ScopeId}, (∀ r ∈ rs, t.HasScope r) →
          t.Visited reached → t.scopes.size < n + reached.length →
          rs.foldl (u.reachFrom m) reached = rs.foldl (t.reachFrom n) reached := by
        intro rs
        induction rs with
        | nil => exact fun _ _ _ => rfl
        | cons r rs ihrs =>
          intro reached hrs hv hroom
          have hhead := hrs r List.mem_cons_self
          obtain ⟨hv', hle⟩ := hv.reachFrom hr hhead hroom
          rw [List.foldl_cons, List.foldl_cons, ih (by omega) hv hroom hhead]
          exact ihrs (fun q hq => hrs q (List.mem_cons_of_mem r hq)) hv' (by omega)
      refine hfold e.reexports (fun r hq => hr s e r he hq) (hv.append hs hmem) ?_
      rw [List.length_append, List.length_singleton]
      omega

theorem reexportClosure (hr : t.ReexportsIn) {s : ScopeId} (hs : t.HasScope s) :
    u.reexportClosure s = t.reexportClosure s := by
  have hle : t.scopes.size + 1 ≤ u.scopes.size + 1 := Nat.succ_le_succ h.scopes_le
  exact h.reachFrom hr hle (.empty t) (by simp) hs

theorem exportFrom (ht : t.Sound) (m : Members) {s : ScopeId} (hs : t.HasScope s) :
    u.exportFrom m s = t.exportFrom m s := by
  obtain ⟨e, he⟩ := hs.entry
  unfold SymbolTable.exportFrom
  rw [h.scope_some he, he]
  exact List.foldl_ext _ _ m fun m d hd => by
    rw [h.decl (ht.listed (members?_of_scope? he) (.inl hd))]

theorem exportsOf (ht : t.Sound) (hr : t.ReexportsIn) {s : ScopeId} (hs : t.HasScope s)
    (kind : ScopeKind) : u.exportsOf s kind = t.exportsOf s kind := by
  have hexist : ∀ r ∈ t.reexportClosure s, t.HasScope r := fun r hmem =>
    hr.hasScope_of_reexported (mem_reexportClosure.1 hmem) hs
  unfold SymbolTable.exportsOf
  rw [h.reexportClosure hr hs]
  rw [List.foldl_ext _ _ _ fun m r hmem => h.exportFrom ht m (hexist r hmem)]

end Extends

/-! ## Exports of targets -/

/-- Exports once worked out are worked out again. -/
theorem targetExports_again (ht : t.Sound) (hr : t.ReexportsIn) {target : Target} {e : Exports}
    {t' : SymbolTable} (h : targetExports target t = (.ok e, t')) (hu : t'.Grows u) :
    targetExports target u = (.ok e, u) := by
  have hg := (targetExports_growing target).of_run h
  obtain ⟨entry, hscope, hentry, htemplate, he⟩ := targetExports_ok h
  have hagain := (concreteScope_repeatable target t).again hscope hu
  have hsame := hu.extends.exportsOf (ht.grows hg) (hr.grows hg) (hasScope_of_scope? hentry)
    entry.kind
  rw [targetExports_run, hagain]
  simp [readExports_run, hu.extends.scope_some hentry, htemplate, hsame, ← he]

section
variable (ht : t.Sound) (hc : t.Closed)
include ht hc

theorem readExports_lasting {s : ScopeId} (hs : t.HasScope s) : Lasting (readExports s) t := by
  refine .of_readOnly (readExports_readOnly s) fun hu => ?_
  obtain ⟨e, he⟩ := hs.entry
  rw [readExports_run, readExports_run, hu.extends.scope_some he, he]
  simp only [hu.extends.qualifiedName ht hc hs, hu.extends.exportsOf ht hc.reexports hs e.kind]
  split <;> rfl

/-- In a closed table it is settled what a known target exports, or why it does not. -/
theorem targetExports_lasting {target : Target} (hk : t.Knows (.apply target.scope target.args)) :
    Lasting (targetExports target) t := by
  refine ((concreteScope_lasting ht hc hk).adapt _).bind fun {s u} hr => ?_
  have hg := ((concreteScope_growing target).adapt ImportFault.instantiation).of_run hr
  have hscope := Attempt.run_of_adapt hr
  have hclosed := concreteScope_closed hc hk
  rw [hscope] at hclosed
  exact ⟨(readExports_readOnly s).growing u,
    readExports_lasting (ht.grows hg) hclosed (hasScope_of_concreteScope ht hk hscope)⟩

omit ht in
theorem targetExports_closed {target : Target} (hk : t.Knows (.apply target.scope target.args)) :
    (targetExports target t).2.Closed := by
  have hclosed := concreteScope_closed hc hk
  rw [targetExports_run]
  rcases hs : concreteScope target t with ⟨fault | s, u⟩ <;> rw [hs] at hclosed
  · exact hclosed
  · simp only
    rw [readExports_readOnly s u]
    exact hclosed

end

end NameLookup.SymbolTable
