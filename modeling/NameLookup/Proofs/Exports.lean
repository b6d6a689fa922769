import NameLookup.Analysis.Runs
import NameLookup.Proofs.Operand.Repetition

/-!
# Working out exports

`targetExports` only builds the instance that its target needs (`targetExports_growing`); what it
gives is read off the table that it ends with (`targetExports_ok`). Exports that come from the cache
were worked out before (`fetch_ok`).
-/

set_option autoImplicit false

namespace NameLookup

namespace SymbolTable

open Attempt

/-- What `targetExports` does once it has the scope. -/
def readExports (s : ScopeId) : TableM ImportFault Exports := do
  let t ← get
  let some e := t.scope? s | throw (.instantiation (.unknownScope s))
  if e.isTemplate then throw (.genericBody (t.qualifiedName s))
  return t.exportsOf s e.kind

theorem readExports_run (s : ScopeId) (t : SymbolTable) :
    readExports s t =
      match t.scope? s with
      | none => (.error (.instantiation (.unknownScope s)), t)
      | some e =>
        if e.isTemplate then (.error (.genericBody (t.qualifiedName s)), t)
        else (.ok (t.exportsOf s e.kind), t) := by
  simp only [readExports, run_bind, run_get]
  cases t.scope? s with
  | none => rfl
  | some e => cases h : e.isTemplate <;> simp [h]

theorem readExports_readOnly (s : ScopeId) : ReadOnly (readExports s) := by
  intro t
  rw [readExports_run]
  split
  · rfl
  · split <;> rfl

theorem targetExports_growing (target : Target) : Growing (targetExports target) :=
  ((concreteScope_growing target).adapt _).bind fun s => (readExports_readOnly s).growing

theorem targetExports_run (target : Target) (t : SymbolTable) :
    targetExports target t =
      match concreteScope target t with
      | (.error fault, t) => (.error (.instantiation fault), t)
      | (.ok s, t) => readExports s t := by
  show (ExceptT.adapt _ (concreteScope target) >>= readExports) t = _
  rw [run_bind, run_adapt]
  rcases concreteScope target t with ⟨_ | _, _⟩ <;> rfl

theorem readExports_ok {s : ScopeId} {e : Exports} {t t' : SymbolTable}
    (h : readExports s t = (.ok e, t')) :
    t' = t ∧ ∃ entry, t.scope? s = some entry ∧ entry.isTemplate = false ∧
      e = t.exportsOf s entry.kind := by
  rw [readExports_run] at h
  cases hs : t.scope? s with
  | none =>
    rw [hs] at h
    cases h
  | some entry =>
    cases ht : entry.isTemplate with
    | true =>
      simp only [hs, ht] at h
      cases h
    | false =>
      simp only [hs, ht, Bool.false_eq_true, if_false] at h
      cases h
      exact ⟨rfl, entry, rfl, ht, rfl⟩

/-- Exports are read off the table on which they were worked out. -/
theorem targetExports_ok {target : Target} {e : Exports} {t t' : SymbolTable}
    (h : targetExports target t = (.ok e, t')) :
    ∃ entry, concreteScope target t = (.ok e.scope, t') ∧ t'.scope? e.scope = some entry ∧
      entry.isTemplate = false ∧ e = t'.exportsOf e.scope entry.kind := by
  rw [targetExports_run] at h
  rcases hc : concreteScope target t with ⟨fault | s, u⟩ <;> rw [hc] at h
  · cases h
  · obtain ⟨rfl, entry, hs, ht, rfl⟩ := readExports_ok h
    exact ⟨entry, rfl, hs, ht, rfl⟩

/-! ## Induction over exports -/

/-- Exports come about by adding importable members of scopes one at a time: what holds without any,
and is kept when one is added, holds of them. -/
theorem exportsOf_induction {t : SymbolTable} {P : Members → Prop} (hempty : P .empty)
    (hpush : ∀ {m : Members} {r : ScopeId} {e : Scope} {d : DeclId} {decl : Declaration}, P m →
      t.scope? r = some e → d ∈ e.members.decls → t.decl? d = some decl →
      isImportable e.kind decl = true → P (m.push decl.name d)) (s : ScopeId) (kind : ScopeKind) :
    P (t.exportsOf s kind).members := by
  refine List.foldlRecOn _ _ hempty fun m hm r _ => ?_
  unfold exportFrom
  cases hr : t.scope? r with
  | none => exact hm
  | some e =>
    refine List.foldlRecOn _ _ hm fun m hm d hd => ?_
    cases hdecl : t.decl? d with
    | none => exact hm
    | some decl =>
      by_cases hi : isImportable e.kind decl = true
      · simp only [hi, if_true]
        exact hpush hm hr hd hdecl hi
      · simp only [hi]
        exact hm

/-! ## The names of exports -/

/-- What the members hold under a name is declared under it. -/
def NamesIn (t : SymbolTable) (m : Members) : Prop :=
  ∀ name d, d ∈ m.named name → ∃ decl, t.decl? d = some decl ∧ decl.name = name

section
variable {t u : SymbolTable} {m : Members}

theorem NamesIn.push (h : t.NamesIn m) {d : DeclId} {decl : Declaration}
    (hd : t.decl? d = some decl) : t.NamesIn (m.push decl.name d) := by
  intro name d' hd'
  rw [Members.named_push] at hd'
  split at hd'
  · next hname =>
    rcases List.mem_append.1 hd' with hd' | hd'
    · exact h name d' hd'
    · rw [List.mem_singleton.1 hd']
      exact ⟨decl, hd, hname.symm⟩
  · exact h name d' hd'

theorem namesIn_exportsOf (t : SymbolTable) (s : ScopeId) (kind : ScopeKind) :
    t.NamesIn (t.exportsOf s kind).members :=
  exportsOf_induction (fun _ _ hd => absurd hd List.not_mem_nil) (fun hm _ _ hd _ => hm.push hd) s
    kind

theorem NamesIn.mono (h : t.NamesIn m) (hu : ∀ {d decl}, t.decl? d = some decl →
    ∃ decl', u.decl? d = some decl' ∧ decl'.name = decl.name) : u.NamesIn m := by
  intro name d hd
  obtain ⟨decl, hdecl, rfl⟩ := h name d hd
  exact hu hdecl

end

end SymbolTable

namespace ExportCache

open SymbolTable

theorem fetch_growing (c : ExportCache) (target : Target) : Growing (c.fetch target) := by
  intro t
  have hg := targetExports_growing target t
  rw [fetch_run]
  cases c.entries.lookup target with
  | some exports => exact .refl t
  | none =>
    rcases h : targetExports target t with ⟨fault | exports, t'⟩ <;> rw [h] at hg <;> exact hg

/-- What the cache gives out it has, and what it did not have before was worked out now. It forgets
nothing. -/
theorem fetch_ok {c c' : ExportCache} {target : Target} {e : Exports} {t t' : SymbolTable}
    (h : c.fetch target t = (.ok (e, c'), t')) :
    c'.entries.lookup target = some e ∧
    (∀ target' e', c'.entries.lookup target' = some e' →
      c.entries.lookup target' = some e' ∨ targetExports target' t = (.ok e', t')) ∧
    ∀ target' e', c.entries.lookup target' = some e' → c'.entries.lookup target' = some e' := by
  rw [fetch_run] at h
  cases hc : c.entries.lookup target with
  | some known =>
    rw [hc] at h
    cases h
    exact ⟨hc, fun _ _ h => .inl h, fun _ _ h => h⟩
  | none =>
    rw [hc] at h
    simp only at h
    rcases hx : targetExports target t with ⟨fault | exports, u⟩ <;> rw [hx] at h <;> cases h
    refine ⟨?_, fun target' e' h' => ?_, fun target' e' h' => ?_⟩
    · rw [AssocList.lookup_cons, if_pos rfl]
    · rw [AssocList.lookup_cons] at h'
      split at h'
      · next heq =>
        cases h'
        subst heq
        exact .inr hx
      · exact .inl h'
    · have hne : target' ≠ target := by
        rintro rfl
        rw [hc] at h'
        cases h'
      rw [AssocList.lookup_cons, if_neg hne]
      exact h'

end ExportCache

end NameLookup
