import Mathlib.Data.List.Nodup
import Mathlib.Data.List.Perm.Subperm
import NameLookup.Proofs.SymbolTable.Closed

/-!
# Scopes keep their spelling

On a closed table the qualified name of a scope and the source form of a type stay the same however
the table is extended (`Extends.qualifiedName`, `Extends.spellType`). The depth that is allowed for
them grows with the table, but a path of distinct scopes is never longer than the table
(`length_le_of_nodup`), so there is always enough. Nor does it matter which of the scopes that were
added later are being spelled already (`Extends.segments`).
-/

set_option autoImplicit false

namespace NameLookup.SymbolTable

/-- What a scope adds to the parts of its qualified name, given how scopes are spelled. -/
def ownParts (scopeName : ScopeId → String) (e : Scope) : List String :=
  match e.name, e.instanceOf with
  | none, _ => []
  | some name, none => [name]
  | some name, some key =>
    [name ++ TypeExpr.bracketed (TypeExpr.spellAll scopeName key.args)]

variable {t u : SymbolTable}

/-- One level of a qualified name. -/
theorem segments_succ {n : Nat} {path : List ScopeId} {s : ScopeId} {e : Scope} (hmem : s ∉ path)
    (he : t.scope? s = some e) :
    t.segments (n + 1) path s = e.parent.elim [] (t.segments n (s :: path)) ++
      ownParts (fun r => joinSegments (t.segments n (s :: path) r)) e := by
  rw [segments, if_neg hmem, he]
  simp only
  refine congrArg₂ (· ++ ·) ?_ ?_
  · cases e.parent <;> rfl
  · rfl

/-- Only the names of the scopes that the arguments mention matter. -/
theorem ownParts_congr {f g : ScopeId → String} {e : Scope}
    (h : ∀ key, e.instanceOf = some key → ∀ a ∈ key.args, ∀ s ∈ a.mentions, f s = g s) :
    ownParts f e = ownParts g e := by
  rw [ownParts, ownParts]
  cases e.name with
  | none => rfl
  | some name =>
    cases hkey : e.instanceOf with
    | none => rfl
    | some key =>
      have hargs : key.args.map (TypeExpr.spell f) = key.args.map (TypeExpr.spell g) :=
        List.map_congr_left fun a ha => TypeExpr.spell_congr (h key hkey a ha)
      simp only [TypeExpr.spellAll_eq_map, hargs]

/-- There are no more distinct scopes than the table has. -/
theorem length_le_of_nodup {path : List ScopeId} (hnodup : path.Nodup)
    (hin : ∀ s ∈ path, t.HasScope s) : path.length ≤ t.scopes.size := by
  have hindex : (path.map (·.index)).Nodup := by
    refine List.Nodup.map (fun a b hab => ?_) hnodup
    obtain ⟨i⟩ := a
    obtain ⟨j⟩ := b
    exact congrArg ScopeId.mk hab
  have hsub : path.map (·.index) ⊆ List.range t.scopes.size := by
    intro i hi
    obtain ⟨s, hs, rfl⟩ := List.mem_map.1 hi
    exact List.mem_range.2 (hin s hs)
  have hle := (hindex.subperm hsub).length_le
  simpa using hle

/-- The parts of a name are the same with more depth and on a later table, and if other scopes are
being spelled there that are not in the former one. -/
theorem Extends.segments (h : t.Extends u) (ht : t.Sound) (hc : t.Closed) {n m : Nat}
    {path path' : List ScopeId} {s : ScopeId} (hnm : n ≤ m) (hnodup : path.Nodup)
    (hin : ∀ r ∈ path, t.HasScope r) (hpath : ∀ r, t.HasScope r → (r ∈ path' ↔ r ∈ path))
    (hroom : t.scopes.size < n + path.length) (hs : t.HasScope s) :
    u.segments m path' s = t.segments n path s := by
  induction n generalizing m path path' s with
  | zero =>
    have hle := length_le_of_nodup hnodup hin
    omega
  | succ n ih =>
    obtain ⟨m, rfl⟩ : ∃ k, m = k + 1 := ⟨m - 1, by omega⟩
    obtain ⟨e, he⟩ := hs.entry
    by_cases hmem : s ∈ path
    · rw [SymbolTable.segments, SymbolTable.segments, if_pos hmem, if_pos ((hpath s hs).2 hmem)]
    · -- the path grows by `s`, which takes up the depth that is spent
      have hrec {r : ScopeId} (hr : t.HasScope r) :
          u.segments m (s :: path') r = t.segments n (s :: path) r := by
        refine ih (by omega) (List.nodup_cons.2 ⟨hmem, hnodup⟩)
          (List.forall_mem_cons.2 ⟨hs, hin⟩) (fun q hq => ?_) ?_ hr
        · rw [List.mem_cons, List.mem_cons, hpath q hq]
        · rw [List.length_cons]
          omega
      rw [segments_succ hmem he, segments_succ (mt (hpath s hs).1 hmem) (h.scope_some he)]
      refine congrArg₂ (· ++ ·) ?_ (ownParts_congr fun key hkey a ha r hr => ?_)
      · cases hp : e.parent with
        | none => rfl
        | some p => exact hrec (ht.hasScope_parent he hp)
      · exact congrArg joinSegments (hrec ((knows_apply.1 (hc.keys he hkey)).2 a ha r hr))

theorem Extends.qualifiedName (h : t.Extends u) (ht : t.Sound) (hc : t.Closed) {s : ScopeId}
    (hs : t.HasScope s) : u.qualifiedName s = t.qualifiedName s := by
  have hle : t.scopes.size + 1 ≤ u.scopes.size + 1 := Nat.succ_le_succ h.scopes_le
  unfold SymbolTable.qualifiedName
  rw [h.segments ht hc hle .nil (fun r hr => absurd hr List.not_mem_nil) (fun _ _ => .rfl) (by simp)
    hs]

theorem Extends.spellType (h : t.Extends u) (ht : t.Sound) (hc : t.Closed) {ty : TypeExpr}
    (hty : t.Knows ty) : u.spellType ty = t.spellType ty :=
  TypeExpr.spell_congr fun s hs => h.qualifiedName ht hc (hty s hs)

end NameLookup.SymbolTable
