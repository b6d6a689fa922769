import Mathlib.Data.List.Nodup
import NameLookup.Proofs.SymbolTable.FaithfulCopy

/-!
# The body of a scope

The scopes that are copied along with a scope make up a tree: the children of a scope are the types
that it declares nested in it (`nestedTypes`, the relation `DeclaresNested` as a list).
`bodyWithin` lists the tree in the order in which it is copied, each scope before those nested in
it. A scope stands in one scope only, so the bodies of different children have nothing in common
(`Sound.bodies_disjoint`), and the list is free of repetitions if each nested type is declared once
(`bodyWithin_nodup`).
-/

set_option autoImplicit false

namespace NameLookup.SymbolTable

open Relation

/-- The scope that the declaration `d` of `o` declares as a type nested in `o`, if it is such a
declaration. -/
def nests? (t : SymbolTable) (o : ScopeId) (d : DeclId) : Option ScopeId :=
  match t.decl? d with
  | some ⟨_, .nestedType, _, some (.scope s), _⟩ =>
    if (t.scope? s).any (·.parent = some o) then some s else none
  | _ => none

/-- The scopes that are declared among `ds` as types nested in `o`. -/
def nestedAmong (t : SymbolTable) (o : ScopeId) (ds : List DeclId) : List ScopeId :=
  ds.filterMap (t.nests? o)

/-- The types that `o` declares nested in it, in order of declaration. -/
def nestedTypes (t : SymbolTable) (o : ScopeId) : List ScopeId :=
  t.nestedAmong o (t.membersOf (.scope o)).decls

/-- The body of `o` down to a depth of `n`, in the order in which it is copied. -/
def bodyWithin (t : SymbolTable) : Nat → ScopeId → List ScopeId
  | 0, _ => []
  | n + 1, o => o :: (t.nestedTypes o).flatMap (t.bodyWithin n)

/-- No scope of the body is declared twice as a nested type. -/
def DeclaredOnce (t : SymbolTable) (o : ScopeId) : Prop :=
  ∀ p, t.InBody o p → (t.nestedTypes p).Nodup

variable {t : SymbolTable} {o p s : ScopeId} {d : DeclId} {ds : List DeclId}

/-! ## Nested types -/

theorem standsIn_iff : (t.scope? s).any (·.parent = some o) = true ↔ t.StandsIn o s := by
  simp [Option.any_eq_true, StandsIn]

theorem nests?_iff {e : Declaration} (hd : t.decl? d = some e) :
    t.nests? o d = some s ↔ t.Nests o e s := by
  unfold nests?
  rw [hd]
  constructor
  · intro h
    split at h
    · next heq =>
      obtain rfl := Option.some.inj heq
      split at h
      · next hs =>
        cases h
        exact ⟨rfl, rfl, standsIn_iff.1 hs⟩
      · cases h
    · cases h
  · rintro ⟨hkind, htype, hs⟩
    obtain ⟨name, kind, owner, type, span⟩ := e
    cases hkind
    cases htype
    exact if_pos (standsIn_iff.2 hs)

theorem nests?_eq_some : t.nests? o d = some s ↔ ∃ e, t.decl? d = some e ∧ t.Nests o e s := by
  cases hd : t.decl? d with
  | none => simp [nests?, hd]
  | some e => simp [nests?_iff hd]

theorem nests?_eq_none {e : Declaration} (hd : t.decl? d = some e) (h : ∀ r, ¬ t.Nests o e r) :
    t.nests? o d = none :=
  Option.eq_none_iff_forall_ne_some.2 fun r hr => h r ((nests?_iff hd).1 hr)

theorem mem_nestedAmong : s ∈ t.nestedAmong o ds ↔ t.NestsAmong o ds s := by
  simp only [nestedAmong, List.mem_filterMap, nests?_eq_some, NestsAmong]

theorem mem_nestedTypes : s ∈ t.nestedTypes o ↔ t.DeclaresNested o s := mem_nestedAmong

theorem nestedAmong_append (ds ds' : List DeclId) :
    t.nestedAmong o (ds ++ ds') = t.nestedAmong o ds ++ t.nestedAmong o ds' :=
  List.filterMap_append

/-! ## Bodies -/

theorem hasScope_of_inBody (h : t.InBody o s) (ho : t.HasScope o) : t.HasScope s := by
  cases h with
  | refl => exact ho
  | tail _ hs =>
    obtain ⟨_, _, _, _, _, _, e, he, -⟩ := hs
    exact hasScope_of_scope? he

theorem DeclaresNested.standsIn (h : t.DeclaresNested o s) : t.StandsIn o s := by
  obtain ⟨_, _, _, _, _, _, hs⟩ := h
  exact hs

theorem StandsIn.unique (h : t.StandsIn o s) (h' : t.StandsIn p s) : o = p := by
  obtain ⟨e, he, hp⟩ := h
  obtain ⟨e', he', hp'⟩ := h'
  cases he.symm.trans he'
  exact Option.some.inj (hp.symm.trans hp')

theorem Sound.lt_of_standsIn (ht : t.Sound) (h : t.StandsIn o s) : o.index < s.index := by
  obtain ⟨e, he, hp⟩ := h
  exact ht.parent_lt he hp

theorem Sound.not_standsIn_self (ht : t.Sound) (o : ScopeId) : ¬ t.StandsIn o o := fun h =>
  Nat.lt_irrefl _ (ht.lt_of_standsIn h)

/-- The scopes of a body are not older than the scope that the body is of. -/
theorem Sound.le_of_inBody (ht : t.Sound) (h : t.InBody o s) : o.index ≤ s.index := by
  induction h with
  | refl => exact Nat.le_refl _
  | tail _ hs ih => exact Nat.le_trans ih (Nat.le_of_lt (ht.lt_of_standsIn hs.standsIn))

/-- Of two scopes in whose bodies a scope is, one is in the body of the other. -/
theorem inBody_total (h : t.InBody o s) (h' : t.InBody p s) : t.InBody o p ∨ t.InBody p o := by
  have hunique : Relator.RightUnique (Function.swap t.DeclaresNested) := fun _ _ _ hq hr =>
    hq.standsIn.unique hr.standsIn
  rcases ReflTransGen.total_of_right_unique hunique h.swap h'.swap with hp | ho
  · exact .inr hp.swap
  · exact .inl ho.swap

/-- A scope nested in `o` is in the body of no other scope nested in `o`. -/
theorem Sound.eq_of_inBody (ht : t.Sound) (ho : t.StandsIn o s) (hp : t.StandsIn o p)
    (h : t.InBody s p) : s = p := by
  cases h with
  | refl => rfl
  | tail h hq =>
    have hlt := ht.lt_of_standsIn ho
    have hle := ht.le_of_inBody h
    rw [hq.standsIn.unique hp] at hle
    omega

theorem Sound.bodies_disjoint (ht : t.Sound) {r : ScopeId} (ho : t.StandsIn o s)
    (hp : t.StandsIn o p) (hne : s ≠ p) (hs : t.InBody s r) : ¬ t.InBody p r := by
  intro hp'
  rcases inBody_total hs hp' with h | h
  · exact hne (ht.eq_of_inBody ho hp h)
  · exact hne (ht.eq_of_inBody hp ho h).symm

theorem inBody_of_mem_bodyWithin {n : Nat} (h : s ∈ t.bodyWithin n o) : t.InBody o s := by
  induction n generalizing o with
  | zero => exact absurd h List.not_mem_nil
  | succ n ih =>
    rw [bodyWithin, List.mem_cons, List.mem_flatMap] at h
    rcases h with rfl | ⟨r, hr, hs⟩
    · exact .refl
    · exact .head (mem_nestedTypes.1 hr) (ih hs)

theorem DeclaredOnce.nested (h : t.DeclaredOnce o) (hs : t.DeclaresNested o s) : t.DeclaredOnce s :=
  fun p hp => h p (.head hs hp)

/-- Where each nested type is declared once, the body holds each scope once. -/
theorem bodyWithin_nodup (ht : t.Sound) (h : t.DeclaredOnce o) (n : Nat) :
    (t.bodyWithin n o).Nodup := by
  induction n generalizing o with
  | zero => exact .nil
  | succ n ih =>
    have hchild : ∀ r ∈ t.nestedTypes o, t.StandsIn o r := fun r hr =>
      (mem_nestedTypes.1 hr).standsIn
    refine List.nodup_cons.2 ⟨fun ho => ?_, List.nodup_flatMap.2 ⟨fun r hr => ?_, ?_⟩⟩
    · obtain ⟨r, hr, ho⟩ := List.mem_flatMap.1 ho
      have hlt := ht.lt_of_standsIn (hchild r hr)
      have hle := ht.le_of_inBody (inBody_of_mem_bodyWithin ho)
      omega
    · exact ih (h.nested (mem_nestedTypes.1 hr))
    · refine (h o .refl).pairwise_of_forall_ne fun r hr r' hr' hne q hq hq' => ?_
      exact ht.bodies_disjoint (hchild r hr) (hchild r' hr') hne (inBody_of_mem_bodyWithin hq)
        (inBody_of_mem_bodyWithin hq')

/-! ## Copies of nested types -/

/-- The copy of a member that declares a nested type declares the copy of the type. -/
theorem DeclCopy.nested {t₀ u : SymbolTable} {σ : Substitution} {made : Copies} {c : ScopeId}
    {d' : DeclId} (ht : t₀.Sound) (h : DeclCopy t₀ u σ made o c d d') (hs : t₀.nests? o d = some s) :
    ∃ s', u.nests? c d' = some s' ∧ (s, s') ∈ made ∧ PlacedIn t₀ u c s s' := by
  obtain ⟨e, type, he, he', hcopy⟩ := h
  obtain ⟨hkind, htype, hstands⟩ := (nests?_iff he).1 hs
  rw [htype] at hcopy
  cases hcopy with
  | own => exact absurd hstands (ht.not_standsIn_self _)
  | nested _ _ hmade hplace =>
    obtain ⟨_, n', _, hn', hparent, _⟩ := id hplace
    exact ⟨_, (nests?_iff he').2 ⟨hkind, rfl, n', hn', hparent⟩, hmade, hplace⟩
  | other hno => exact absurd ⟨hkind, hstands⟩ (hno s rfl).2

end NameLookup.SymbolTable
