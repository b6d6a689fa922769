import NameLookup.SymbolTable.Spelling
import NameLookup.TypeExpr.Substitution

/-!
# The scopes that a type mentions

`TypeExpr.mentions` lists them. Replacing parameters brings in only what the bindings mention
(`forall_mentions_substitute`), and a type is spelled with the names of what it mentions alone
(`spell_congr`).
-/

set_option autoImplicit false

namespace NameLookup

namespace TypeExpr

mutual

/-- The scopes that occur in the type. -/
def mentions : TypeExpr → List ScopeId
  | .scope s => [s]
  | .apply t args => t :: mentionsAll args
  | .member base _ => base.mentions
  | .scalar _ | .named _ | .param _ => []

/-- The scopes that occur in one of the arguments. -/
def mentionsAll : List TypeExpr → List ScopeId
  | [] => []
  | a :: as => a.mentions ++ mentionsAll as

end

theorem mem_mentionsAll {s : ScopeId} {args : List TypeExpr} :
    s ∈ mentionsAll args ↔ ∃ a ∈ args, s ∈ a.mentions := by
  induction args with
  | nil => simp [mentionsAll]
  | cons a as ih => simp [mentionsAll, ih]

theorem mem_mentions_apply {s t : ScopeId} {args : List TypeExpr} :
    s ∈ (apply t args).mentions ↔ s = t ∨ ∃ a ∈ args, s ∈ a.mentions := by
  rw [mentions, List.mem_cons, mem_mentionsAll]

theorem forall_mentions_apply {P : ScopeId → Prop} {t : ScopeId} {args : List TypeExpr} :
    (∀ s ∈ (apply t args).mentions, P s) ↔ P t ∧ ∀ a ∈ args, ∀ s ∈ a.mentions, P s := by
  constructor
  · intro h
    exact ⟨h t (mem_mentions_apply.2 (.inl rfl)),
      fun a ha s hs => h s (mem_mentions_apply.2 (.inr ⟨a, ha, hs⟩))⟩
  · intro ⟨ht, hargs⟩ s hs
    rcases mem_mentions_apply.1 hs with rfl | ⟨a, ha, hs⟩
    · exact ht
    · exact hargs a ha s hs

theorem mem_mentions_substitute {σ : Substitution} {s : ScopeId} {ty : TypeExpr}
    (h : s ∈ (ty.substitute σ).mentions) :
    s ∈ ty.mentions ∨ ∃ p b, σ.get? p = some b ∧ s ∈ b.mentions := by
  induction ty using induct with
  | scalar n => exact .inl h
  | named n => exact .inl h
  | scope r => exact .inl h
  | param p =>
    rw [substitute] at h
    cases hp : σ.get? p with
    | none =>
      rw [hp] at h
      exact .inl h
    | some b =>
      rw [hp] at h
      exact .inr ⟨p, b, hp, h⟩
  | apply t args ih =>
    rw [substitute, substituteAll_eq_map, mem_mentions_apply] at h
    rcases h with h | ⟨a, ha, hs⟩
    · exact .inl (mem_mentions_apply.2 (.inl h))
    · obtain ⟨a₀, ha₀, rfl⟩ := List.mem_map.1 ha
      exact (ih a₀ ha₀ hs).imp_left fun hm => mem_mentions_apply.2 (.inr ⟨a₀, ha₀, hm⟩)
  | member base n ih => exact ih h

theorem forall_mentions_substitute {P : ScopeId → Prop} {σ : Substitution} {ty : TypeExpr}
    (h : ∀ s ∈ ty.mentions, P s) (hσ : ∀ p b, σ.get? p = some b → ∀ s ∈ b.mentions, P s) :
    ∀ s ∈ (ty.substitute σ).mentions, P s := by
  intro s hs
  rcases mem_mentions_substitute hs with hs | ⟨p, b, hp, hs⟩
  · exact h s hs
  · exact hσ p b hp s hs

theorem spellAll_eq_map (f : ScopeId → String) (args : List TypeExpr) :
    spellAll f args = args.map (spell f) := by
  induction args with
  | nil => rfl
  | cons a as ih => rw [spellAll, ih, List.map_cons]

/-- Only the names of the scopes that it mentions matter to how a type is spelled. -/
theorem spell_congr {f g : ScopeId → String} {ty : TypeExpr}
    (h : ∀ s ∈ ty.mentions, f s = g s) : ty.spell f = ty.spell g := by
  induction ty using induct with
  | scalar n => rfl
  | named n => rfl
  | param p => rfl
  | scope s => exact h s (List.mem_singleton_self s)
  | apply t args ih =>
    have hargs : args.map (spell f) = args.map (spell g) :=
      List.map_congr_left fun a ha => ih a ha fun s hs =>
        h s (mem_mentions_apply.2 (.inr ⟨a, ha, hs⟩))
    rw [spell, spell, spellAll_eq_map, spellAll_eq_map, hargs,
      h t (mem_mentions_apply.2 (.inl rfl))]
  | member base n ih => rw [spell, spell, ih h]

end TypeExpr

namespace Substitution

/-- A type that is bound now was bound before or is the new one. -/
theorem mem_bindings_insertAll {σ : Substitution} {bs : List (Name × TypeExpr)}
    {x : Name × TypeExpr} (h : x ∈ (σ.insertAll bs).bindings) : x ∈ σ.bindings ∨ x ∈ bs := by
  induction bs generalizing σ with
  | nil => exact .inl h
  | cons b bs ih =>
    rcases ih (σ := σ.insert b.1 b.2) h with h | h
    · rcases mem_insertBinding h with rfl | h
      · exact .inr List.mem_cons_self
      · exact .inl h
    · exact .inr (List.mem_cons_of_mem b h)

theorem mem_bindings_ofParams {params : List Name} {args : List TypeExpr} {x : Name × TypeExpr}
    (h : x ∈ (ofParams params args).bindings) : x.2 ∈ args := by
  rcases mem_bindings_insertAll h with h | h
  · exact absurd h List.not_mem_nil
  · exact (List.of_mem_zip h).2

theorem mem_bindings_of_get? {σ : Substitution} {p : Name} {ty : TypeExpr}
    (h : σ.get? p = some ty) : (p, ty) ∈ σ.bindings :=
  AssocList.mem_of_lookup h

end Substitution

end NameLookup
