import NameLookup.TypeExpr.Substitution

/-!
# The parameters that a type mentions

`TypeExpr.params` lists them. A replacement leaves those that it does not bind, and brings in those
of the types that it binds the others to (`mem_params_substitute`); a type is dependent if it
mentions any (`isDependent_eq_false_iff`).
-/

set_option autoImplicit false

namespace NameLookup

namespace TypeExpr

mutual

/-- The template parameters that occur in the type. -/
def params : TypeExpr → List Name
  | .param p => [p]
  | .apply _ args => paramsAll args
  | .member base _ => base.params
  | .scalar _ | .named _ | .scope _ => []

/-- The template parameters that occur in one of the arguments. -/
def paramsAll : List TypeExpr → List Name
  | [] => []
  | a :: as => a.params ++ paramsAll as

end

variable {p : Name} {t : ScopeId} {args : List TypeExpr} {ty : TypeExpr} {σ : Substitution}

theorem mem_paramsAll : p ∈ paramsAll args ↔ ∃ a ∈ args, p ∈ a.params := by
  induction args with
  | nil => simp [paramsAll]
  | cons a as ih => simp [paramsAll, ih]

theorem mem_params_apply : p ∈ (apply t args).params ↔ ∃ a ∈ args, p ∈ a.params := by
  rw [params, mem_paramsAll]

theorem mem_params_param {q : Name} : p ∈ (param q).params ↔ p = q := by
  rw [params, List.mem_singleton]

/-- After a replacement a type mentions the parameters that are left, and those of the types that
the others were replaced by. -/
theorem mem_params_substitute :
    p ∈ (ty.substitute σ).params ↔
      p ∈ ty.params ∧ σ.get? p = none ∨
        ∃ q ∈ ty.params, ∃ b, σ.get? q = some b ∧ p ∈ b.params := by
  induction ty using induct with
  | scalar n | named n | scope s => simp [substitute, params]
  | param q =>
    rw [substitute]
    cases hq : σ.get? q with
    | none =>
      simp only [Option.getD_none, mem_params_param, exists_eq_left, hq, reduceCtorEq, false_and,
        exists_false, or_false]
      exact ⟨fun h => ⟨h, h ▸ hq⟩, And.left⟩
    | some b =>
      simp only [Option.getD_some, mem_params_param, exists_eq_left, hq, Option.some.injEq,
        exists_eq_left']
      refine ⟨.inr, fun h => h.resolve_left ?_⟩
      rintro ⟨rfl, hp⟩
      cases hq.symm.trans hp
  | apply t args ih =>
    rw [substitute, substituteAll_eq_map, mem_params_apply]
    constructor
    · rintro ⟨_, hmem, hp⟩
      obtain ⟨a, ha, rfl⟩ := List.mem_map.1 hmem
      rcases (ih a ha).1 hp with ⟨hp, hfree⟩ | ⟨q, hq, hb⟩
      · exact .inl ⟨mem_params_apply.2 ⟨a, ha, hp⟩, hfree⟩
      · exact .inr ⟨q, mem_params_apply.2 ⟨a, ha, hq⟩, hb⟩
    · rintro (⟨hp, hfree⟩ | ⟨q, hq, hb⟩)
      · obtain ⟨a, ha, hp⟩ := mem_params_apply.1 hp
        exact ⟨_, List.mem_map_of_mem ha, (ih a ha).2 (.inl ⟨hp, hfree⟩)⟩
      · obtain ⟨a, ha, hq⟩ := mem_params_apply.1 hq
        exact ⟨_, List.mem_map_of_mem ha, (ih a ha).2 (.inr ⟨q, hq, hb⟩)⟩
  | member b n ih => exact ih

theorem isDependent_eq_false_iff : ty.isDependent = false ↔ ty.params = [] := by
  induction ty using induct with
  | scalar n | named n | scope s | param q => simp [isDependent, params]
  | apply t args ih =>
    rw [isDependent, anyDependent_eq_any, List.any_eq_false, List.eq_nil_iff_forall_not_mem]
    constructor
    · intro h p hp
      obtain ⟨a, ha, hpa⟩ := mem_params_apply.1 hp
      have hnone := (ih a ha).1 (Bool.eq_false_iff.2 (h a ha))
      exact absurd (hnone ▸ hpa) List.not_mem_nil
    · intro h a ha
      refine Bool.eq_false_iff.1 ((ih a ha).2 (List.eq_nil_iff_forall_not_mem.2 fun p hp => ?_))
      exact h p (mem_params_apply.2 ⟨a, ha, hp⟩)
  | member b n ih => exact ih

end TypeExpr

end NameLookup
