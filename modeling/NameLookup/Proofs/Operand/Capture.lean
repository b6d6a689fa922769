import NameLookup.Proofs.Operand.Budget

/-!
# Chains on which names stand for the same

Resolution reads a chain only through what names stand for along it. So two chains serve equally well
for a type that looks up names of a set `N` only, if the names of `N` stand for the same along both
and what they stand for looks up names of `N` again (`SeenAlike`, `SeenAlike.interchange`).
-/

set_option autoImplicit false

namespace NameLookup

/-- All names that the type looks up in the chain it is written for are in `N`; the name of a member is
looked up elsewhere. -/
inductive TypeExpr.LooksUpOnly (N : Name → Prop) : TypeExpr → Prop
  | scalar (n : Name) : LooksUpOnly N (.scalar n)
  | named {n : Name} (h : N n) : LooksUpOnly N (.named n)
  | param (p : Name) : LooksUpOnly N (.param p)
  | scope (s : ScopeId) : LooksUpOnly N (.scope s)
  | apply (t : ScopeId) {args : List TypeExpr} (h : ∀ a ∈ args, LooksUpOnly N a) :
      LooksUpOnly N (.apply t args)
  | member {base : TypeExpr} (n : Name) (h : LooksUpOnly N base) : LooksUpOnly N (.member base n)

theorem TypeExpr.LooksUpOnly.substitute {N : Name → Prop} {σ : Substitution} {ty : TypeExpr}
    (hσ : ∀ p b, σ.get? p = some b → b.LooksUpOnly N) (h : ty.LooksUpOnly N) :
    (ty.substitute σ).LooksUpOnly N := by
  induction h with
  | scalar n => exact .scalar n
  | named h => exact .named h
  | param p =>
    rw [TypeExpr.substitute]
    cases hp : σ.get? p with
    | none => exact .param p
    | some b => exact hσ p b hp
  | scope s => exact .scope s
  | apply t _ ih =>
    rw [TypeExpr.substitute, TypeExpr.substituteAll_eq_map]
    refine .apply t fun a ha => ?_
    obtain ⟨a₀, ha₀, rfl⟩ := List.mem_map.1 ha
    exact ih a₀ ha₀
  | member n _ ih => exact .member n ih

namespace SymbolTable

/-- Along two chains of scopes that exist, the names of `N` stand for the same types, and these look
up names of `N` only. -/
structure SeenAlike (t : SymbolTable) (N : Name → Prop) (c c' : ScopeChain) : Prop where
  left_in : t.ChainIn c
  right_in : t.ChainIn c'
  same : ∀ n, N n → t.typeNamed? n c' = t.typeNamed? n c
  leads : ∀ n ty, N n → t.typeNamed? n c = some ty → ty.LooksUpOnly N

variable {t u : SymbolTable} {N : Name → Prop} {c c' : ScopeChain} {σ : Substitution}

theorem SeenAlike.grows (h : t.SeenAlike N c c') (ht : t.Sound) (hg : t.Grows u) :
    u.SeenAlike N c c' where
  left_in := h.left_in.mono hg.extends
  right_in := h.right_in.mono hg.extends
  same n hn := by
    rw [hg.extends.typeNamed? ht h.left_in, hg.extends.typeNamed? ht h.right_in, h.same n hn]
  leads n ty hn hty := by
    rw [hg.extends.typeNamed? ht h.left_in] at hty
    exact h.leads n ty hn hty

/-- Chains that are alike serve equally well for types that look up names of `N` only. -/
theorem SeenAlike.interchange (hσ : ∀ p b, σ.get? p = some b → b.LooksUpOnly N) :
    Interchange σ fun t ty c c' =>
      c = c' ∨ t.Sound ∧ t.SeenAlike N c c' ∧ ty.LooksUpOnly N where
  refl _ _ _ := .inl rfl
  named := by
    rintro t n c c' (rfl | ⟨-, halike, hty⟩)
    · rfl
    · cases hty with | named hn => exact halike.same n hn
  next := by
    rintro t n c c' ty (rfl | ⟨ht, halike, hty⟩) hnext
    · exact .inl rfl
    · cases hty with | named hn => exact .inr ⟨ht, halike, halike.leads n ty hn hnext⟩
  bound h hp := h.imp_right fun ⟨ht, halike, _⟩ => ⟨ht, halike, hσ _ _ hp⟩
  substitute h := h.imp_right fun ⟨ht, halike, hty⟩ => ⟨ht, halike, hty.substitute hσ⟩
  arg := by
    rintro t s args c c' (rfl | ⟨ht, halike, hty⟩) a ha
    · exact .inl rfl
    · cases hty with | apply _ hargs => exact .inr ⟨ht, halike, hargs a ha⟩
  base := by
    rintro t ty n c c' (rfl | ⟨ht, halike, hty⟩)
    · exact .inl rfl
    · cases hty with | member _ hbase => exact .inr ⟨ht, halike, hbase⟩
  grows h hg := h.imp_right fun ⟨ht, halike, hty⟩ => ⟨ht.grows hg, halike.grows ht hg, hty⟩

end SymbolTable

end NameLookup
