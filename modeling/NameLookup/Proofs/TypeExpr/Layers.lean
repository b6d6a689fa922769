import Mathlib.Data.List.Nodup
import NameLookup.Proofs.TypeExpr.Composition
import NameLookup.Proofs.TypeExpr.Params

/-!
# Layers of bindings

A substitution is known by what it binds each parameter to (`Substitution.ext_get?`), however it was
put together: bindings are looked up as the last ones that were made (`Assembly.get?_result`). So
layers can be grouped at will (`Substitution.layered_assoc`).

Two replacements in a row are one, whose outer layer is the second, and whose inner layer is the
first with the second applied to what it binds (`substitute_twice`).
-/

set_option autoImplicit false

namespace NameLookup

namespace AssocList

variable {α β γ : Type} [BEq α] {es : List (α × β)} {k : α} {v : β}

theorem lookup_map (f : β → γ) (es : List (α × β)) (k : α) :
    (es.map fun e => (e.1, f e.2)).lookup k = (es.lookup k).map f := by
  induction es with
  | nil => rfl
  | cons e es ih =>
    rw [List.map_cons, List.lookup_cons, List.lookup_cons, ih]
    cases k == e.1 <;> rfl

variable [LawfulBEq α]

/-- Where no key occurs twice, each pair counts. -/
theorem lookup_eq_some_iff_mem (h : (es.map (·.1)).Nodup) : es.lookup k = some v ↔ (k, v) ∈ es := by
  refine ⟨mem_of_lookup, fun hmem => ?_⟩
  obtain ⟨before, after, rfl⟩ := List.append_of_mem hmem
  refine List.lookup_eq_some_iff.2 ⟨before, after, rfl, fun e he => bne_iff_ne.2 ?_⟩
  rw [List.map_append, List.map_cons, List.nodup_append] at h
  exact fun heq => h.2.2 e.1 (List.mem_map_of_mem he) k List.mem_cons_self heq.symm

theorem lookup_reverse (h : (es.map (·.1)).Nodup) (k : α) :
    es.reverse.lookup k = es.lookup k := by
  have hreverse : (es.reverse.map (·.1)).Nodup := by
    rw [List.map_reverse, List.nodup_reverse]
    exact h
  refine Option.ext fun v => ?_
  rw [lookup_eq_some_iff_mem hreverse, lookup_eq_some_iff_mem h, List.mem_reverse]

end AssocList

namespace Substitution

variable {ρ σ τ : Substitution} {p : Name} {ty : TypeExpr}

/-! ## What is bound -/

theorem nodup_keys (σ : Substitution) : (σ.bindings.map (·.1)).Nodup :=
  List.pairwise_map.2 (σ.sorted.imp String.ne_of_lt)

theorem mem_bindings_iff : (p, ty) ∈ σ.bindings ↔ σ.get? p = some ty :=
  (AssocList.lookup_eq_some_iff_mem σ.nodup_keys).symm

/-- What is bound says which substitution it is: there is one order to list it in. -/
theorem ext_get? (h : ∀ p, σ.get? p = τ.get? p) : σ = τ := by
  have hperm : σ.bindings.Perm τ.bindings := by
    refine (List.perm_ext_iff_of_nodup (σ.nodup_keys.of_map _) (τ.nodup_keys.of_map _)).2 ?_
    rintro ⟨p, ty⟩
    rw [mem_bindings_iff, mem_bindings_iff, h]
  have hbindings : σ.bindings = τ.bindings := by
    refine hperm.eq_of_pairwise (fun b c _ _ hbc hcb => ?_) σ.sorted τ.sorted
    exact absurd (String.lt_trans hbc hcb) (String.lt_irrefl _)
  obtain ⟨bs, hbs⟩ := σ
  obtain ⟨cs, hcs⟩ := τ
  cases hbindings
  rfl

/-- Of the bindings in a list, the last one of a parameter counts. -/
theorem get?_ofList (bs : List (Name × TypeExpr)) (p : Name) :
    (ofList bs).get? p = bs.reverse.lookup p := by
  induction bs with
  | nil => rfl
  | cons b bs ih =>
    rw [List.reverse_cons, List.lookup_append, ← ih, AssocList.lookup_cons]
    have hfirst : (empty.insert b.1 b.2).get? p = if p = b.1 then some b.2 else none :=
      get?_insert empty b.1 p b.2
    exact (get?_insertAll (empty.insert b.1 b.2) bs p).trans
      (congrArg (((ofList bs).get? p).or ·) hfirst)

/-! ## Layers -/

/-- In two layers, what the inner one binds counts. -/
theorem get?_layered (outer inner : Substitution) (p : Name) :
    (outer.layered inner).get? p = (inner.get? p).or (outer.get? p) := by
  rw [layered, get?_insertAll, get?_ofList, AssocList.lookup_reverse inner.nodup_keys]
  rfl

theorem layered_empty (σ : Substitution) : σ.layered .empty = σ := rfl

theorem empty_layered (σ : Substitution) : empty.layered σ = σ := by
  refine ext_get? fun p => ?_
  rw [get?_layered, get?_empty, Option.or_none]

theorem layered_assoc (ρ σ τ : Substitution) :
    (ρ.layered σ).layered τ = ρ.layered (σ.layered τ) := by
  refine ext_get? fun p => ?_
  simp only [get?_layered, Option.or_assoc]

/-- How a substitution is put together. -/
inductive Assembly where
  | empty
  | insert (before : Assembly) (param : Name) (ty : TypeExpr)
  | ofParams (params : List Name) (args : List TypeExpr)
  | layered (outer inner : Assembly)

namespace Assembly

/-- The substitution that comes out. -/
def result : Assembly → Substitution
  | empty => .empty
  | insert before param ty => before.result.insert param ty
  | ofParams params args => .ofParams params args
  | layered outer inner => outer.result.layered inner.result

/-- The bindings in the order in which they are made; those of an inner layer are made last. -/
def made : Assembly → List (Name × TypeExpr)
  | empty => []
  | insert before param ty => before.made ++ [(param, ty)]
  | ofParams params args => params.zip args
  | layered outer inner => outer.made ++ inner.made

/-- What a parameter is bound to last. -/
def latest? (x : Assembly) (p : Name) : Option TypeExpr := x.made.reverse.lookup p

theorem get?_result (x : Assembly) (p : Name) : x.result.get? p = x.latest? p := by
  induction x with
  | empty => rfl
  | insert before param ty ih =>
    rw [result, get?_insert, ih, latest?, latest?, made, List.reverse_append, List.reverse_singleton,
      List.singleton_append, AssocList.lookup_cons]
  | ofParams params args => exact get?_ofList (params.zip args) p
  | layered outer inner ihOuter ihInner =>
    rw [result, get?_layered, ihOuter, ihInner, latest?, latest?, latest?, made,
      List.reverse_append, List.lookup_append]

end Assembly

/-! ## Replacements in a row -/

/-- The parameters of `σ`, each bound to its type with `τ` applied. -/
def through (σ τ : Substitution) : Substitution :=
  ⟨σ.bindings.map fun b => (b.1, b.2.substitute τ), List.pairwise_map.2 σ.sorted⟩

theorem get?_through (σ τ : Substitution) (p : Name) :
    (σ.through τ).get? p = (σ.get? p).map (TypeExpr.substitute τ) :=
  AssocList.lookup_map (TypeExpr.substitute τ) σ.bindings p

end Substitution

namespace TypeExpr

theorem isDependent_iff {ty : TypeExpr} : ty.isDependent = true ↔ ∃ p, p ∈ ty.params := by
  rw [← Bool.not_eq_false, isDependent_eq_false_iff, List.eq_nil_iff_forall_not_mem]
  simp only [not_forall, not_not]

/-- Two replacements in a row are one: the second, with the first layered over it as it comes out of
the second. After a replacement a type is dependent if it mentions, at any depth, a parameter that is
not bound or that is bound to a dependent type, and not otherwise. -/
theorem substitute_twice (σ τ : Substitution) (ty : TypeExpr) :
    (ty.substitute σ).substitute τ = ty.substitute (τ.layered (σ.through τ)) ∧
      ((ty.substitute σ).isDependent = true ↔
        ∃ p ∈ ty.params, σ.get? p = none ∨ ∃ b, σ.get? p = some b ∧ b.isDependent = true) := by
  refine ⟨substitute_substitute (fun p => ?_) ty, ?_⟩
  · simp only [substitute, Substitution.get?_layered, Substitution.get?_through]
    cases σ.get? p with
    | none => rfl
    | some b => rfl
  · simp only [isDependent_iff, mem_params_substitute]
    constructor
    · rintro ⟨p, ⟨hp, hfree⟩ | ⟨q, hq, b, hb, hp⟩⟩
      · exact ⟨p, hp, .inl hfree⟩
      · exact ⟨q, hq, .inr ⟨b, hb, p, hp⟩⟩
    · rintro ⟨q, hq, hfree | ⟨b, hb, p, hp⟩⟩
      · exact ⟨q, .inl ⟨hq, hfree⟩⟩
      · exact ⟨p, .inr ⟨q, hq, b, hb, hp⟩⟩

end TypeExpr

end NameLookup
