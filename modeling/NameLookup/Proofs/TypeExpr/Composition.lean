import Mathlib.Data.List.Basic
import NameLookup.Proofs.TypeExpr.Mentions

/-!
# One replacement after another

Replacing parameters twice is one replacement if it is one on each parameter
(`substitute_substitute`), since nothing but parameters is replaced. So arguments that mention no
parameter, and then arguments for other parameters, can as well be filled in at once
(`substitute_ofParams_append`).
-/

set_option autoImplicit false

namespace NameLookup

namespace Substitution

/-- Of what is added to a substitution, the bindings of a parameter come first. -/
theorem get?_insertAll (σ : Substitution) (bs : List (Name × TypeExpr)) (p : Name) :
    (σ.insertAll bs).get? p = ((ofList bs).get? p).or (σ.get? p) := by
  induction bs generalizing σ with
  | nil => rfl
  | cons b bs ih =>
    have hσ := ih (σ.insert b.1 b.2)
    have hb := ih (empty.insert b.1 b.2)
    rw [get?_insert] at hσ hb
    refine hσ.trans ((congrArg (·.or (σ.get? p)) hb).trans ?_).symm
    split
    · rw [Option.or_assoc, Option.some_or]
    · rw [get?_empty, Option.or_none]

/-- With the parameters of two lists bound to arguments, those of the second list come first. -/
theorem get?_ofParams_append {ps qs : List Name} {as bs : List TypeExpr}
    (hlen : ps.length = as.length) (p : Name) :
    (ofParams (ps ++ qs) (as ++ bs)).get? p =
      ((ofParams qs bs).get? p).or ((ofParams ps as).get? p) := by
  have happend : ofParams (ps ++ qs) (as ++ bs) = (ofParams ps as).insertAll (qs.zip bs) := by
    rw [ofParams, List.zip_append hlen, ofList, insertAll, List.foldl_append]
    rfl
  rw [happend, get?_insertAll]
  rfl

/-- What a parameter is bound to is the argument of a parameter of that name. -/
theorem mem_of_get?_ofParams {params : List Name} {args : List TypeExpr} {p : Name} {a : TypeExpr}
    (h : (ofParams params args).get? p = some a) : p ∈ params ∧ a ∈ args := by
  rcases mem_bindings_insertAll (mem_bindings_of_get? h) with h | h
  · exact absurd h List.not_mem_nil
  · exact List.of_mem_zip h

end Substitution

namespace TypeExpr

open Substitution

/-- What mentions no parameter stays as it is. -/
theorem substitute_of_not_isDependent {ty : TypeExpr} (h : ty.isDependent = false)
    (σ : Substitution) : ty.substitute σ = ty := by
  induction ty using induct with
  | param p => cases h
  | apply t args ih =>
    rw [isDependent, anyDependent_eq_any, List.any_eq_false] at h
    have hargs : args.map (substitute σ) = args.map id :=
      List.map_congr_left fun a ha => ih a ha (Bool.eq_false_iff.2 (h a ha))
    rw [substitute, substituteAll_eq_map, hargs, List.map_id]
  | member b n ih => rw [substitute, ih h]
  | scalar n | named n | scope s => rfl

/-- Two replacements are one if they are one on each parameter. -/
theorem substitute_substitute {σ τ ρ : Substitution}
    (h : ∀ p, ((param p).substitute σ).substitute τ = (param p).substitute ρ) (ty : TypeExpr) :
    (ty.substitute σ).substitute τ = ty.substitute ρ := by
  induction ty using induct with
  | param p => exact h p
  | apply t args ih =>
    simp only [substitute, substituteAll_eq_map, List.map_map]
    exact congrArg (apply t) (List.map_congr_left ih)
  | member b n ih => rw [substitute, substitute, substitute, ih]
  | scalar n | named n | scope s => rfl

/-- Arguments that mention no parameter, and after them arguments for other parameters, can be filled
in at once. -/
theorem substitute_ofParams_append {ps qs : List Name} {as : List TypeExpr}
    (hlen : ps.length = as.length) (hdisjoint : ps.Disjoint qs)
    (has : anyDependent as = false) (bs : List TypeExpr) (ty : TypeExpr) :
    (ty.substitute (ofParams ps as)).substitute (ofParams qs bs) =
      ty.substitute (ofParams (ps ++ qs) (as ++ bs)) := by
  refine substitute_substitute (fun p => ?_) ty
  simp only [substitute, get?_ofParams_append hlen]
  cases hp : (ofParams ps as).get? p with
  | none => rw [Option.or_none, Option.getD_none, substitute]
  | some a =>
    obtain ⟨hmem, ha⟩ := mem_of_get?_ofParams hp
    have hfree : a.isDependent = false := by
      rw [anyDependent_eq_any, List.any_eq_false] at has
      exact Bool.eq_false_iff.2 (has a ha)
    -- the second replacement neither sees the parameter nor finds one in its argument
    have hother : (ofParams qs bs).get? p = none := by
      refine Option.eq_none_iff_forall_ne_some.2 fun b hb => ?_
      exact hdisjoint hmem (mem_of_get?_ofParams hb).1
    rw [Option.getD_some, substitute_of_not_isDependent hfree, hother]
    rfl

/-- A type that becomes a scope was the scope, or a parameter that is bound to it. -/
theorem eq_of_substitute_eq_scope {σ : Substitution} {ty : TypeExpr} {r : ScopeId}
    (h : ty.substitute σ = .scope r) :
    ty = .scope r ∨ ∃ p, ty = .param p ∧ σ.get? p = some (.scope r) := by
  cases ty with
  | scope s => exact .inl h
  | param p =>
    rw [substitute] at h
    cases hp : σ.get? p with
    | none =>
      rw [hp] at h
      cases h
    | some a =>
      rw [hp] at h
      exact .inr ⟨p, rfl, hp.trans (congrArg some h)⟩
  | scalar n | named n | apply t args | member b n => cases h

end TypeExpr

end NameLookup
