import NameLookup.TypeExpr.Substitution

/-!
# Unfolding parameters

`Unfolds σ x y`: the type `y` is `x` with some of the bound parameters replaced by what `σ` binds
them to, those of the inserted types included. Replacing parameters by a part of `σ` unfolds
(`Unfolds.substitute_right`), and a replacement by a part of `σ` unfolds to the replacement by all
of it (`Unfolds.substitute`).
-/

set_option autoImplicit false

namespace NameLookup

/-- Every binding of `σ` is one of `τ`. -/
def Substitution.Within (σ τ : Substitution) : Prop :=
  ∀ p ty, σ.get? p = some ty → τ.get? p = some ty

theorem Substitution.Within.refl (σ : Substitution) : σ.Within σ := fun _ _ h => h

namespace TypeExpr

inductive Unfolds (σ : Substitution) : TypeExpr → TypeExpr → Prop
  | scalar (n : Name) : Unfolds σ (.scalar n) (.scalar n)
  | named (n : Name) : Unfolds σ (.named n) (.named n)
  | param (p : Name) : Unfolds σ (.param p) (.param p)
  | bound {p : Name} {b y : TypeExpr} (hp : σ.get? p = some b) (h : Unfolds σ b y) :
      Unfolds σ (.param p) y
  | scope (s : ScopeId) : Unfolds σ (.scope s) (.scope s)
  | apply {s : ScopeId} {as bs : List TypeExpr} (hlen : as.length = bs.length)
      (h : ∀ (i : Nat) (a b : TypeExpr), as[i]? = some a → bs[i]? = some b → Unfolds σ a b) :
      Unfolds σ (.apply s as) (.apply s bs)
  | member {x y : TypeExpr} (n : Name) (h : Unfolds σ x y) :
      Unfolds σ (.member x n) (.member y n)

/-- The arguments unfold one by one. -/
def UnfoldsAll (σ : Substitution) (as bs : List TypeExpr) : Prop :=
  as.length = bs.length ∧
    ∀ (i : Nat) (a b : TypeExpr), as[i]? = some a → bs[i]? = some b → Unfolds σ a b

variable {σ τ : Substitution}

theorem UnfoldsAll.head_tail {a b : TypeExpr} {as bs : List TypeExpr}
    (h : UnfoldsAll σ (a :: as) (b :: bs)) : Unfolds σ a b ∧ UnfoldsAll σ as bs :=
  ⟨h.2 0 a b rfl rfl, Nat.succ.inj h.1, fun i x y hx hy => h.2 (i + 1) x y hx hy⟩

theorem UnfoldsAll.map {as bs : List TypeExpr} {f g : TypeExpr → TypeExpr}
    (h : as.length = bs.length)
    (hfg : ∀ (i : Nat) (a b : TypeExpr), as[i]? = some a → bs[i]? = some b →
      Unfolds σ (f a) (g b)) : UnfoldsAll σ (as.map f) (bs.map g) := by
  refine ⟨by rw [List.length_map, List.length_map, h], fun i x y hx hy => ?_⟩
  rw [List.getElem?_map, Option.map_eq_some_iff] at hx hy
  obtain ⟨a, ha, rfl⟩ := hx
  obtain ⟨b, hb, rfl⟩ := hy
  exact hfg i a b ha hb

namespace Unfolds

theorem refl (x : TypeExpr) : Unfolds σ x x := by
  induction x using TypeExpr.induct with
  | scalar n => exact .scalar n
  | named n => exact .named n
  | param p => exact .param p
  | scope s => exact .scope s
  | apply s args ih =>
    refine .apply rfl fun i a b ha hb => ?_
    rw [ha] at hb
    cases hb
    exact ih a (List.mem_of_getElem? ha)
  | member x n ih => exact .member n ih

theorem param_substitute (hle : σ.Within τ) (p : Name) :
    Unfolds τ (.param p) ((TypeExpr.param p).substitute σ) := by
  rw [TypeExpr.substitute]
  cases hp : σ.get? p with
  | none => exact .param p
  | some b => exact .bound (hle p b hp) (refl b)

theorem substitute_right (hle : σ.Within τ) {x y : TypeExpr} (h : Unfolds τ x y) :
    Unfolds τ x (y.substitute σ) := by
  induction h with
  | scalar n => exact .scalar n
  | named n => exact .named n
  | param p => exact param_substitute hle p
  | bound hp _ ih => exact .bound hp ih
  | scope s => exact .scope s
  | @apply s as bs hlen _ ih =>
    rw [TypeExpr.substitute, substituteAll_eq_map]
    have h := UnfoldsAll.map (f := id) hlen ih
    rw [List.map_id] at h
    exact .apply h.1 h.2
  | member n _ ih => exact .member n ih

/-- What a part of the bindings replaced, all of them replace as well. -/
theorem substitute (hle : σ.Within τ) {x y : TypeExpr} (h : Unfolds τ x y) :
    Unfolds τ (x.substitute σ) (y.substitute τ) := by
  induction h with
  | scalar n => exact .scalar n
  | named n => exact .named n
  | param p =>
    rw [TypeExpr.substitute]
    cases hp : σ.get? p with
    | none => exact param_substitute (.refl τ) p
    | some b =>
      rw [TypeExpr.substitute, hle p b hp]
      exact refl b
  | @bound p b y hp h _ =>
    have hy : Unfolds τ b (y.substitute τ) := h.substitute_right (.refl τ)
    rw [TypeExpr.substitute]
    cases hp' : σ.get? p with
    | none => exact .bound hp hy
    | some b' =>
      have hb := hle p b' hp'
      rw [hp] at hb
      cases hb
      exact hy
  | scope s => exact .scope s
  | @apply s as bs hlen _ ih =>
    rw [TypeExpr.substitute, TypeExpr.substitute, substituteAll_eq_map, substituteAll_eq_map]
    have h := UnfoldsAll.map hlen ih
    exact .apply h.1 h.2
  | member n _ ih => exact .member n ih

end Unfolds

theorem UnfoldsAll.substituteAll {as bs : List TypeExpr} (hle : σ.Within τ)
    (h : UnfoldsAll τ as bs) :
    UnfoldsAll τ (TypeExpr.substituteAll σ as) (TypeExpr.substituteAll τ bs) := by
  rw [substituteAll_eq_map, substituteAll_eq_map]
  exact .map h.1 fun i a b ha hb => (h.2 i a b ha hb).substitute hle

end TypeExpr

end NameLookup
