import NameLookup.Symbol

/-!
# Type expressions

A type is written as a scalar, a name still to be looked up, a template parameter, a scope, a class
template applied to arguments, or a member of another type. Arguments nest without bound, so every
function on types comes with its counterpart on argument lists; `TypeExpr.induct` is the induction
principle that hides the pair.
-/

set_option autoImplicit false

namespace NameLookup

inductive TypeExpr where
  /-- A type without members, such as `int`. -/
  | scalar (name : Name)
  /-- A name that is looked up where the type is used. -/
  | named (name : Name)
  /-- A template parameter. -/
  | param (name : Name)
  /-- A scope. -/
  | scope (s : ScopeId)
  /-- A class template applied to arguments. -/
  | apply (template : ScopeId) (args : List TypeExpr)
  /-- A member type, `base::name`. -/
  | member (base : TypeExpr) (name : Name)

namespace TypeExpr

/-- Induction over types in which the arguments of an application are reached by membership. -/
@[elab_as_elim]
theorem induct {motive : TypeExpr → Prop} (scalar : ∀ n, motive (.scalar n))
    (named : ∀ n, motive (.named n)) (param : ∀ n, motive (.param n))
    (scope : ∀ s, motive (.scope s))
    (apply : ∀ t args, (∀ a ∈ args, motive a) → motive (.apply t args))
    (member : ∀ b n, motive b → motive (.member b n)) (ty : TypeExpr) : motive ty :=
  @TypeExpr.rec motive (fun args => ∀ a ∈ args, motive a) scalar named param scope apply member
    (fun _ h => absurd h List.not_mem_nil)
    (fun _ _ hd tl _ h => (List.mem_cons.1 h).elim (fun e => e ▸ hd) (tl _)) ty

mutual

/-- Equality of types is decided constructor by constructor. -/
def decEq : (a b : TypeExpr) → Decidable (a = b)
  | .scalar m, .scalar n => decidable_of_iff (m = n) (by simp)
  | .named m, .named n => decidable_of_iff (m = n) (by simp)
  | .param m, .param n => decidable_of_iff (m = n) (by simp)
  | .scope s, .scope t => decidable_of_iff (s = t) (by simp)
  | .apply s as, .apply t bs =>
    have := decEqList as bs
    decidable_of_iff (s = t ∧ as = bs) (by simp)
  | .member a m, .member b n =>
    have := decEq a b
    decidable_of_iff (a = b ∧ m = n) (by simp)
  | .scalar _, .named _ | .scalar _, .param _ | .scalar _, .scope _ | .scalar _, .apply _ _
  | .scalar _, .member _ _ | .named _, .scalar _ | .named _, .param _ | .named _, .scope _
  | .named _, .apply _ _ | .named _, .member _ _ | .param _, .scalar _ | .param _, .named _
  | .param _, .scope _ | .param _, .apply _ _ | .param _, .member _ _ | .scope _, .scalar _
  | .scope _, .named _ | .scope _, .param _ | .scope _, .apply _ _ | .scope _, .member _ _
  | .apply _ _, .scalar _ | .apply _ _, .named _ | .apply _ _, .param _ | .apply _ _, .scope _
  | .apply _ _, .member _ _ | .member _ _, .scalar _ | .member _ _, .named _
  | .member _ _, .param _ | .member _ _, .scope _ | .member _ _, .apply _ _ =>
    isFalse (by simp)

/-- Equality of argument lists. -/
def decEqList : (as bs : List TypeExpr) → Decidable (as = bs)
  | [], [] => isTrue rfl
  | [], _ :: _ => isFalse (by simp)
  | _ :: _, [] => isFalse (by simp)
  | a :: as, b :: bs =>
    have := decEq a b
    have := decEqList as bs
    decidable_of_iff (a = b ∧ as = bs) (by simp)

end

instance : DecidableEq TypeExpr := decEq

mutual

/-- The type mentions a template parameter. -/
def isDependent : TypeExpr → Bool
  | .param _ => true
  | .apply _ args => anyDependent args
  | .member base _ => base.isDependent
  | .scalar _ | .named _ | .scope _ => false

/-- One of the arguments mentions a template parameter. -/
def anyDependent : List TypeExpr → Bool
  | [] => false
  | a :: as => a.isDependent || anyDependent as

end

theorem anyDependent_eq_any (args : List TypeExpr) : anyDependent args = args.any isDependent := by
  induction args with
  | nil => rfl
  | cons a as ih => simp [anyDependent, ih]

end TypeExpr

end NameLookup
