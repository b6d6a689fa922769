import NameLookup.AssocList
import NameLookup.TypeExpr.Basic

/-!
# Substitutions

A `Substitution` binds template parameters to types. Its bindings are sorted by name and hold each
name once, so substitutions that bind the same names to the same types are equal and can serve as
keys. `Substitution.get?` is the view that the operations are described by.
-/

set_option autoImplicit false

namespace NameLookup

/-- `bindings` with `param` bound to `ty`, in its place in the order. -/
def insertBinding (param : Name) (ty : TypeExpr) :
    List (Name × TypeExpr) → List (Name × TypeExpr)
  | [] => [(param, ty)]
  | b :: bs =>
    if param = b.1 then (param, ty) :: bs
    else if param < b.1 then (param, ty) :: b :: bs
    else b :: insertBinding param ty bs

theorem mem_insertBinding {param : Name} {ty : TypeExpr} {bs : List (Name × TypeExpr)}
    {x : Name × TypeExpr} (h : x ∈ insertBinding param ty bs) : x = (param, ty) ∨ x ∈ bs := by
  induction bs with
  | nil => simpa [insertBinding] using h
  | cons b bs ih => grind [insertBinding]

theorem insertBinding_sorted {param : Name} {ty : TypeExpr} {bs : List (Name × TypeExpr)}
    (h : bs.Pairwise (·.1 < ·.1)) : (insertBinding param ty bs).Pairwise (·.1 < ·.1) := by
  induction bs with
  | nil => simp [insertBinding]
  | cons b bs ih =>
    obtain ⟨hb, hbs⟩ := List.pairwise_cons.1 h
    simp only [insertBinding]
    split
    · next e => exact List.pairwise_cons.2 ⟨fun x hx => e ▸ hb x hx, hbs⟩
    · next hne =>
      split
      · next hlt =>
        refine List.pairwise_cons.2 ⟨fun x hx => ?_, h⟩
        rcases List.mem_cons.1 hx with rfl | hx
        · exact hlt
        · exact String.lt_trans hlt (hb x hx)
      · next hnlt =>
        refine List.pairwise_cons.2 ⟨fun x hx => ?_, ih hbs⟩
        rcases mem_insertBinding hx with rfl | hx
        · exact Std.lt_of_le_of_ne (String.not_lt.1 hnlt) (Ne.symm hne)
        · exact hb x hx

/-- A finite map from template parameters to types. -/
structure Substitution where
  bindings : List (Name × TypeExpr)
  sorted : bindings.Pairwise (·.1 < ·.1)
deriving DecidableEq

namespace Substitution

/-- Binds nothing. -/
def empty : Substitution := ⟨[], .nil⟩

/-- The type that a parameter is bound to. -/
def get? (σ : Substitution) (param : Name) : Option TypeExpr := σ.bindings.lookup param

/-- Binds a parameter; an earlier binding of it is replaced. -/
def insert (σ : Substitution) (param : Name) (ty : TypeExpr) : Substitution :=
  ⟨insertBinding param ty σ.bindings, insertBinding_sorted σ.sorted⟩

/-- Adds bindings from left to right, so the last one of a name counts. -/
def insertAll (σ : Substitution) (bindings : List (Name × TypeExpr)) : Substitution :=
  bindings.foldl (fun σ b => σ.insert b.1 b.2) σ

/-- The bindings of a list, of which the last one of a name counts. -/
def ofList (bindings : List (Name × TypeExpr)) : Substitution := empty.insertAll bindings

/-- Binds each parameter to the argument in its place; what has no partner is left out. -/
def ofParams (params : List Name) (args : List TypeExpr) : Substitution :=
  ofList (params.zip args)

/-- The bindings of two nested layers: the inner ones win. -/
def layered (outer inner : Substitution) : Substitution := outer.insertAll inner.bindings

/-- How many parameters are bound. -/
def size (σ : Substitution) : Nat := σ.bindings.length

@[simp] theorem get?_empty (p : Name) : empty.get? p = none := rfl

theorem lookup_insertBinding (param p : Name) (ty : TypeExpr) (bs : List (Name × TypeExpr)) :
    (insertBinding param ty bs).lookup p = if p = param then some ty else bs.lookup p := by
  induction bs with
  | nil => rw [insertBinding, AssocList.lookup_cons]
  | cons b bs ih =>
    simp only [insertBinding]
    split
    · next e => subst e; grind [AssocList.lookup_cons]
    · next hne =>
      split
      · rw [AssocList.lookup_cons]
      · rw [AssocList.lookup_cons, AssocList.lookup_cons, ih]
        grind

theorem get?_insert (σ : Substitution) (param p : Name) (ty : TypeExpr) :
    (σ.insert param ty).get? p = if p = param then some ty else σ.get? p :=
  lookup_insertBinding param p ty σ.bindings

end Substitution

namespace TypeExpr

mutual

/-- The type with bound parameters replaced, all at once; unbound ones stay. -/
def substitute (σ : Substitution) : TypeExpr → TypeExpr
  | .param p => (σ.get? p).getD (.param p)
  | .apply t args => .apply t (substituteAll σ args)
  | .member base n => .member (base.substitute σ) n
  | .scalar n => .scalar n
  | .named n => .named n
  | .scope s => .scope s

/-- Each of the arguments with bound parameters replaced. -/
def substituteAll (σ : Substitution) : List TypeExpr → List TypeExpr
  | [] => []
  | a :: as => a.substitute σ :: substituteAll σ as

end

theorem substituteAll_eq_map (σ : Substitution) (args : List TypeExpr) :
    substituteAll σ args = args.map (substitute σ) := by
  induction args with
  | nil => rfl
  | cons a as ih => simp [substituteAll, ih]

/-- With nothing bound, every type stays as it is. -/
theorem substitute_empty (ty : TypeExpr) : ty.substitute .empty = ty := by
  induction ty using induct with
  | apply t args ih =>
    simp only [substitute, substituteAll_eq_map, TypeExpr.apply.injEq, true_and]
    exact (List.map_congr_left ih).trans (List.map_id' args)
  | member b n ih => simp [substitute, ih]
  | _ => simp [substitute]

end TypeExpr

end NameLookup
