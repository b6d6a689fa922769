import NameLookup.Proofs.Analysis.Aliases
import NameLookup.Proofs.Analysis.Moves
import NameLookup.Proofs.Operand.CanonicalForms
import NameLookup.Proofs.SymbolTable.Closed
import NameLookup.Proofs.SymbolTable.InstanceKeys
import NameLookup.Proofs.SymbolTable.Ordering

/-!
# Two spellings of one scope

Types that denote the same scope as operands need not be the same as arguments of a template, since
a scope can be the target of two kinds: by itself, and as an instance with its arguments. Within one
kind the target is the same (`Keyed.target_eq`), and so is the argument, except that an application to
no arguments is kept as it is written (`Target.FormOf.eq_iff`). That is all that can differ
(`argument_spellings`), and it can: an instance that is denoted by one of its own members is another
argument than the instance that is denoted by its template (`own_name_differs`).
-/

set_option autoImplicit false

namespace NameLookup

theorem Target.FormOf.eq_apply {X : Target} {f : TypeExpr} (h : X.FormOf f) (hargs : X.args ≠ []) :
    f = .apply X.scope X.args :=
  h.resolve_right fun hs => hargs hs.2

/-- The forms of two targets that are alike if both have arguments or neither has. -/
theorem Target.FormOf.eq_iff {X Y : Target} {f g : TypeExpr} (hf : X.FormOf f) (hg : Y.FormOf g)
    (hXY : (X.args = [] ↔ Y.args = []) → X = Y) :
    f = g ↔ (X.args = [] ↔ Y.args = []) ∧ ((∃ r, f = .scope r) ↔ ∃ r, g = .scope r) := by
  constructor
  · rintro rfl
    refine ⟨?_, Iff.rfl⟩
    rcases hf with rfl | ⟨rfl, hX⟩ <;> rcases hg with heq | ⟨heq, hY⟩
    · rw [(TypeExpr.apply.inj heq).2]
    · cases heq
    · cases heq
    · exact iff_of_true hX hY
  · rintro ⟨hargs, hscope⟩
    obtain rfl := hXY hargs
    rcases hf with rfl | ⟨rfl, -⟩ <;> rcases hg with rfl | ⟨rfl, -⟩
    · rfl
    · obtain ⟨r, hr⟩ := hscope.2 ⟨_, rfl⟩
      cases hr
    · obtain ⟨r, hr⟩ := hscope.1 ⟨_, rfl⟩
      cases hr
    · rfl

namespace SymbolTable

open Attempt TypeExpr

variable {σ : Substitution} {k : Nat} {x : TypeExpr} {c : ScopeChain} {X Y : Target} {s : ScopeId}
  {t t₁ u : SymbolTable}

/-! ## Targets of one scope -/

/-- Two targets that have the same members, both with arguments or both without, are the same. -/
theorem Keyed.target_eq (ht : t.Keyed) (hX : concreteScope X t = (.ok s, t))
    (hY : concreteScope Y t = (.ok s, t)) (hargs : X.args = [] ↔ Y.args = []) : X = Y := by
  obtain ⟨S, as⟩ := X
  obtain ⟨T, bs⟩ := Y
  unfold concreteScope at hX hY
  cases as with
  | nil =>
    obtain rfl : bs = [] := hargs.1 rfl
    cases hX
    cases hY
    rfl
  | cons a as =>
    cases bs with
    | nil => cases hargs.2 rfl
    | cons b bs =>
      have hkey := ht.key_unique (instance?_of_instantiate hX) (instance?_of_instantiate hY)
      cases hkey
      rfl

/-! ## From operand to argument -/

/-- A type that resolves to a target as an operand resolves to it with one step more: as an operand a
name has its first hop for free. -/
theorem resolveType_of_resolveOperand
    (h : resolveOperand σ k (.type x) c t = (.ok (.resolved X), t₁)) :
    resolveType σ (k + 1) x c t = (.ok (.resolved X), t₁) := by
  obtain ⟨ty, hty, hrun⟩ := resolveOperand_ok h
  cases x with
  | named n =>
    have hn : t.typeNamed? n c = some ty := hty
    rw [resolveType_named, hn]
    exact hrun
  | scalar | param | scope | apply | member =>
    cases hty
    exact resolveType_ok_moreSteps (Nat.le_succ k) hrun

/-- What a type that denotes a target is as an argument, then and later. -/
theorem argument_form (ht : t.Sound) (hc : t.ChainIn c)
    (h : resolveOperand σ k (.type x) c t = (.ok (.resolved X), t₁)) :
    ∃ form, X.FormOf form ∧ ∀ {u}, t₁.Grows u → ∀ W m, k + 3 ≤ m →
      resolveOperand σ m (.type (.apply W [x])) c u = (.ok (.resolved ⟨W, [form]⟩), u) := by
  obtain ⟨form, hform, hrun⟩ := canonicalArg_of_resolveType (resolveType_of_resolveOperand h)
  refine ⟨form, hform, fun {u} hu W m hm => ?_⟩
  obtain ⟨m, rfl⟩ : ∃ n, m = n + 1 := ⟨m - 1, by omega⟩
  have hagain := (canonicalArg_repeatable σ (k + 2) x ht hc).again hrun hu
  -- an operand has its parameters replaced before its arguments are made canonical
  have hreplaced : canonicalArg σ m (x.substitute σ) c u = (.ok (some form), u) :=
    canonicalArg_moreSteps ((Unfolds.refl x).substitute_right (.refl σ)) (by omega) hagain
      fun hf => by cases hf
  have hresolved : resolveType σ (m + 1) (.apply W [x]) c u = (.ok (.resolved ⟨W, [form]⟩), u) := by
    rw [resolveType_apply, substituteAll, substituteAll, canonicalArgs_cons, hreplaced]
    rfl
  exact resolveOperand_of_type rfl hresolved

/-- Two types that denote one scope as operands have forms of their targets as arguments, whatever
template they are applied to. The forms are the same just if both targets have arguments or neither
has, and both types are written as a scope or neither is. -/
theorem argument_spellings {τ : Substitution} {l : Nat} {y : TypeExpr} {d : ScopeChain}
    {t₂ t₃ t₄ : SymbolTable} (ht : t.Reachable) (hc : t.ChainIn c) (hd : t.ChainIn d)
    (hx : resolveOperand σ k (.type x) c t = (.ok (.resolved X), t₁))
    (hxs : concreteScope X t₁ = (.ok s, t₂))
    (hy : resolveOperand τ l (.type y) d t₂ = (.ok (.resolved Y), t₃))
    (hys : concreteScope Y t₃ = (.ok s, t₄)) :
    ∃ f g, X.FormOf f ∧ Y.FormOf g ∧
      (∀ W m, k + 3 ≤ m →
        resolveOperand σ m (.type (.apply W [x])) c t₄ = (.ok (.resolved ⟨W, [f]⟩), t₄)) ∧
      (∀ W m, l + 3 ≤ m →
        resolveOperand τ m (.type (.apply W [y])) d t₄ = (.ok (.resolved ⟨W, [g]⟩), t₄)) ∧
      (f = g ↔ (X.args = [] ↔ Y.args = []) ∧ ((∃ r, f = .scope r) ↔ ∃ r, g = .scope r)) := by
  have hg₁ : t.Grows t₁ := (Analysis.resolveOperand_growing σ k (.type x) c).of_run hx
  have hg₂ : t₁.Grows t₂ := (concreteScope_growing X).of_run hxs
  have hg₃ : t₂.Grows t₃ := (Analysis.resolveOperand_growing τ l (.type y) d).of_run hy
  have hg₄ : t₃.Grows t₄ := (concreteScope_growing Y).of_run hys
  have hg : t.Grows t₂ := hg₁.trans hg₂
  obtain ⟨f, hf, hxform⟩ := argument_form ht.sound hc hx
  obtain ⟨g, hg', hyform⟩ := argument_form (ht.sound.grows hg) (hd.mono hg.extends) hy
  have hkeyed : t₄.Keyed := ht.keyed.grows ht.sound (hg.trans (hg₃.trans hg₄))
  have hX : concreteScope X t₄ = (.ok s, t₄) :=
    (concreteScope_repeatable X t₁).again hxs (hg₃.trans hg₄)
  have hY : concreteScope Y t₄ = (.ok s, t₄) :=
    (concreteScope_repeatable Y t₃).again hys (.refl t₄)
  exact ⟨f, g, hf, hg', hxform (hg₂.trans (hg₃.trans hg₄)), hyform hg₄,
    hf.eq_iff hg' (hkeyed.target_eq hX hY)⟩

/-- The class template `T<P>` has an alias `self` of itself, and `k` is an alias of `T<int>`. -/
def selfNaming : SymbolTable :=
  (new defaultInstantiationLimit)
    |>.withScope global "T" .classType (some ["P"])
    |>.withDecl ⟨"self", .typeAlias, .scope ⟨1⟩, some (.scope ⟨1⟩), none⟩
    |>.withScope global "W" .classType (some ["Q"])
    |>.withDecl ⟨"k", .typeAlias, .scope global, some (.apply ⟨1⟩ [.scalar "int"]), none⟩

theorem selfNaming_grounded : selfNaming.Grounded :=
  ((((Grounded.new _).withScope _ _ _ _).withDecl _).withScope _ _ _ _).withDecl _

theorem selfNaming_closed : selfNaming.Closed := by
  refine ((((Closed.new _).withScope _ _ _ _).withDecl fun ty hty => ?_).withScope _ _ _ _).withDecl
    fun ty hty => ?_
  · cases hty
    decide
  · cases hty
    decide

/-- The type `T<int>`. -/
def tOfInt : TypeExpr := .apply ⟨1⟩ [.scalar "int"]

/-- The table in which `T<int>` has been built as the scope 3. -/
def selfNamingBuilt : SymbolTable := (concreteScope ⟨⟨1⟩, [.scalar "int"]⟩ selfNaming).2

theorem resolve_tOfInt : resolveOperand .empty 32 (.type tOfInt) [.scope global] selfNaming =
    (.ok (.resolved ⟨⟨1⟩, [.scalar "int"]⟩), selfNaming) := rfl

theorem build_tOfInt :
    concreteScope ⟨⟨1⟩, [.scalar "int"]⟩ selfNaming = (.ok ⟨3⟩, selfNamingBuilt) := run_of_fst rfl

/-- `W<T<int>>` and `W<k>` are the same type. -/
theorem argument_spellings_of_alias :
    ∃ form, ∀ W m, 35 ≤ m →
      resolveOperand .empty m (.type (.apply W [tOfInt])) [.scope global] selfNamingBuilt =
        (.ok (.resolved ⟨W, [form]⟩), selfNamingBuilt) ∧
      resolveOperand .empty m (.type (.apply W [.named "k"])) [.scope global] selfNamingBuilt =
        (.ok (.resolved ⟨W, [form]⟩), selfNamingBuilt) := by
  have hy : resolveOperand .empty 32 (.type (.named "k")) [.scope global] selfNamingBuilt =
      (.ok (.resolved ⟨⟨1⟩, [.scalar "int"]⟩), selfNamingBuilt) := rfl
  have hys : concreteScope ⟨⟨1⟩, [.scalar "int"]⟩ selfNamingBuilt = (.ok ⟨3⟩, selfNamingBuilt) := rfl
  obtain ⟨f, g, hf, hg, hxform, hyform, -⟩ := argument_spellings selfNaming_grounded.reachable
    (by decide) (by decide) resolve_tOfInt build_tOfInt hy hys
  obtain rfl : f = tOfInt := hf.eq_apply (by decide)
  obtain rfl : g = tOfInt := hg.eq_apply (by decide)
  exact ⟨tOfInt, fun W m hm => ⟨hxform W m hm, hyform W m hm⟩⟩

/-- A type that denotes an instance need not be the same argument as another one that does: in
`T<int>` the alias `self` is the instance itself, and `W<T<int>>` is not `W<T<int>::self>`. -/
theorem own_name_differs :
    ¬ ∀ {σ τ : Substitution} {k l m : Nat} {x y : TypeExpr} {c d : ScopeChain} {X Y : Target}
      {s W : ScopeId} {t t₁ t₂ t₃ t₄ : SymbolTable}, t.Reachable → t.Closed → t.ChainIn c →
      t.ChainIn d → resolveOperand σ k (.type x) c t = (.ok (.resolved X), t₁) →
      concreteScope X t₁ = (.ok s, t₂) →
      resolveOperand τ l (.type y) d t₂ = (.ok (.resolved Y), t₃) →
      concreteScope Y t₃ = (.ok s, t₄) → k + 3 ≤ m → l + 3 ≤ m →
      (resolveOperand σ m (.type (.apply W [x])) c t₄).1 =
        (resolveOperand τ m (.type (.apply W [y])) d t₄).1 := by
  intro hall
  have hown : resolveOperand .empty 32 (.type (.member tOfInt "self")) [.scope global]
      selfNamingBuilt = (.ok (.resolved ⟨⟨3⟩, []⟩), selfNamingBuilt) := rfl
  have hsame := hall (W := ⟨2⟩) (m := 35) selfNaming_grounded.reachable selfNaming_closed (by decide)
    (by decide) resolve_tOfInt build_tOfInt hown rfl (Nat.le_refl 35) (Nat.le_refl 35)
  have harg : (resolveOperand .empty 35 (.type (.apply ⟨2⟩ [tOfInt])) [.scope global]
      selfNamingBuilt).1 = .ok (.resolved ⟨⟨2⟩, [tOfInt]⟩) := rfl
  have hownArg : (resolveOperand .empty 35 (.type (.apply ⟨2⟩ [.member tOfInt "self"]))
      [.scope global] selfNamingBuilt).1 = .ok (.resolved ⟨⟨2⟩, [.scope ⟨3⟩]⟩) := rfl
  cases harg.symm.trans (hsame.trans hownArg)

end SymbolTable

end NameLookup
