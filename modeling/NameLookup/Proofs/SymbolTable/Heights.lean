import NameLookup.Proofs.SymbolTable.Bodies
import NameLookup.Proofs.SymbolTable.Nesting
import NameLookup.Proofs.SymbolTable.InstanceRecords

/-!
# The height of a template

The height of a scope is how many levels of scopes its body has. A template can be instantiated just
when its height is within the limit (`instantiation_limit_exact`): whether the body fits into the
room there is (`fitsIn`) is a matter of its height alone (`Sound.fitsIn_iff`).
-/

set_option autoImplicit false

namespace NameLookup.SymbolTable

open Relation

/-- How many levels of scopes the body of a scope has, counted down to a depth of `n`. -/
def heightWithin (t : SymbolTable) : Nat → ScopeId → Nat
  | 0, _ => 0
  | n + 1, s => 1 + ((t.nestedTypes s).map (t.heightWithin n)).max?.getD 0

/-- How many levels of scopes the body of a scope has. A scope is younger than the one it stands in,
so the number of scopes bounds the depth. -/
def height (t : SymbolTable) (s : ScopeId) : Nat := t.heightWithin t.scopes.size s

/-- The scopes that the nested types of the body are declared as exist. -/
def NestedTypesIn (t : SymbolTable) (s : ScopeId) : Prop :=
  ∀ o, t.InBody s o → ∀ d ∈ (t.membersOf (.scope o)).decls, ∀ e r, t.decl? d = some e →
    e.kind = .nestedType → e.type = some (.scope r) → t.HasScope r

variable {t : SymbolTable} {key : InstanceKey} {o s : ScopeId}

/-! ## Levels -/

theorem max?_getD_le_iff {xs : List Nat} {k : Nat} : xs.max?.getD 0 ≤ k ↔ ∀ x ∈ xs, x ≤ k := by
  cases h : xs.max? with
  | none => simp [List.max?_eq_none_iff.1 h]
  | some m => exact List.max?_le_iff h

/-- Depths that suffice for a scope give the same height. -/
theorem Sound.heightWithin_eq (ht : t.Sound) {n m : Nat} (hs : t.HasScope s)
    (hn : t.scopes.size ≤ s.index + n) (hm : t.scopes.size ≤ s.index + m) :
    t.heightWithin n s = t.heightWithin m s := by
  have hlt : s.index < t.scopes.size := hs
  induction n generalizing m s with
  | zero => omega
  | succ n ih =>
    obtain ⟨m, rfl⟩ : ∃ k, m = k + 1 := ⟨m - 1, by omega⟩
    have hnested : (t.nestedTypes s).map (t.heightWithin n) =
        (t.nestedTypes s).map (t.heightWithin m) := by
      refine List.map_congr_left fun r hr => ?_
      have hstands := (mem_nestedTypes.1 hr).standsIn
      have holder := ht.lt_of_standsIn hstands
      obtain ⟨e, he, -⟩ := hstands
      have hr := hasScope_of_scope? he
      exact ih hr (by omega) (by omega) hr
    rw [heightWithin, heightWithin, hnested]

/-- The height of a scope is one more than the largest height of a type nested in it. -/
theorem Sound.height_eq (ht : t.Sound) (hs : t.HasScope s) :
    t.height s = 1 + ((t.nestedTypes s).map t.height).max?.getD 0 := by
  have hmore := ht.heightWithin_eq hs (Nat.le_add_left _ s.index)
    (Nat.le_trans (Nat.le_succ _) (Nat.le_add_left (t.scopes.size + 1) s.index))
  exact hmore

/-! ## Room -/

/-- Where what is declared nested exists, it is copied along just if it stands in the scope. -/
theorem Sound.nestedIn?_eq_nests? (ht : t.Sound) {d : DeclId}
    (h : ∀ e r, t.decl? d = some e → e.kind = .nestedType → e.type = some (.scope r) →
      t.HasScope r) : t.nestedIn? o d = t.nests? o d := by
  cases hd : t.decl? d with
  | none => simp [nestedIn?, nests?, hd]
  | some e =>
    refine Option.ext fun r => ?_
    rw [nests?_iff hd]
    unfold nestedIn?
    rw [hd, Option.bind_some, Option.any_some]
    constructor
    · intro hr
      split at hr
      · next s hs =>
        split at hr
        · cases hr
        · split at hr
          · next hin =>
            cases hr
            have hkind := of_decide_eq_true hin.1
            obtain ⟨n, hn⟩ := (h e r hd hkind hs).entry
            rw [isNestedIn, hn] at hin
            exact ⟨hkind, hs, n, hn, of_decide_eq_true hin.2⟩
          · cases hr
      · cases hr
    · rintro ⟨hkind, htype, hstands⟩
      have hne : r ≠ o := fun heq => Nat.lt_irrefl _ (heq ▸ ht.lt_of_standsIn hstands)
      obtain ⟨n, hn, hparent⟩ := hstands
      have hin : t.isNestedIn o r = true := by simp [isNestedIn, hn, hparent]
      simp [htype, hne, hkind, hin]

theorem Closed.nestedTypesIn (h : t.Closed) (s : ScopeId) : t.NestedTypesIn s :=
  fun _ _ _ _ _ _ hd _ hty => knows_scope.1 (h.types hd hty)

namespace NestedTypesIn

variable (h : t.NestedTypesIn s)
include h

theorem nestedScopes_eq (ht : t.Sound) (ho : t.InBody s o) : t.nestedScopes o = t.nestedTypes o :=
  List.filterMap_congr fun d hd => ht.nestedIn?_eq_nests? (h o ho d hd)

theorem nested (hs : t.DeclaresNested s o) : t.NestedTypesIn o := fun p hp => h p (.head hs hp)

theorem treeIn (ht : t.Sound) (hs : t.HasScope s) : t.TreeIn s := by
  intro o ho
  have hbody : t.InBody s o := by
    induction ho with
    | refl => exact .refl
    | tail _ hr ih =>
      rw [h.nestedScopes_eq ht ih] at hr
      exact ih.tail (mem_nestedTypes.1 hr)
  exact hasScope_of_inBody hbody hs

/-- The body of a scope fits into as much room as the scope is high. -/
theorem fitsIn_iff (ht : t.Sound) (hs : t.HasScope s) {room : Nat} :
    t.fitsIn room s = true ↔ t.height s ≤ room := by
  induction room generalizing s with
  | zero =>
    rw [ht.height_eq hs]
    simp [fitsIn]
  | succ room ih =>
    have hfits : ∀ r ∈ t.nestedTypes s, t.fitsIn room r = true ↔ t.height r ≤ room := fun r hr => by
      obtain ⟨e, he, -⟩ := (mem_nestedTypes.1 hr).standsIn
      exact ih (h.nested (mem_nestedTypes.1 hr)) (hasScope_of_scope? he)
    rw [fitsIn, h.nestedScopes_eq ht .refl, List.all_eq_true, ht.height_eq hs, Nat.add_comm,
      Nat.add_le_add_iff_right, max?_getD_le_iff, List.forall_mem_map]
    exact forall₂_congr hfits

end NestedTypesIn

/-! ## The limit -/

/-- A missing instance of a class template with as many parameters as there are arguments can be had
just when the height of the template is within the limit; otherwise the limit is what is at fault.
The height of a scope is one more than the largest height of a type nested in it, and one if there is
none. -/
theorem instantiation_limit_exact (ht : t.Reachable) {e : Scope} {params : List Name}
    (he : t.scope? key.template = some e) (hparams : e.templateParams = some params)
    (harity : params.length = key.args.length) (hnew : t.instance? key = none)
    (hin : t.NestedTypesIn key.template) :
    (∀ o, t.InBody key.template o →
      t.height o = 1 + ((t.nestedTypes o).map t.height).max?.getD 0) ∧
    ((∃ s u, instantiate key t = (.ok s, u)) ↔ t.height key.template ≤ t.instantiationLimit) ∧
    (¬ t.height key.template ≤ t.instantiationLimit →
      instantiate key t = (.error (.depthExceeded t.instantiationLimit), t)) := by
  have hs := hasScope_of_scope? he
  have hfits : t.fitsIn t.instantiationLimit key.template = true ↔ _ := hin.fitsIn_iff ht.sound hs
  have hrun : instantiate key t = buildInstance key t := by rw [instantiate_run, hnew]
  have hdecides := buildInstance_decides ht.sound (hin.treeIn ht.sound hs) (.refl t)
  rw [instanceFault?, he] at hdecides
  simp only [hparams, harity, ne_eq, not_true_eq_false, if_false, hfits] at hdecides
  refine ⟨fun o ho => ht.sound.height_eq (hasScope_of_inBody ho hs), ?_⟩
  rw [hrun]
  by_cases hle : t.height key.template ≤ t.instantiationLimit
  · rw [if_pos hle] at hdecides
    exact ⟨iff_of_true hdecides hle, absurd hle⟩
  · rw [if_neg hle] at hdecides
    refine ⟨iff_of_false ?_ hle, fun _ => hdecides⟩
    rintro ⟨s, u, hok⟩
    cases hdecides.symm.trans hok

theorem nestedClass_closed (limit : Nat) : (nestedClass limit).Closed :=
  ((((Closed.new limit).withScope ..).withDecl fun ty hty => by cases hty).withScope ..).withDecl
    fun ty hty => by cases hty

/-- `Outer` with its class `Inner` has a height of two: a limit of one refuses `Outer<int>`, and a
limit of two does not. -/
theorem instantiation_limit_exact_nestedClass :
    let key : InstanceKey := ⟨⟨1⟩, [.scalar "int"]⟩
    (nestedClass 1).height ⟨1⟩ = 2 ∧
      instantiate key (nestedClass 1) = (.error (.depthExceeded 1), nestedClass 1) ∧
      ∃ s u, instantiate key (nestedClass 2) = (.ok s, u) := by
  intro key
  obtain ⟨e, he, hparams⟩ : ∃ e, (nestedClass 1).scope? key.template = some e ∧
      e.templateParams = some ["T"] := Option.bind_eq_some_iff.1 (by decide +kernel)
  obtain ⟨e', he', hparams'⟩ : ∃ e, (nestedClass 2).scope? key.template = some e ∧
      e.templateParams = some ["T"] := Option.bind_eq_some_iff.1 (by decide +kernel)
  have hone := instantiation_limit_exact (nestedClass_reachable 1) he hparams rfl rfl
    ((nestedClass_closed 1).nestedTypesIn _)
  have htwo := instantiation_limit_exact (nestedClass_reachable 2) he' hparams' rfl rfl
    ((nestedClass_closed 2).nestedTypesIn _)
  exact ⟨by decide, hone.2.2 (by decide), htwo.2.1.2 (by decide)⟩

end NameLookup.SymbolTable
