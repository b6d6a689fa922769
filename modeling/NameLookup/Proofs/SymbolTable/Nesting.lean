import Mathlib.Logic.Relation
import NameLookup.Proofs.SymbolTable.Closed

/-!
# When an instance can be built

Whether a template can be instantiated is decided by how deep scopes are nested in it (`fitsIn`),
before anything is copied: `instanceFault?` reads off the table which fault there will be, if any
(`buildInstance_decides`). The scopes of a template do not change while the table grows, so the
fault stays (`instantiate_lasting`).
-/

set_option autoImplicit false

namespace NameLookup.SymbolTable

open Relation

/-- The scope that is copied along with the declaration `d` of `source`. -/
def nestedIn? (t : SymbolTable) (source : ScopeId) (d : DeclId) : Option ScopeId :=
  match (t.decl? d).bind (·.type) with
  | some (.scope s) =>
    if s = source then none
    else if (t.decl? d).any (·.kind = .nestedType) ∧ t.isNestedIn source s then some s
    else none
  | _ => none

/-- The scopes that are copied directly along with a scope. -/
def nestedScopes (t : SymbolTable) (source : ScopeId) : List ScopeId :=
  (t.membersOf (.scope source)).decls.filterMap (t.nestedIn? source)

/-- Scopes are nested in `source` less than `room` levels deep. -/
def fitsIn (t : SymbolTable) : Nat → ScopeId → Bool
  | 0, _ => false
  | room + 1, source => (t.nestedScopes source).all (t.fitsIn room)

/-- The scopes that are copied along with `source`, at whatever depth, exist. -/
def TreeIn (t : SymbolTable) (source : ScopeId) : Prop :=
  ∀ s, ReflTransGen (fun r s => s ∈ t.nestedScopes r) source s → t.HasScope s

/-- A run succeeds if `p` holds, and fails with `fault` if not. -/
inductive Decides {ε α : Type} (fault : ε) : Bool → Except ε α → Prop
  | ok (a : α) : Decides fault true (.ok a)
  | error : Decides fault false (.error fault)

theorem Decides.of_ok {ε α : Type} {fault : ε} {p : Bool} {a : α}
    (h : Decides fault p (.ok a)) : p = true := by
  cases h
  rfl

theorem Decides.of_error {ε α : Type} {fault e : ε} {p : Bool}
    (h : Decides (α := α) fault p (.error e)) : p = false ∧ e = fault := by
  cases h
  exact ⟨rfl, rfl⟩

variable {b t₀ t u : SymbolTable} {key : InstanceKey} {σ : Substitution} {source target : ScopeId}

theorem TreeIn.nested (h : b.TreeIn source) {s : ScopeId} (hs : s ∈ b.nestedScopes source) :
    b.TreeIn s :=
  fun r hr => h r (.head hs hr)

theorem Closed.hasScope_nestedIn (h : b.Closed) {d : DeclId} {s : ScopeId}
    (hs : b.nestedIn? source d = some s) : b.HasScope s := by
  unfold nestedIn? at hs
  split at hs
  · next r hr =>
    obtain ⟨decl, hd, hty⟩ := Option.bind_eq_some_iff.1 hr
    have hknown := knows_scope.1 (h.types hd hty)
    split at hs
    · cases hs
    · split at hs <;> cases hs
      exact hknown
  · cases hs

theorem Closed.treeIn (h : b.Closed) (hs : b.HasScope source) : b.TreeIn source := by
  intro s hr
  cases hr with
  | refl => exact hs
  | tail _ hs =>
    obtain ⟨d, -, hd⟩ := List.mem_filterMap.1 hs
    exact h.hasScope_nestedIn hd

/-- Where the scopes that are copied along exist, a later table nests them as the former one did. -/
theorem Extends.isNestedIn (h : b.Extends t) {s : ScopeId}
    (hs : b.isNestedIn source s = true → b.HasScope s) :
    t.isNestedIn source s = b.isNestedIn source s := by
  have hscope : b.HasScope s := by
    by_cases hn : b.isNestedIn source s = true
    · exact hs hn
    · unfold SymbolTable.isNestedIn at hn
      cases he : b.scope? s with
      | none => simp [he] at hn
      | some e => exact hasScope_of_scope? he
  unfold SymbolTable.isNestedIn
  rw [h.scope hscope]

/-! ## Copies -/

section
variable {copyNested : ScopeId → TableM InstantiationFault ScopeId} {F : ScopeId → Bool}
  {fault : InstantiationFault}

/-- A declaration is copied if the scope that goes with it is. -/
theorem copyType_decides (hext : b.Extends t) {d : DeclId} {decl : Declaration}
    (hd : b.decl? d = some decl) (hin : ∀ s, b.nestedIn? source d = some s → b.HasScope s)
    (hnested : ∀ s, b.nestedIn? source d = some s → Decides fault (F s) (copyNested s t).1)
    (copies : Copies) :
    Decides fault ((b.nestedIn? source d).all F)
      (copyType copyNested source target σ decl.kind copies decl.type t).1 := by
  by_cases hscope : ∃ s, decl.type = some (.scope s)
  · obtain ⟨s, hs⟩ := hscope
    have hnest : b.nestedIn? source d =
        if s = source then none
        else if decl.kind = .nestedType ∧ b.isNestedIn source s then some s else none := by
      simp [nestedIn?, hd, hs]
    rw [hs, copyType_scope]
    rw [hnest] at hin hnested ⊢
    by_cases hself : s = source
    · simp only [hself, if_true]
      exact .ok _
    · simp only [hself, if_false] at hin hnested ⊢
      by_cases hkind : decl.kind = .nestedType
      · have hsame : t.isNestedIn source s = b.isNestedIn source s :=
          hext.isNestedIn fun hn => hin s (by simp [hkind, hn])
        rw [hsame]
        cases hn : b.isNestedIn source s with
        | true =>
          have hcopy := hnested s (by simp [hkind, hn])
          simp only [hkind, and_self, if_true, Option.all_some]
          rcases hc : copyNested s t with ⟨fault' | copy, t'⟩ <;> rw [hc] at hcopy
          · obtain ⟨hF, rfl⟩ := hcopy.of_error
            rw [hF]
            exact .error
          · rw [hcopy.of_ok]
            exact .ok _
        | false =>
          simp only [Bool.false_eq_true, and_false, if_false]
          exact .ok _
      · simp only [hkind, false_and, if_false]
        exact .ok _
  · have hnest : b.nestedIn? source d = none := by
      unfold nestedIn?
      rw [hd, Option.bind_some]
      split
      · next s hs => exact absurd ⟨s, hs⟩ hscope
      · rfl
    rw [hnest, copyType_of_not_scope _ _ _ _ _ _ _ fun s hs => hscope ⟨s, hs⟩]
    exact .ok _

/-- Declarations are copied if the scopes that go with them are. -/
theorem copyDecls_decides (hext : b.Extends t₀)
    (hgoes : ∀ s {t}, Copying t₀ key σ t → t.HasScope target →
      GoesOn t₀ key σ t HasScope (copyNested s t))
    (hnew : t₀.scopes.size ≤ target.index)
    (h : Copying t₀ key σ t) (htarget : t.HasScope target) {ds : List DeclId}
    (hds : ∀ d ∈ ds, b.HasDecl d)
    (hin : ∀ s ∈ ds.filterMap (b.nestedIn? source), b.HasScope s)
    (hnested : ∀ s ∈ ds.filterMap (b.nestedIn? source), ∀ {t}, Copying t₀ key σ t →
      t.HasScope target → Decides fault (F s) (copyNested s t).1)
    {copies : Copies} (hcopies : CopiesIn t copies) :
    Decides fault ((ds.filterMap (b.nestedIn? source)).all F)
      (copyDecls copyNested source target σ ds copies t).1 := by
  induction ds generalizing t copies with
  | nil => exact .ok copies
  | cons d ds ih =>
    obtain ⟨decl, hd⟩ := (hds d List.mem_cons_self).entry
    have ht : b.Extends t := hext.trans h.extends
    have hmem : ∀ s, b.nestedIn? source d = some s →
        s ∈ (d :: ds).filterMap (b.nestedIn? source) := fun s hs =>
      List.mem_filterMap.2 ⟨d, List.mem_cons_self, hs⟩
    have hmem' : ∀ s ∈ ds.filterMap (b.nestedIn? source),
        s ∈ (d :: ds).filterMap (b.nestedIn? source) := by
      intro s hs
      obtain ⟨d', hd', hs⟩ := List.mem_filterMap.1 hs
      exact List.mem_filterMap.2 ⟨d', List.mem_cons_of_mem d hd', hs⟩
    have hfirst := @copyType_decides b t σ source target copyNested F fault ht d decl hd
      (fun s hs => hin s (hmem s hs)) (fun s hs => hnested s (hmem s hs) h htarget) copies
    have hgoes' := copyType_goesOn source hgoes h htarget hcopies (ht.decl_some hd)
    have hall : ((d :: ds).filterMap (b.nestedIn? source)).all F =
        ((b.nestedIn? source d).all F && (ds.filterMap (b.nestedIn? source)).all F) := by
      cases hn : b.nestedIn? source d <;> simp [hn]
    rw [hall, copyDecls_cons, ht.decl_some hd]
    simp only
    rcases hc : copyType copyNested source target σ decl.kind copies decl.type t
      with ⟨fault' | ⟨type, copies'⟩, t'⟩ <;> rw [hc] at hfirst hgoes'
    · obtain ⟨hF, rfl⟩ := hfirst.of_error
      rw [hF, Bool.false_and]
      exact .error
    · rw [hfirst.of_ok, Bool.true_and]
      obtain ⟨htype, hcopies'⟩ := hgoes'.result rfl
      have htarget' : t'.HasScope target := Nat.lt_of_lt_of_le htarget hgoes'.scopes_le
      refine ih (.declare hgoes'.copying rfl hnew htarget' htype) ?_
        (fun d' hd' => hds d' (List.mem_cons_of_mem d hd')) (fun s hs => hin s (hmem' s hs))
        (fun s hs => hnested s (hmem' s hs))
        (hcopies'.mono (Nat.le_of_eq (scopes_size_declare _ _).symm))
      rw [HasScope, scopes_size_declare]
      exact htarget'

end

/-- A copy is finished if the scopes nested in the source fit into the room there is. -/
theorem copyScope_decides (hb : b.Sound) (hext : b.Extends t₀) (room : Nat)
    (htree : b.TreeIn source) (h : Copying t₀ key σ t) {parent : Option ScopeId}
    {instanceOf : Option InstanceKey} (hparent : ∀ p, parent = some p → MayHouse t₀ key t p)
    (hkey : ∀ k, instanceOf = some k → k = key) :
    Decides (.depthExceeded b.instantiationLimit) (b.fitsIn room source)
      (copyScope σ room source parent instanceOf t).1 := by
  induction room generalizing t source parent instanceOf with
  | zero =>
    rw [copyScope_zero, (hext.trans h.extends).limit]
    exact .error
  | succ room ih =>
    obtain ⟨src, hsrc⟩ := (htree source .refl).entry
    have hsrc' := (hext.trans h.extends).scope_some hsrc
    have hmembers : b.membersOf (.scope source) = src.members := membersOf_of_scope? hsrc
    have halloc : Copying t₀ key σ (t.allocScope (blankCopy src parent instanceOf)).2 :=
      .alloc h hsrc' hparent hkey
    have htarget : (t.allocScope (blankCopy src parent instanceOf)).2.HasScope
        ⟨t.scopes.size⟩ := by simp [HasScope, SymbolTable.allocScope]
    have hhouse : ∀ {t'}, SymbolTable.HasScope t' ⟨t.scopes.size⟩ →
        ∀ p, some ⟨t.scopes.size⟩ = some p → MayHouse t₀ key t' p :=
      fun ht' p hp => by cases hp; exact .inl ht'
    have hmem : ∀ s ∈ src.members.decls.filterMap (b.nestedIn? source),
        s ∈ b.nestedScopes source := fun s hs => by rwa [nestedScopes, hmembers]
    have hlisted : ∀ d ∈ src.members.decls, b.HasDecl d := fun d hd =>
      hb.hasDecl_membersOf (.inl (hmembers ▸ hd))
    have hgoes : ∀ s {t'}, Copying t₀ key σ t' → t'.HasScope ⟨t.scopes.size⟩ →
        GoesOn t₀ key σ t' HasScope (copyScope σ room s (some ⟨t.scopes.size⟩) none t') :=
      fun s t' ht' hs => copyScope_goesOn room s ht' (hhouse hs) fun k hk => by cases hk
    have hnone : CopiesIn (t.allocScope (blankCopy src parent instanceOf)).2 [] :=
      fun x hx => absurd hx List.not_mem_nil
    have hdecls := copyDecls_decides hext hgoes h.extends.scopes_le halloc htarget hlisted
      (fun s hs => htree s (.single (hmem s hs)))
      (fun s hs t' ht' hts => ih (htree.nested (hmem s hs)) ht' (hhouse hts) fun k hk => by cases hk)
      hnone
    rw [copyScope_succ, hsrc', fitsIn, nestedScopes, hmembers]
    simp only
    rcases hc : copyDecls (fun s => copyScope σ room s (some ⟨t.scopes.size⟩) none) source
      ⟨t.scopes.size⟩ σ src.members.decls [] (t.allocScope (blankCopy src parent instanceOf)).2
      with ⟨fault | copies, t'⟩ <;> rw [hc] at hdecls
    · obtain ⟨hF, rfl⟩ := hdecls.of_error
      rw [hF]
      exact .error
    · rw [hdecls.of_ok]
      exact .ok _

/-! ## Instances -/

/-- Why the instance of a key cannot be built, if it cannot. -/
def instanceFault? (t : SymbolTable) (key : InstanceKey) : Option InstantiationFault :=
  match t.scope? key.template with
  | none => some (.unknownScope key.template)
  | some e =>
    match e.templateParams with
    | none => some (.notATemplate key.template)
    | some params =>
      if params.length ≠ key.args.length then
        some (.arityMismatch key.template params.length key.args.length)
      else if t.fitsIn t.instantiationLimit key.template then none
      else some (.depthExceeded t.instantiationLimit)

/-- Whether an instance is built, and which fault there is if not, was decided as soon as the
template and the scopes nested in it existed. -/
theorem buildInstance_decides (hb : b.Sound) (htree : b.TreeIn key.template) (hext : b.Extends t) :
    match b.instanceFault? key with
    | some fault => buildInstance key t = (.error fault, t)
    | none => ∃ s t', buildInstance key t = (.ok s, t') := by
  obtain ⟨e, he⟩ := (htree _ .refl).entry
  have he' := hext.scope_some he
  unfold instanceFault?
  rw [he]
  simp only
  cases hparams : e.templateParams with
  | none => simp [buildInstance_run, he', hparams]
  | some params =>
    by_cases harity : params.length = key.args.length
    · have hstart : Copying t key (.ofParams params key.args) t := .start
      have hcopy := copyScope_decides hb hext t.instantiationLimit htree hstart
        (fun p hp => .inr ⟨e, he', hp⟩) fun k (hk : some key = some k) => (Option.some.inj hk).symm
      have hrun := buildInstance_cases key t
      rw [buildInstance_run, he'] at hrun ⊢
      simp only [hparams, harity, ne_eq, not_true_eq_false, if_false] at hrun ⊢
      rw [← hext.limit]
      rcases hc : copyScope (.ofParams params key.args) t.instantiationLimit key.template e.parent
        (some key) t with ⟨fault | s, t'⟩ <;> rw [hc] at hcopy hrun
      · obtain ⟨hfits, rfl⟩ := hcopy.of_error
        rcases hrun with ⟨fault, hfault⟩ | ⟨_, _, _, _, _, _, _, _, hok⟩
        · obtain ⟨hfault', htable⟩ := Prod.mk.inj hfault
          rw [hfits]
          simp [htable, hext.limit]
        · cases (Prod.mk.inj hok).1
      · rw [hcopy.of_ok]
        exact ⟨s, _, rfl⟩
    · simp [buildInstance_run, he', hparams, harity]

/-- An instance that can be built now can be built later. -/
theorem buildInstance_later (hb : b.Sound) (htree : b.TreeIn key.template) (hext : b.Extends t)
    {s : ScopeId} (h : buildInstance key b = (.ok s, u)) :
    ∃ s' u', buildInstance key t = (.ok s', u') := by
  have hnow := buildInstance_decides hb htree (.refl b)
  have hthen := buildInstance_decides hb htree hext
  cases hf : b.instanceFault? key with
  | none =>
    rw [hf] at hthen
    exact hthen
  | some fault =>
    rw [hf] at hnow
    cases h.symm.trans hnow

theorem Grows.instance_none (hg : t.Grows u) (hnone : t.instance? key = none)
    (hnever : ∀ {v s v'}, t.Grows v → buildInstance key v ≠ (.ok s, v')) :
    u.instance? key = none := by
  induction hg with
  | refl => exact hnone
  | @build t t' u key' s hnew hbuild hg ih =>
    have hne : key ≠ key' := by
      rintro rfl
      exact hnever (.refl t) hbuild
    refine ih ?_ fun hv => hnever (.build hnew hbuild hv)
    rw [instance?, (buildInstance_ok hbuild).2.2, AssocList.lookup_cons, if_neg hne]
    exact hnone

/-- An instance that cannot be built now cannot be built later either. -/
theorem instantiate_lasting (ht : t.Sound) (htree : t.TreeIn key.template) :
    Lasting (instantiate key) t := by
  intro u hu
  rcases h : instantiate key t with ⟨fault | s, t'⟩ <;> rw [h] at hu
  · obtain rfl := instantiate_error h
    rw [instantiate_run] at h
    cases hi : t'.instance? key with
    | some s =>
      rw [hi] at h
      cases h
    | none =>
      rw [hi] at h
      have hfault : t'.instanceFault? key = some fault := by
        have hnow := buildInstance_decides ht htree (.refl t')
        cases hf : t'.instanceFault? key with
        | none =>
          rw [hf] at hnow
          obtain ⟨s, u, hok⟩ := hnow
          cases h.symm.trans hok
        | some fault' =>
          rw [hf] at hnow
          cases h.symm.trans hnow
          rfl
      have hlater {v : SymbolTable} (hv : t'.Grows v) : buildInstance key v = (.error fault, v) := by
        have hthen := buildInstance_decides ht htree hv.extends
        rwa [hfault] at hthen
      have hnone : u.instance? key = none := hu.instance_none hi fun {v s v'} hv hok => by
        cases (hlater hv).symm.trans hok
      rw [instantiate_run, hnone]
      exact hlater hu
  · exact (instantiate_repeatable key t).again h hu

end NameLookup.SymbolTable
