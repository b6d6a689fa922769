import Mathlib.Data.List.Basic
import NameLookup.SymbolTable.Chain
import NameLookup.Proofs.SymbolTable.Soundness

/-!
# Lookup does not see later entries

Where a chain consists of owners that exist, an extension of the table changes nothing about what
is found along it (`Extends.ordinaryLookup`, `Extends.typeNamed?`, `Extends.typeOfValue?`); the same
goes for the members of a scope that exists (`Extends.memberType?`) and for the chains of scopes and
blocks themselves (`Extends.chainOfScope`, `Extends.chainAt`). A chain that names a scope before it
exists is a different matter: the scope may come into being later, with members.
-/

set_option autoImplicit false

namespace NameLookup.SymbolTable

/-- The scopes of the chain exist. -/
def ChainIn (t : SymbolTable) (chain : ScopeChain) : Prop := ∀ s, .scope s ∈ chain → t.HasScope s

instance (t : SymbolTable) (chain : ScopeChain) : Decidable (t.ChainIn chain) :=
  decidable_of_iff (∀ s ∈ chain.filterMap Owner.scope?, t.HasScope s) <| by
    refine forall_congr' fun s => imp_congr_left (List.mem_filterMap.trans ⟨?_, fun h => ⟨_, h, rfl⟩⟩)
    rintro ⟨o, ho, hs⟩
    cases o <;> cases hs
    exact ho

/-- The scopes that blocks stand in directly exist. -/
def BlocksIn (t : SymbolTable) : Prop :=
  ∀ b e s, t.block? b = some e → e.parent = .scope s → t.HasScope s

variable {t u : SymbolTable} {chain : ScopeChain} {name : Name} {s : ScopeId}

theorem ChainIn.mono (h : t.ChainIn chain) (he : t.Extends u) : u.ChainIn chain :=
  fun s hs => he.hasScope (h s hs)

theorem BlocksIn.mono (h : t.BlocksIn) (he : t.Extends u) : u.BlocksIn := fun b e s hb hp =>
  he.hasScope (h b e s ((he.block b).symm.trans hb) hp)

theorem members?_of_scope? {e : Scope} (h : t.scope? s = some e) :
    t.members? (.scope s) = some e.members := by
  rw [members?, h, Option.map_some]

theorem membersOf_of_scope? {e : Scope} (h : t.scope? s = some e) :
    t.membersOf (.scope s) = e.members := by
  rw [membersOf, members?_of_scope? h, Option.getD_some]

theorem Sound.hasDecl_membersOf (h : t.Sound) {o : Owner} {d : DeclId}
    (hd : (t.membersOf o).Lists d) : t.HasDecl d := by
  rw [membersOf] at hd
  cases hm : t.members? o with
  | none =>
    rw [hm] at hd
    exact absurd hd (Members.not_lists_empty d)
  | some m =>
    rw [hm] at hd
    exact h.listed hm hd

theorem mem_ordinaryLookup {d : DeclId} (h : d ∈ t.ordinaryLookup name chain) :
    ∃ o ∈ chain, d ∈ (t.membersOf o).named name := by
  rw [SymbolTable.ordinaryLookup] at h
  cases hf : (chain.map fun o => (t.membersOf o).named name).find? (!·.isEmpty) with
  | none =>
    rw [hf] at h
    exact absurd h List.not_mem_nil
  | some ds =>
    rw [hf] at h
    obtain ⟨o, ho, rfl⟩ := List.mem_map.1 (List.mem_of_find?_eq_some hf)
    exact ⟨o, ho, h⟩

theorem Sound.hasDecl_ordinaryLookup (h : t.Sound) {d : DeclId}
    (hd : d ∈ t.ordinaryLookup name chain) : t.HasDecl d := by
  obtain ⟨o, -, hn⟩ := mem_ordinaryLookup hd
  exact h.hasDecl_membersOf (.inr ⟨name, hn⟩)

/-- A type that a lookup gives is recorded with a declaration. -/
theorem exists_decl_of_firstType? {p : Declaration → Bool} {ds : List DeclId} {ty : TypeExpr}
    (h : t.firstType? p ds = some ty) : ∃ d e, t.decl? d = some e ∧ e.type = some ty := by
  obtain ⟨e, hfind, hty⟩ := Option.bind_eq_some_iff.1 h
  obtain ⟨d, -, hd⟩ := List.mem_filterMap.1 (List.mem_of_find?_eq_some hfind)
  exact ⟨d, e, hd, hty⟩

/-- Only a scope that exists has a member. -/
theorem hasScope_of_memberType? {ty : TypeExpr} (h : t.memberType? s name = some ty) :
    t.HasScope s := by
  rw [memberType?, membersNamed, membersOf, members?] at h
  cases hs : t.scope? s with
  | none =>
    rw [hs] at h
    cases h
  | some e => exact hasScope_of_scope? hs

/-! ## Chains of scopes -/

theorem scopeLinks_in (ht : t.Sound) (n : Nat) (hs : t.HasScope s) : t.ChainIn (t.scopeLinks n s) := by
  induction n generalizing s with
  | zero => exact fun r hr => absurd hr List.not_mem_nil
  | succ n ih =>
    obtain ⟨e, he⟩ := hs.entry
    intro r hr
    rw [scopeLinks, List.mem_cons] at hr
    rcases hr with hr | hr
    · cases hr
      exact hs
    · cases hp : e.parent with
      | none =>
        rw [he, Option.bind_some, hp] at hr
        exact absurd hr List.not_mem_nil
      | some p =>
        rw [he, Option.bind_some, hp] at hr
        exact ih (ht.hasScope_parent he hp) r hr

theorem chainOfScope_in (ht : t.Sound) (hs : t.HasScope s) : t.ChainIn (t.chainOfScope s) :=
  scopeLinks_in ht _ hs

namespace Extends

variable (h : t.Extends u)
include h

theorem members {o : Owner} (ho : ∀ s, o = .scope s → t.HasScope s) :
    u.members? o = t.members? o := by
  cases o with
  | scope s => rw [members?, members?, h.scope (ho s rfl)]
  | block b => rw [members?, members?, h.block b]

theorem ordinaryLookup (hc : t.ChainIn chain) (name : Name) :
    u.ordinaryLookup name chain = t.ordinaryLookup name chain := by
  have hmap : chain.map (fun o => (u.membersOf o).named name) =
      chain.map fun o => (t.membersOf o).named name := by
    refine List.map_congr_left fun o ho => ?_
    rw [membersOf, membersOf, h.members fun s hs => hc s (hs ▸ ho)]
  rw [SymbolTable.ordinaryLookup, SymbolTable.ordinaryLookup, hmap]

theorem firstType? (p : Declaration → Bool) {ds : List DeclId} (hds : ∀ d ∈ ds, t.HasDecl d) :
    u.firstType? p ds = t.firstType? p ds := by
  have hdecls : ds.filterMap u.decl? = ds.filterMap t.decl? :=
    List.filterMap_congr fun d hd => h.decl (hds d hd)
  rw [SymbolTable.firstType?, SymbolTable.firstType?, hdecls]

theorem isParamIn (hc : t.ChainIn chain) (name : Name) :
    u.isParamIn chain name = t.isParamIn chain name := by
  have hlink : ∀ o ∈ chain, o.scope?.bind u.scope? = o.scope?.bind t.scope? := by
    intro o ho
    cases o with
    | block b => rfl
    | scope s => exact h.scope (hc s ho)
  rw [SymbolTable.isParamIn, SymbolTable.isParamIn, Bool.eq_iff_iff, List.any_eq_true,
    List.any_eq_true]
  constructor <;>
  · rintro ⟨o, ho, hp⟩
    refine ⟨o, ho, ?_⟩
    have := hlink o ho
    simp_all

theorem typeNamed? (ht : t.Sound) (hc : t.ChainIn chain) (name : Name) :
    u.typeNamed? name chain = t.typeNamed? name chain := by
  rw [SymbolTable.typeNamed?, SymbolTable.typeNamed?, h.ordinaryLookup hc, h.isParamIn hc,
    h.firstType? _ fun _ hd => ht.hasDecl_ordinaryLookup hd]

theorem typeOfValue? (ht : t.Sound) (hc : t.ChainIn chain) (name : Name) :
    u.typeOfValue? name chain = t.typeOfValue? name chain := by
  rw [SymbolTable.typeOfValue?, SymbolTable.typeOfValue?, h.ordinaryLookup hc,
    h.firstType? _ fun _ hd => ht.hasDecl_ordinaryLookup hd]

theorem membersNamed (ht : t.Sound) (hs : t.HasScope s) (name : Name) :
    u.membersNamed s name = t.membersNamed s name := by
  have hm : u.membersOf (.scope s) = t.membersOf (.scope s) := by
    rw [membersOf, membersOf, h.members fun r hr => by cases hr; exact hs]
  rw [SymbolTable.membersNamed, SymbolTable.membersNamed, hm]
  exact List.filter_congr fun d hd => by rw [h.decl (ht.hasDecl_membersOf (.inl hd))]

theorem memberType? (ht : t.Sound) (hs : t.HasScope s) (name : Name) :
    u.memberType? s name = t.memberType? s name := by
  rw [SymbolTable.memberType?, SymbolTable.memberType?, h.membersNamed ht hs]
  exact h.firstType? _ fun d hd => ht.hasDecl_membersOf (.inl (List.mem_filter.1 hd).1)

theorem scopeLinks (ht : t.Sound) (n : Nat) (hs : t.HasScope s) :
    u.scopeLinks n s = t.scopeLinks n s := by
  induction n generalizing s with
  | zero => rfl
  | succ n ih =>
    obtain ⟨e, he⟩ := hs.entry
    rw [SymbolTable.scopeLinks, SymbolTable.scopeLinks, h.scope hs, he, Option.bind_some]
    cases hp : e.parent with
    | none => rfl
    | some p => simp only [ih (ht.hasScope_parent he hp)]

theorem chainOfScope (ht : t.Sound) (hs : t.HasScope s) : u.chainOfScope s = t.chainOfScope s :=
  h.scopeLinks ht _ hs

end Extends

/-! ## Chains of blocks -/

theorem ownerLinks_in (ht : t.Sound) (hb : t.BlocksIn) (n : Nat) {o : Owner}
    (ho : ∀ s, o = .scope s → t.HasScope s) : t.ChainIn (t.ownerLinks n o) := by
  induction n generalizing o with
  | zero =>
    cases o with
    | scope s => exact chainOfScope_in ht (ho s rfl)
    | block b => exact fun s hs => absurd hs List.not_mem_nil
  | succ n ih =>
    cases o with
    | scope s => exact chainOfScope_in ht (ho s rfl)
    | block b =>
      intro s hs
      rw [ownerLinks, List.mem_cons] at hs
      rcases hs with hs | hs
      · cases hs
      · cases he : t.block? b with
        | none =>
          rw [he] at hs
          exact absurd hs List.not_mem_nil
        | some e =>
          rw [he] at hs
          exact ih (fun s hs => hb b e s he hs) s hs

theorem chainAt_in (ht : t.Sound) (hb : t.BlocksIn) (b : BlockId) : t.ChainIn (t.chainAt b) :=
  ownerLinks_in ht hb _ fun s hs => by cases hs

theorem Extends.ownerLinks (h : t.Extends u) (ht : t.Sound) (hb : t.BlocksIn) (n : Nat) {o : Owner}
    (ho : ∀ s, o = .scope s → t.HasScope s) : u.ownerLinks n o = t.ownerLinks n o := by
  induction n generalizing o with
  | zero =>
    cases o with
    | scope s => exact h.chainOfScope ht (ho s rfl)
    | block b => rfl
  | succ n ih =>
    cases o with
    | scope s => exact h.chainOfScope ht (ho s rfl)
    | block b =>
      rw [SymbolTable.ownerLinks, SymbolTable.ownerLinks, h.block b]
      cases he : t.block? b with
      | none => rfl
      | some e => simp only [ih fun s hs => hb b e s he hs]

theorem Extends.chainAt (h : t.Extends u) (ht : t.Sound) (hb : t.BlocksIn) (b : BlockId) :
    u.chainAt b = t.chainAt b := by
  rw [SymbolTable.chainAt, SymbolTable.chainAt, h.blocks]
  exact h.ownerLinks ht hb _ fun s hs => by cases hs

end NameLookup.SymbolTable
