import NameLookup.Proofs.SymbolTable.Closed
import NameLookup.Proofs.SymbolTable.Replicas

/-!
# Instances that are built later

What an instance is copied from is settled in the first closed table that has its template: the scopes
of the body exist there, and are the same ever after. So an instance that was built in a later table
is made of copies of what the earlier one holds (`Replicated.copiesSince`), and stays so in all tables
that come after.
-/

set_option autoImplicit false

namespace NameLookup.SymbolTable

open Relation

variable {t u v w : SymbolTable} {key : InstanceKey} {σ : Substitution} {made : Copies}
  {o c s r : ScopeId} {d d' : DeclId}

/-! ## The body in a later table -/

section
variable (h : t.Extends v)
include h

theorem Extends.standsIn_iff (hs : t.HasScope s) : v.StandsIn o s ↔ t.StandsIn o s := by
  rw [StandsIn, StandsIn, h.scope hs]

theorem Extends.nests_iff (hc : t.Closed) {e : Declaration} (hd : t.decl? d = some e) :
    v.Nests o e r ↔ t.Nests o e r :=
  and_congr_right fun _ => and_congr_right fun hty =>
    h.standsIn_iff (knows_scope.1 (hc.types hd hty))

theorem Extends.declaresNested_iff (ht : t.Sound) (hc : t.Closed) (ho : t.HasScope o) :
    v.DeclaresNested o r ↔ t.DeclaresNested o r := by
  obtain ⟨e, he⟩ := ho.entry
  have hmembers : v.membersOf (.scope o) = t.membersOf (.scope o) := by
    rw [membersOf_of_scope? (h.scope_some he), membersOf_of_scope? he]
  rw [DeclaresNested, DeclaresNested, hmembers]
  refine exists_congr fun d => and_congr_right fun hd => exists_congr fun e => ?_
  rw [h.decl (ht.hasDecl_membersOf (.inl hd))]
  exact and_congr_right fun hdecl => h.nests_iff hc hdecl

/-- The body of a scope of a closed table stays within the table. -/
theorem Extends.hasScope_inBody (ht : t.Sound) (hc : t.Closed) (hs : t.HasScope s)
    (ho : v.InBody s o) : t.HasScope o := by
  induction ho with
  | refl => exact hs
  | tail _ hr ih =>
    obtain ⟨e, he, -⟩ := ((h.declaresNested_iff ht hc ih).1 hr).standsIn
    exact hasScope_of_scope? he

/-! ## Copies made in a later table -/

theorem PlacedIn.since (hs : t.HasScope s) (hplace : PlacedIn v u c s r) : PlacedIn t u c s r := by
  obtain ⟨e, e', he, hrest⟩ := hplace
  exact ⟨e, e', (h.scope hs).symm.trans he, hrest⟩

theorem DeclCopy.since (hc : t.Closed) (hd : t.HasDecl d) (hcopy : DeclCopy v u σ made o c d d') :
    DeclCopy t u σ made o c d d' := by
  obtain ⟨e, type, he, he', htype⟩ := hcopy
  have he₀ : t.decl? d = some e := (h.decl hd).symm.trans he
  have hknown : ∀ r, e.type = some (.scope r) → t.HasScope r := fun r hr =>
    knows_scope.1 (hc.types he₀ hr)
  refine ⟨e, type, he₀, he', ?_⟩
  generalize e.type = ty at htype hknown
  cases htype with
  | own => exact .own
  | nested hkind hstands hmade hplace =>
    have hs := hknown _ rfl
    exact .nested hkind ((h.standsIn_iff hs).1 hstands) hmade (hplace.since h hs)
  | other hno =>
    refine .other fun r hr => (hno r hr).imp_right fun hno' => ?_
    exact mt (And.imp_right (h.standsIn_iff (hknown r hr)).2) hno'

theorem CopyOf.since (ht : t.Sound) (hc : t.Closed) (ho : t.HasScope o)
    (hcopy : CopyOf v u σ made o c) : CopyOf t u σ made o c := by
  obtain ⟨e, e', he, he', hname, hkind, hdecls, hreexports⟩ := hcopy
  have he₀ : t.scope? o = some e := (h.scope ho).symm.trans he
  have hin : ∀ d ∈ e.members.decls, t.HasDecl d := fun d hd =>
    ht.hasDecl_membersOf (.inl (by rwa [membersOf_of_scope? he₀]))
  refine ⟨e, e', he₀, he', hname, hkind, ?_, hreexports.imp fun r r' hr => ?_⟩
  · refine List.forall₂_iff_zip.2 ⟨hdecls.length_eq, fun {d d'} hd => ?_⟩
    exact (List.forall₂_zip hdecls hd).since h hc (hin d (List.of_mem_zip hd).1)
  · cases hr with
    | nested hnested hmade hplace =>
      have hnested₀ := (h.declaresNested_iff ht hc ho).1 hnested
      obtain ⟨n, hn, -⟩ := hnested₀.standsIn
      exact .nested hnested₀ hmade (hplace.since h (hasScope_of_scope? hn))
    | other hno => exact .other (mt (h.declaresNested_iff ht hc ho).2 hno)

end

/-- The scopes `made` of `w` are copies of scopes of `t` and have been added since. -/
structure CopiesSince (t w : SymbolTable) (σ : Substitution) (made : Copies) : Prop where
  extends_ : t.Extends w
  original : ∀ x ∈ made, t.HasScope x.1
  new : ∀ x ∈ made, ¬ t.HasScope x.2
  copies : ∀ x ∈ made, CopyOf t w σ made x.1 x.2

/-- An instance is made of copies of what its template was in any earlier table that is closed. -/
theorem Replicated.copiesSince {e : Scope} {params : List Name}
    (h : Replicated v u key s e params made) (ht : t.Sound) (hc : t.Closed)
    (hkey : t.HasScope key.template) (hv : t.Extends v) (hw : u.Extends w) :
    CopiesSince t w (.ofParams params key.args) made := by
  have horiginal : ∀ x ∈ made, t.HasScope x.1 := fun x hx =>
    hv.hasScope_inBody ht hc hkey (h.within x hx)
  refine ⟨(hv.trans h.extends_).trans hw, horiginal, fun x hx hnew => ?_, fun x hx => ?_⟩
  · exact h.not_hasScope_copy hx (hv.hasScope hnew)
  · exact ((h.copies x hx).extends_ hw fun _ h => h).since hv ht hc (horiginal x hx)

end NameLookup.SymbolTable
