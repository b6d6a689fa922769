import NameLookup.Proofs.SymbolTable.Bodies

/-!
# What an instance is made of

Copying a scope enters a copy of each scope in its body, and nothing else (`copyScope_replicates`).
So an instance comes with a list that pairs the scopes of the body of its template with their copies
(`Replicated`), which are all the scopes that were entered; each is a faithful copy of its original,
where references are redirected as the list says.
-/

set_option autoImplicit false

namespace NameLookup.SymbolTable

variable {t₀ t u v : SymbolTable} {σ : Substitution} {made made' : Copies}
  {o c s target : ScopeId} {lo : Nat}

/-! ## Copies made by a run -/

/-- Between `t` and `u` the copies `made` were entered, of scopes in the body of `o`. -/
structure Makes (t₀ : SymbolTable) (lo : Nat) (σ : Substitution) (o : ScopeId) (t u : SymbolTable)
    (made : Copies) : Prop where
  stage : Stage t₀ lo u
  scopes_le : t.scopes.size ≤ u.scopes.size
  entered : made.map Prod.snd = newScopes t u
  copies : ∀ x ∈ made, CopyOf t₀ u σ made x.1 x.2
  within : ∀ x ∈ made, t₀.InBody o x.1

namespace Makes

theorem nil (h : Stage t₀ lo t) : Makes t₀ lo σ o t t [] where
  stage := h
  scopes_le := Nat.le_refl _
  entered := (newScopes_self t).symm
  copies _ hx := absurd hx List.not_mem_nil
  within _ hx := absurd hx List.not_mem_nil

theorem not_hasScope (h : Makes t₀ lo σ o t u made) {x : ScopeId × ScopeId} (hx : x ∈ made) :
    ¬ t.HasScope x.2 := by
  have hnew : x.2 ∈ newScopes t u := h.entered ▸ List.mem_map_of_mem hx
  exact (mem_newScopes.1 hnew).1

theorem ne_of_hasScope (h : Makes t₀ lo σ o t u made) {x : ScopeId × ScopeId} (hx : x ∈ made)
    (hs : t.HasScope s) : x.2 ≠ s := fun heq => h.not_hasScope hx (heq ▸ hs)

/-- Filling an older scope does not affect the copies. -/
theorem fills (h : Makes t₀ lo σ o t u made) (hf : Fills target u v) (hstage : Stage t₀ lo v)
    (hsize : v.scopes.size = u.scopes.size) (htarget : t.HasScope target) :
    Makes t₀ lo σ o t v made where
  stage := hstage
  scopes_le := hsize ▸ h.scopes_le
  entered := by rw [h.entered, newScopes, newScopes, hsize]
  copies x hx := (h.copies x hx).fills hf (fun _ h => h) (h.ne_of_hasScope hx htarget)
  within := h.within

theorem append (h : Makes t₀ lo σ o t u made) (h' : Makes t₀ lo σ o u v made')
    (hf : Fills target u v) (htarget : t.HasScope target) :
    Makes t₀ lo σ o t v (made ++ made') where
  stage := h'.stage
  scopes_le := Nat.le_trans h.scopes_le h'.scopes_le
  entered := by
    rw [List.map_append, h.entered, h'.entered, newScopes_append h.scopes_le h'.scopes_le]
  copies x hx := by
    rcases List.mem_append.1 hx with hx | hx
    · exact (h.copies x hx).fills hf (List.subset_append_left _ _) (h.ne_of_hasScope hx htarget)
    · exact (h'.copies x hx).extends_ (.refl v) (List.subset_append_right _ _)
  within x hx := by
    rcases List.mem_append.1 hx with hx | hx
    · exact h.within x hx
    · exact h'.within x hx

theorem mono (h : Makes t₀ lo σ s t u made) (hs : t₀.DeclaresNested o s) :
    Makes t₀ lo σ o t u made :=
  { h with within := fun x hx => .head hs (h.within x hx) }

/-- Copies made after a new scope was entered are made along with it, if it is a copy itself. -/
theorem root {blank : Scope} (h : Makes t₀ lo σ o (t.allocScope blank).2 u made)
    (hroot : CopyOf t₀ u σ ((o, ⟨t.scopes.size⟩) :: made) o ⟨t.scopes.size⟩) :
    Makes t₀ lo σ o t u ((o, ⟨t.scopes.size⟩) :: made) where
  stage := h.stage
  scopes_le := Nat.le_trans ((Extends.refl t).allocScope blank).scopes_le h.scopes_le
  entered := by
    have hle := ((Extends.refl t).allocScope blank).scopes_le
    rw [List.map_cons, h.entered, ← newScopes_append hle h.scopes_le, newScopes_allocScope,
      List.singleton_append]
  copies := List.forall_mem_cons.2 ⟨hroot, fun x hx =>
    (h.copies x hx).extends_ (.refl u) (List.subset_cons_self _ _)⟩
  within := List.forall_mem_cons.2 ⟨.refl, h.within⟩

end Makes

/-! ## Redirected references -/

/-- The scopes declared among `ds` are looked up in `copies'` and found as members of `c`; the others
are looked up in `copies`. -/
structure Redirects (t₀ u : SymbolTable) (made : Copies) (o c : ScopeId) (ds : List DeclId)
    (copies copies' : Copies) : Prop where
  found : ∀ r, t₀.NestsAmong o ds r →
    ∃ r', copies'.lookup r = some r' ∧ (r, r') ∈ made ∧ PlacedIn t₀ u c r r'
  kept : ∀ r, ¬ t₀.NestsAmong o ds r → copies'.lookup r = copies.lookup r

theorem nestsAmong_cons {d : DeclId} {ds : List DeclId} :
    t.NestsAmong o (d :: ds) s ↔ t.NestsAmong o [d] s ∨ t.NestsAmong o ds s := by
  simp [NestsAmong]

theorem nestsAmong_singleton {d : DeclId} {e : Declaration} (he : t.decl? d = some e) :
    t.NestsAmong o [d] s ↔ t.Nests o e s := by
  constructor
  · rintro ⟨d', hd', e', he', hn⟩
    rw [List.mem_singleton.1 hd'] at he'
    cases he.symm.trans he'
    exact hn
  · exact fun hn => ⟨d, List.mem_singleton_self d, e, he, hn⟩

namespace Redirects

variable {d : DeclId} {ds : List DeclId} {copies copies₁ copies' : Copies}

/-- A declaration of no nested type redirects nothing. -/
theorem plain {e : Declaration} (he : t₀.decl? d = some e) (h : ∀ r, ¬ t₀.Nests o e r) :
    Redirects t₀ u [] o c [d] copies copies where
  found r hr := absurd ((nestsAmong_singleton he).1 hr) (h r)
  kept _ _ := rfl

theorem fills (h : Redirects t₀ t made o c ds copies copies') (hf : Fills target t u) :
    Redirects t₀ u made o c ds copies copies' where
  found r hr := by
    obtain ⟨r', hl, hmade, hplace⟩ := h.found r hr
    exact ⟨r', hl, hmade, hplace.fills hf⟩
  kept := h.kept

theorem cons (h : Redirects t₀ u made o c [d] copies copies₁)
    (h' : Redirects t₀ u made' o c ds copies₁ copies') :
    Redirects t₀ u (made ++ made') o c (d :: ds) copies copies' where
  found r hr := by
    by_cases hrest : t₀.NestsAmong o ds r
    · obtain ⟨r', hl, hmade, hplace⟩ := h'.found r hrest
      exact ⟨r', hl, List.mem_append_right _ hmade, hplace⟩
    · obtain ⟨r', hl, hmade, hplace⟩ := h.found r ((nestsAmong_cons.1 hr).resolve_right hrest)
      exact ⟨r', (h'.kept r hrest).trans hl, List.mem_append_left _ hmade, hplace⟩
  kept r hno := by
    rw [nestsAmong_cons, not_or] at hno
    exact (h'.kept r hno.2).trans (h.kept r hno.1)

/-- Re-exports are redirected by looking them up. -/
theorem reexportCopies (h : Redirects t₀ u made o c (t₀.membersOf (.scope o)).decls [] copies)
    (reexports : List ScopeId) : List.Forall₂ (ReexportCopy t₀ u made o c) reexports
      (reexports.map fun r => (copies.lookup r).getD r) := by
  refine List.forall₂_map_right_iff.2 (List.forall₂_same.2 fun r _ => ?_)
  by_cases hr : t₀.DeclaresNested o r
  · obtain ⟨r', hl, hmade, hplace⟩ := h.found r hr
    rw [hl]
    exact .nested hr hmade hplace
  · rw [h.kept r hr]
    exact .other hr

end Redirects

/-! ## Copying -/

/-- What is to be known of the way to copy nested scopes of `o` into `target`: it copies scopes that
exist, and of one that stands in `o` it makes copies of the whole body, which `body` lists. -/
def ReplicatesNested (t₀ : SymbolTable) (lo : Nat) (σ : Substitution) (o target : ScopeId)
    (body : ScopeId → List ScopeId) (copyNested : ScopeId → TableM InstantiationFault ScopeId) :
    Prop :=
  ∀ {s s' t u}, Stage t₀ lo t → t.HasScope target → copyNested s t = (.ok s', u) →
    t.HasScope s ∧ (t₀.StandsIn o s → ∃ made, Makes t₀ lo σ s t u made ∧ (s, s') ∈ made ∧
      t.Extends u ∧ PlacedIn t₀ u target s s' ∧ made.map Prod.fst = body s)

section
variable {copyNested : ScopeId → TableM InstantiationFault ScopeId} {body : ScopeId → List ScopeId}
  {copies copies' : Copies} (hsound : t₀.Sound) (ho : t₀.HasScope o) (hlo : lo ≤ o.index)
include hsound ho hlo

/-- Copying the type of a member copies the nested scope that it declares, if it does. -/
theorem copyType_replicates (hnested : ReplicatesNested t₀ lo σ o target body copyNested)
    (hstage : Stage t₀ lo t) (htarget : t.HasScope target) {d : DeclId} {e : Declaration}
    (hd : d ∈ (t₀.membersOf (.scope o)).decls) (he : t₀.decl? d = some e) {type : Option TypeExpr}
    (h : copyType copyNested o target σ e.kind copies e.type t = (.ok (type, copies'), u)) :
    ∃ made, Makes t₀ lo σ o t u made ∧ t.Extends u ∧
      TypeCopy t₀ u σ made o target e.kind e.type type ∧
      Redirects t₀ u made o target [d] copies copies' ∧
      made.map Prod.fst = (t₀.nestedAmong o [d]).flatMap body := by
  have hplain : (∀ r, ¬ t₀.Nests o e r) → t₀.nestedAmong o [d] = [] := fun h => by
    rw [nestedAmong, List.filterMap_cons_none (nests?_eq_none he h), List.filterMap_nil]
  by_cases hscope : ∃ s, e.type = some (.scope s)
  · obtain ⟨s, hs⟩ := hscope
    have hself : ∀ {r}, t₀.Nests o e r → r = s := fun hr => by
      cases hs.symm.trans hr.2.1
      rfl
    rw [hs, copyType_scope] at h
    rw [hs]
    split at h
    · next heq =>
      cases h
      subst heq
      have hno : ∀ r, ¬ t₀.Nests s e r := fun r hr =>
        hsound.not_standsIn_self _ (hself hr ▸ hr.2.2)
      exact ⟨[], .nil hstage, .refl t, .own, .plain he hno, by rw [hplain hno]; rfl⟩
    · next hne =>
      split at h
      · next hin =>
        rcases hc : copyNested s t with ⟨fault | s', t'⟩ <;> rw [hc] at h <;> cases h
        obtain ⟨hs', hcopy⟩ := hnested hstage htarget hc
        have hstands := (hstage.standsIn ho hlo hs').1 hin.2
        have hnests : t₀.Nests o e s := ⟨hin.1, hs, hstands⟩
        obtain ⟨made, hmakes, hmade, hext, hplace, hbody⟩ := hcopy hstands
        refine ⟨made, hmakes.mono ⟨d, hd, e, he, hnests⟩, hext, .nested hin.1 hstands hmade hplace,
          ⟨fun r hr => ?_, fun r hr => ?_⟩, ?_⟩
        · obtain rfl := hself ((nestsAmong_singleton he).1 hr)
          exact ⟨s', by rw [AssocList.lookup_cons, if_pos rfl], hmade, hplace⟩
        · have hne : r ≠ s := fun heq =>
            hr ((nestsAmong_singleton he).2 (heq ▸ hnests))
          rw [AssocList.lookup_cons, if_neg hne]
        · rw [hbody, nestedAmong, List.filterMap_cons_some ((nests?_iff he).2 hnests),
            List.filterMap_nil, List.flatMap_singleton]
      · next hno =>
        cases h
        have hplace : ¬ (e.kind = .nestedType ∧ t₀.StandsIn o s) := by
          rintro ⟨hkind, hstands⟩
          obtain ⟨n, hn, -⟩ := id hstands
          have hs' := hstage.extends_.hasScope (hasScope_of_scope? hn)
          exact hno ⟨hkind, (hstage.standsIn ho hlo hs').2 hstands⟩
        have hno' : ∀ r, ¬ t₀.Nests o e r := fun r hr => hplace (hself hr ▸ ⟨hr.1, hr.2.2⟩)
        refine ⟨[], .nil hstage, .refl t, .other fun r hr => ?_, .plain he hno',
          by rw [hplain hno']; rfl⟩
        cases hr
        exact ⟨hne, hplace⟩
  · rw [copyType_of_not_scope _ _ _ _ _ _ _ fun s hs => hscope ⟨s, hs⟩] at h
    cases h
    have hno : ∀ r, ¬ t₀.Nests o e r := fun r hr => hscope ⟨r, hr.2.1⟩
    exact ⟨[], .nil hstage, .refl t, .other fun s hs => absurd ⟨s, hs⟩ hscope, .plain he hno,
      by rw [hplain hno]; rfl⟩

/-- Copying one declaration lists its copy in `target`. -/
theorem copyDecl_replicates (hnew : ¬ t₀.HasScope target)
    (hnested : ReplicatesNested t₀ lo σ o target body copyNested) (hstage : Stage t₀ lo t) {e : Scope}
    (he : t.scope? target = some e) {d : DeclId} {decl : Declaration}
    (hd : d ∈ (t₀.membersOf (.scope o)).decls) (hdecl : t₀.decl? d = some decl)
    {type : Option TypeExpr}
    (h : copyType copyNested o target σ decl.kind copies decl.type t = (.ok (type, copies'), u))
    (hv : (u.declare { decl with owner := .scope target, type }).2 = v) :
    ∃ made, Makes t₀ lo σ o t v made ∧ Fills target t v ∧
      Redirects t₀ v made o target [d] copies copies' ∧
      v.scope? target = some { e with members := e.members.push decl.name ⟨u.decls.size⟩ } ∧
      DeclCopy t₀ v σ made o target d ⟨u.decls.size⟩ ∧
      made.map Prod.fst = (t₀.nestedAmong o [d]).flatMap body := by
  subst hv
  have htarget : t.HasScope target := hasScope_of_scope? he
  obtain ⟨made, hmakes, hext, htype, hredirects, hbody⟩ :=
    copyType_replicates hsound ho hlo hnested hstage htarget hd hdecl h
  have hf : Fills target u (u.declare { decl with owner := .scope target, type }).2 :=
    ((Extends.refl u).fills target).declare rfl
  refine ⟨made, hmakes.fills hf (hmakes.stage.declare rfl hnew) (scopes_size_declare u _) htarget,
    (hext.fills target).trans hf, hredirects.fills hf, ?_, ⟨decl, type, hdecl, ?_,
    htype.fills hf fun _ h => h⟩, hbody⟩
  · rw [scope?_declare, hext.scope htarget, he, Option.map_some, if_pos rfl]
  · rw [decl?_declare, if_pos rfl]

/-- Copying declarations one after the other fills `target` with their copies. -/
theorem copyDecls_replicates (hnew : ¬ t₀.HasScope target)
    (hnested : ReplicatesNested t₀ lo σ o target body copyNested) {ds : List DeclId}
    (hds : ∀ d ∈ ds, d ∈ (t₀.membersOf (.scope o)).decls) {e : Scope} (hstage : Stage t₀ lo t)
    (he : t.scope? target = some e)
    (h : copyDecls copyNested o target σ ds copies t = (.ok copies', u)) :
    ∃ made ms ds', Makes t₀ lo σ o t u made ∧ Fills target t u ∧
      Redirects t₀ u made o target ds copies copies' ∧
      u.scope? target = some { e with members := ms } ∧ ms.decls = e.members.decls ++ ds' ∧
      List.Forall₂ (DeclCopy t₀ u σ made o target) ds ds' ∧
      made.map Prod.fst = (t₀.nestedAmong o ds).flatMap body := by
  induction ds generalizing t e copies with
  | nil =>
    cases h
    refine ⟨[], e.members, [], .nil hstage, (Extends.refl _).fills _, ⟨?_, fun _ _ => rfl⟩, he,
      (List.append_nil _).symm, .nil, rfl⟩
    rintro r ⟨d, hd, -⟩
    exact absurd hd List.not_mem_nil
  | cons d ds ih =>
    obtain ⟨hd, hds⟩ := List.forall_mem_cons.1 hds
    rw [copyDecls_cons] at h
    cases hdecl : t.decl? d with
    | none =>
      rw [hdecl] at h
      cases h
    | some decl =>
      simp only [hdecl] at h
      have hdecl₀ : t₀.decl? d = some decl :=
        (hstage.extends_.decl (hsound.hasDecl_membersOf (.inl hd))).symm.trans hdecl
      rcases hc : copyType copyNested o target σ decl.kind copies decl.type t
        with ⟨fault | ⟨type, copies₁⟩, t₁⟩ <;> rw [hc] at h
      · cases h
      · obtain ⟨made, hmakes, hf, hredirects, he₁, hcopy, hbody⟩ :=
          copyDecl_replicates hsound ho hlo hnew hnested hstage he hd hdecl₀ hc rfl
        obtain ⟨made', ms, ds', hmakes', hf', hredirects', hms, hdecls, hcopies, hbody'⟩ :=
          ih hds hmakes.stage he₁ h
        refine ⟨made ++ made', ms, ⟨t₁.decls.size⟩ :: ds',
          hmakes.append hmakes' hf' (hasScope_of_scope? he), hf.trans hf',
          (hredirects.fills hf').cons hredirects', hms, ?_, .cons ?_ ?_, ?_⟩
        · rw [hdecls, Members.decls_push, List.append_assoc, List.singleton_append]
        · exact hcopy.fills hf' (List.subset_append_left _ _)
        · exact hcopies.imp fun _ _ hc =>
            hc.fills ((Extends.refl u).fills target) (List.subset_append_right _ _)
        · rw [List.map_append, hbody, hbody', ← List.flatMap_append, ← nestedAmong_append,
            List.singleton_append]

end

theorem hasScope_of_copyScope {room : Nat} {parent : Option ScopeId}
    {instanceOf : Option InstanceKey} (h : copyScope σ room o parent instanceOf t = (.ok c, u)) :
    t.HasScope o := by
  cases room with
  | zero =>
    rw [copyScope_zero] at h
    cases h
  | succ room =>
    rw [copyScope_succ] at h
    cases hsrc : t.scope? o with
    | none =>
      rw [hsrc] at h
      cases h
    | some src => exact hasScope_of_scope? hsrc

/-- Copying a scope enters copies of the scopes of its body, in the order of `bodyWithin`, and nothing
else. -/
theorem copyScope_replicates (hsound : t₀.Sound) {room : Nat} {parent : Option ScopeId}
    {instanceOf : Option InstanceKey} (hstage : Stage t₀ lo t) (ho : t₀.HasScope o)
    (hlo : lo ≤ o.index) (hparent : ∀ p, parent = some p → p.index < lo ∨ ¬ t₀.HasScope p)
    (h : copyScope σ room o parent instanceOf t = (.ok c, u)) :
    c = ⟨t.scopes.size⟩ ∧ ∃ made e ms rs, Makes t₀ lo σ o t u made ∧ (o, c) ∈ made ∧
      t.Extends u ∧ t₀.scope? o = some e ∧ u.scope? c = some ⟨e.name, e.kind, parent, ms,
        if instanceOf.isNone then e.templateParams else none, instanceOf, rs⟩ ∧
      made.map Prod.fst = t₀.bodyWithin room o := by
  induction room generalizing t o c u parent instanceOf with
  | zero =>
    rw [copyScope_zero] at h
    cases h
  | succ room ih =>
    obtain ⟨src, hsrc₀⟩ := ho.entry
    have hsrc : t.scope? o = some src := hstage.extends_.scope_some hsrc₀
    rw [copyScope_succ, hsrc] at h
    simp only at h
    let target : ScopeId := ⟨t.scopes.size⟩
    let blank : Scope := blankCopy src parent instanceOf
    have hnew : ¬ t₀.HasScope target := Nat.not_lt.2 hstage.extends_.scopes_le
    have hstage₁ : Stage t₀ lo (t.allocScope blank).2 := hstage.allocScope hparent
    have hblank : (t.allocScope blank).2.scope? target = some blank := by
      rw [scope?_allocScope, if_pos rfl]
    rw [← membersOf_of_scope? hsrc₀] at h
    rcases hc : copyDecls (fun s => copyScope σ room s (some target) none) o target σ
      (t₀.membersOf (.scope o)).decls [] (t.allocScope blank).2 with ⟨fault | copies, t'⟩ <;>
      rw [hc] at h <;> cases h
    -- the scopes nested in `o` are copied into `target`, which is not in `t₀`
    have hnested : ReplicatesNested t₀ lo σ o target (t₀.bodyWithin room) fun s =>
        copyScope σ room s (some target) none := by
      refine fun hstage' _ hrun => ⟨hasScope_of_copyScope hrun, ?_⟩
      rintro ⟨n, hn, hp⟩
      have hlt := hsound.parent_lt hn hp
      obtain ⟨-, made, n', ms, rs, hmakes, hmade, hext, hn', hcopy, hbody⟩ :=
        ih hstage' (hasScope_of_scope? hn) (by omega) (fun p hp => by cases hp; exact .inr hnew) hrun
      exact ⟨made, hmakes, hmade, hext, ⟨n', _, hn', hcopy, rfl, rfl, rfl⟩, hbody⟩
    obtain ⟨made, ms, ds', hmakes, hfills, hredirects, hms, hdecls, hcopies, hbody⟩ :=
      copyDecls_replicates hsound ho hlo hnew hnested (fun _ hd => hd) hstage₁ hblank hc
    let v : SymbolTable := t'.setReexports target (src.reexports.map fun r => (copies.lookup r).getD r)
    have hf : Fills target t' v := ((Extends.refl t').fills target).setReexports _
    have hmakes' : Makes t₀ lo σ o (t.allocScope blank).2 v made :=
      hmakes.fills hf (hmakes.stage.setReexports hnew _) (scopes_size_setReexports _ _ _)
        (hasScope_of_scope? hblank)
    have hv : v.scope? target = some { blank with
        members := ms, reexports := src.reexports.map fun r => (copies.lookup r).getD r } := by
      rw [scope?_setReexports, hms, Option.map_some, if_pos rfl]
    have hcopy : CopyOf t₀ v σ made o target := by
      refine ⟨src, _, hsrc₀, hv, rfl, rfl, ?_, (hredirects.fills hf).reexportCopies _⟩
      rw [hdecls, ← membersOf_of_scope? hsrc₀]
      exact hcopies.imp fun _ _ hd => hd.fills hf fun _ h => h
    have hroot := hcopy.extends_ (.refl v) (List.subset_cons_self (o, target) made)
    have hlisted : ((o, target) :: made).map Prod.fst = t₀.bodyWithin (room + 1) o := by
      rw [List.map_cons, hbody, bodyWithin, nestedTypes]
    exact ⟨rfl, (o, target) :: made, src, ms, _, hmakes'.root hroot, List.mem_cons_self,
      (hfills.trans hf).extends_ ((Extends.refl t).allocScope blank) (Nat.lt_irrefl _), hsrc₀, hv,
      hlisted⟩

/-! ## Instances -/

/-- In `u` the scope `s` is the instance of `key` as it was built in `t`, where the template is `e`
and has the parameters `params`; `made` pairs the scopes of the body with their copies. -/
structure Replicated (t u : SymbolTable) (key : InstanceKey) (s : ScopeId) (e : Scope)
    (params : List Name) (made : Copies) : Prop where
  template : t.scope? key.template = some e
  templateParams : e.templateParams = some params
  arity : params.length = key.args.length
  extends_ : t.Extends u
  fresh : s = ⟨t.scopes.size⟩
  placed : ∃ members reexports,
    u.scope? s = some ⟨e.name, e.kind, e.parent, members, none, some key, reexports⟩
  entered : made.map Prod.snd = newScopes t u
  root : (key.template, s) ∈ made
  copies : ∀ x ∈ made, CopyOf t u (.ofParams params key.args) made x.1 x.2
  within : ∀ x ∈ made, t.InBody key.template x.1

/-- An instance that was built is a copy of the body of its template, entered under its key. -/
theorem buildInstance_copyScope {key : InstanceKey} (h : buildInstance key t = (.ok s, u)) :
    ∃ e params v, t.scope? key.template = some e ∧ e.templateParams = some params ∧
      params.length = key.args.length ∧
      copyScope (.ofParams params key.args) t.instantiationLimit key.template e.parent (some key) t =
        (.ok s, v) ∧ u = { v with instances := (key, s) :: v.instances } := by
  rw [buildInstance_run] at h
  cases he : t.scope? key.template with
  | none =>
    rw [he] at h
    cases h
  | some e =>
    simp only [he] at h
    cases hparams : e.templateParams with
    | none =>
      rw [hparams] at h
      cases h
    | some params =>
      simp only [hparams] at h
      split at h
      · cases h
      · next harity =>
        rcases hc : copyScope (.ofParams params key.args) t.instantiationLimit key.template e.parent
          (some key) t with ⟨fault | s', v⟩ <;> rw [hc] at h <;> cases h
        exact ⟨e, params, v, rfl, hparams, not_not.1 harity, hc, rfl⟩

/-- An instance is made of copies of the scopes in the body of its template, made in the order of
`bodyWithin`. -/
theorem buildInstance_replicates_body (ht : t.Sound) {key : InstanceKey}
    (h : buildInstance key t = (.ok s, u)) : ∃ e params made, Replicated t u key s e params made ∧
      made.map Prod.fst = t.bodyWithin t.instantiationLimit key.template := by
  obtain ⟨e, params, v, he, hparams, harity, hc, rfl⟩ := buildInstance_copyScope h
  obtain ⟨hfresh, made, e', ms, rs, hmakes, hroot, hext, he', hs, hbody⟩ :=
    copyScope_replicates ht (.refl t key.template.index) (hasScope_of_scope? he) (Nat.le_refl _)
      (fun p hp => .inl (ht.parent_lt he hp)) hc
  obtain rfl : e = e' := Option.some.inj (he.symm.trans he')
  have hentered : v.Extends { v with instances := (key, s) :: v.instances } :=
    ⟨Nat.le_refl _, Nat.le_refl _, fun _ => rfl, fun _ => rfl, rfl, rfl⟩
  exact ⟨e, params, made, ⟨he, hparams, harity, hext.trans hentered, hfresh, ⟨ms, rs, hs⟩,
    hmakes.entered, hroot, fun x hx => (hmakes.copies x hx).extends_ hentered fun _ h => h,
    hmakes.within⟩, hbody⟩

theorem buildInstance_replicates (ht : t.Sound) {key : InstanceKey}
    (h : buildInstance key t = (.ok s, u)) : ∃ e params made, Replicated t u key s e params made := by
  obtain ⟨e, params, made, hr, -⟩ := buildInstance_replicates_body ht h
  exact ⟨e, params, made, hr⟩

namespace Replicated

variable {key : InstanceKey} {e : Scope} {params : List Name} (h : Replicated t u key s e params made)
include h

theorem mem_newScopes_iff : c ∈ newScopes t u ↔ ∃ o, (o, c) ∈ made := by
  rw [← h.entered, List.mem_map]
  constructor
  · rintro ⟨⟨o, c⟩, hmade, rfl⟩
    exact ⟨o, hmade⟩
  · rintro ⟨o, hmade⟩
    exact ⟨(o, c), hmade, rfl⟩

theorem not_hasScope_copy (hmade : (o, c) ∈ made) : ¬ t.HasScope c :=
  (mem_newScopes.1 (h.mem_newScopes_iff.2 ⟨o, hmade⟩)).1

/-- Every scope of the body has a copy. -/
theorem exists_copy (ht : t.Sound) (ho : t.InBody key.template o) : ∃ c, (o, c) ∈ made := by
  induction ho with
  | refl => exact ⟨s, h.root⟩
  | @tail o r _ hr ih =>
    obtain ⟨c, hmade⟩ := ih
    obtain ⟨e, e', he, -, -, -, hdecls, -⟩ := h.copies _ hmade
    obtain ⟨d, hd, decl, hdecl, hkind, htype, hstands⟩ := hr
    have hmembers : t.membersOf (.scope o) = e.members := membersOf_of_scope? he
    obtain ⟨d', -, decl', type, hdecl', -, hcopy⟩ := exists_of_mem_left hdecls (hmembers ▸ hd)
    cases hdecl.symm.trans hdecl'
    rw [htype] at hcopy
    cases hcopy with
    | own => exact absurd hstands (ht.not_standsIn_self _)
    | nested _ _ hmade' _ => exact ⟨_, hmade'⟩
    | other hno => exact absurd ⟨hkind, hstands⟩ (hno _ rfl).2

end Replicated

end NameLookup.SymbolTable
