import Mathlib.Logic.Relation
import NameLookup.Proofs.Exports
import NameLookup.Proofs.SymbolTable.Ownership
import NameLookup.Proofs.SymbolTable.Spelling

/-!
# What exports consist of

`Collects t todo st st'` is the search for what is exported, without a bound on its depth: it turns
back only at scopes that it has reached before. The depth that is allowed is always enough for it,
so exports are what it collects (`collects_exportsOf`).

`Reexported t s r`: the scope `r` is `s` or is reached from it by re-exports. The search lists just
these scopes (`mem_reexportClosure`), so the exports of a scope are the importable members of all
that it re-exports (`mem_exportsOf`), whatever cycles there are and whether or not all the
re-exported scopes exist.

What is re-exported is not asked whether it is the generic body of a template
(`generic_exports`, `generic_body_exported`).
-/

set_option autoImplicit false

namespace NameLookup.SymbolTable

open Relation

/-- Whoever imports `s` also imports `r`. -/
def HandsOn (t : SymbolTable) (s r : ScopeId) : Prop := ∃ e, t.scope? s = some e ∧ r ∈ e.reexports

/-- `r` is `s`, or `s` hands it on through any number of others. -/
abbrev Reexported (t : SymbolTable) : ScopeId → ScopeId → Prop := ReflTransGen t.HandsOn

/-- The declaration is an importable member of a scope that is reached from `s`. -/
def Offers (t : SymbolTable) (s : ScopeId) (d : DeclId) : Prop :=
  ∃ r e decl, t.Reexported s r ∧ t.scope? r = some e ∧ t.decl? d = some decl ∧
    decl.owner = .scope r ∧ isImportable e.kind decl = true

/-- The scopes that `s` hands on, in order. -/
def reexportsOf (t : SymbolTable) (s : ScopeId) : List ScopeId :=
  ((t.scope? s).map (·.reexports)).getD []

/-- Searching the scopes of `todo` in turn, and from each the scopes that it hands on, takes the
scopes reached and the members collected so far from `st` to `st'`. Nothing bounds the depth of the
search; it turns back only at scopes that it has reached before. -/
inductive Collects (t : SymbolTable) :
    List ScopeId → List ScopeId × Members → List ScopeId × Members → Prop
  | done (st : List ScopeId × Members) : t.Collects [] st st
  | seen {s : ScopeId} {todo : List ScopeId} {st st' : List ScopeId × Members} (hs : s ∈ st.1)
      (rest : t.Collects todo st st') : t.Collects (s :: todo) st st'
  | visit {s : ScopeId} {todo : List ScopeId} {st mid st' : List ScopeId × Members} (hs : s ∉ st.1)
      (inner : t.Collects (t.reexportsOf s) (st.1 ++ [s], t.exportFrom st.2 s) mid)
      (rest : t.Collects todo mid st') : t.Collects (s :: todo) st st'

variable {t u : SymbolTable} {s r : ScopeId} {reached reached' mid todo : List ScopeId}

theorem mem_reexportsOf : r ∈ t.reexportsOf s ↔ t.HandsOn s r := by
  unfold reexportsOf HandsOn
  cases t.scope? s <;> simp

/-! ## The search -/

namespace Collects

variable {st st' st'' : List ScopeId × Members}

theorem unique (h : t.Collects todo st st') (h' : t.Collects todo st st'') : st'' = st' := by
  induction h generalizing st'' with
  | done st =>
    cases h'
    rfl
  | seen hs _ ih =>
    cases h' with
    | seen _ rest => exact ih rest
    | visit hs' _ _ => exact absurd hs hs'
  | visit hs _ _ ihinner ihrest =>
    cases h' with
    | seen hs' _ => exact absurd hs' hs
    | visit _ inner rest =>
      cases ihinner inner
      exact ihrest rest

/-- Searching one scope and then the others is searching them in turn. -/
theorem andThen (h : t.Collects [s] st st') (h' : t.Collects todo st' st'') :
    t.Collects (s :: todo) st st'' := by
  cases h with
  | seen hs hdone =>
    cases hdone
    exact .seen hs h'
  | visit hs inner hdone =>
    cases hdone
    exact .visit hs inner h'

/-- What was reached stays listed first. -/
theorem keeps (h : t.Collects todo st st') : st.1 <+: st'.1 := by
  induction h with
  | done st => exact List.prefix_rfl
  | seen _ _ ih => exact ih
  | visit _ _ _ ihinner ihrest => exact ((List.prefix_append _ _).trans ihinner).trans ihrest

theorem nodup (h : t.Collects todo st st') (hst : st.1.Nodup) : st'.1.Nodup := by
  induction h with
  | done st => exact hst
  | seen _ _ ih => exact ih hst
  | visit hs _ _ ihinner ihrest => exact ihrest (ihinner (List.concat_eq_append ▸ hst.concat hs))

end Collects

/-- The search reaches new scopes, after `reached`, and collects what they export in that order. -/
def CollectsFrom (t : SymbolTable) (todo reached reached' : List ScopeId) : Prop :=
  ∃ new, reached' = reached ++ new ∧
    ∀ m, t.Collects todo (reached, m) (reached', new.foldl t.exportFrom m)

namespace CollectsFrom

theorem collects (h : t.CollectsFrom todo reached reached') :
    ∃ m, t.Collects todo (reached, .empty) (reached', m) := by
  obtain ⟨new, -, hcollects⟩ := h
  exact ⟨_, hcollects .empty⟩

theorem nil (t : SymbolTable) (reached : List ScopeId) : t.CollectsFrom [] reached reached :=
  ⟨[], (List.append_nil reached).symm, fun _ => .done _⟩

theorem seen (hs : s ∈ reached) : t.CollectsFrom [s] reached reached :=
  ⟨[], (List.append_nil reached).symm, fun _ => .seen hs (.done _)⟩

theorem visit (hs : s ∉ reached) (h : t.CollectsFrom (t.reexportsOf s) (reached ++ [s]) reached') :
    t.CollectsFrom [s] reached reached' := by
  obtain ⟨new, rfl, hinner⟩ := h
  refine ⟨s :: new, List.append_assoc _ _ _, fun m => ?_⟩
  exact .visit hs (hinner (t.exportFrom m s)) (.done _)

/-- One search after the other. -/
theorem cons (h : t.CollectsFrom [s] reached mid) (h' : t.CollectsFrom todo mid reached') :
    t.CollectsFrom (s :: todo) reached reached' := by
  obtain ⟨new, rfl, hfirst⟩ := h
  obtain ⟨new', rfl, hrest⟩ := h'
  refine ⟨new ++ new', List.append_assoc _ _ _, fun m => ?_⟩
  rw [List.foldl_append]
  exact (hfirst m).andThen (hrest _)

end CollectsFrom

/-! ## The depth of the search -/

/-- How many of the scopes reached are scopes of the table. -/
def known (t : SymbolTable) (reached : List ScopeId) : Nat := reached.countP (t.HasScope ·)

theorem known_le (h : reached.Nodup) : t.known reached ≤ t.scopes.size := by
  rw [known, List.countP_eq_length_filter]
  exact length_le_of_nodup (h.filter _) fun s hs => of_decide_eq_true (List.mem_filter.1 hs).2

theorem known_append (hs : t.HasScope s) : t.known (reached ++ [s]) = t.known reached + 1 := by
  rw [known, List.countP_append, List.countP_singleton, if_pos (decide_eq_true hs), known]

namespace CollectsFrom

/-- What holds of the search from one scope holds of searching from several in turn. -/
theorem foldl {n : Nat}
    (hone : ∀ {reached s}, reached.Nodup → t.scopes.size < n + t.known reached →
      t.CollectsFrom [s] reached (t.reachFrom n reached s))
    (h : reached.Nodup) (hroom : t.scopes.size < n + t.known reached) :
    t.CollectsFrom todo reached (todo.foldl (t.reachFrom n) reached) := by
  induction todo generalizing reached with
  | nil => exact .nil t reached
  | cons r rs ih =>
    have hfirst : t.CollectsFrom [r] reached (t.reachFrom n reached r) := hone h hroom
    obtain ⟨m, hcollects⟩ := hfirst.collects
    have hle : t.known reached ≤ t.known (t.reachFrom n reached r) :=
      hcollects.keeps.sublist.countP_le
    exact hfirst.cons (ih (hcollects.nodup h) (by omega))

/-- Each level of the search lists another scope of the table, so a depth that exceeds the number of
those that are left is enough. -/
theorem reachFrom {n : Nat} (h : reached.Nodup) (hroom : t.scopes.size < n + t.known reached) :
    t.CollectsFrom [s] reached (t.reachFrom n reached s) := by
  induction n generalizing reached s with
  | zero =>
    have hle := known_le (t := t) h
    omega
  | succ n ih =>
    unfold SymbolTable.reachFrom
    by_cases hmem : s ∈ reached
    · rw [if_pos hmem]
      exact .seen hmem
    · rw [if_neg hmem]
      refine .visit hmem ?_
      unfold reexportsOf
      cases he : t.scope? s with
      | none => exact .nil t _
      | some e =>
        have hknown : t.known (reached ++ [s]) = t.known reached + 1 :=
          known_append (hasScope_of_scope? he)
        have hnodup : (reached ++ [s]).Nodup := List.concat_eq_append ▸ h.concat hmem
        exact .foldl ih hnodup (by omega)

end CollectsFrom

/-- The search from a scope ends, and has then collected its exports. -/
theorem collects_exportsOf (t : SymbolTable) (s : ScopeId) (kind : ScopeKind) :
    t.Collects [s] ([], .empty) (t.reexportClosure s, (t.exportsOf s kind).members) := by
  have h : t.CollectsFrom [s] [] (t.reexportClosure s) := .reachFrom .nil (Nat.lt_succ_self _)
  obtain ⟨new, hnew, hcollects⟩ := h
  rw [List.nil_append] at hnew
  have hrun := hcollects .empty
  rw [← hnew] at hrun
  exact hrun

/-! ## The scopes that are reached -/

/-- `reached'` is what a search from `todo` makes of the scopes that were reached before it. -/
structure Searched (t : SymbolTable) (reached todo reached' : List ScopeId) : Prop where
  keeps : reached <+: reached'
  nodup : reached'.Nodup
  covers : ∀ s ∈ todo, s ∈ reached'
  closed : ∀ q ∈ reached', q ∉ reached → ∀ r, t.HandsOn q r → r ∈ reached'
  sound : ∀ r ∈ reached', r ∈ reached ∨ ∃ s ∈ todo, t.Reexported s r

namespace Searched

theorem nil (h : reached.Nodup) : t.Searched reached [] reached where
  keeps := List.prefix_rfl
  nodup := h
  covers _ hs := absurd hs List.not_mem_nil
  closed _ hq hnew := absurd hq hnew
  sound _ hr := .inl hr

/-- A scope that was reached before is not searched again. -/
theorem seen (h : t.Searched reached todo reached') (hs : s ∈ reached) :
    t.Searched reached (s :: todo) reached' where
  keeps := h.keeps
  nodup := h.nodup
  covers := List.forall_mem_cons.2 ⟨h.keeps.subset hs, h.covers⟩
  closed := h.closed
  sound r hr := (h.sound r hr).imp_right fun ⟨q, hq, hqr⟩ => ⟨q, List.mem_cons_of_mem s hq, hqr⟩

/-- A new scope is searched by listing it and searching what it hands on. -/
theorem visit (h : t.Searched (reached ++ [s]) (t.reexportsOf s) mid)
    (h' : t.Searched mid todo reached') : t.Searched reached (s :: todo) reached' where
  keeps := ((List.prefix_append reached [s]).trans h.keeps).trans h'.keeps
  nodup := h'.nodup
  covers := by
    have hs : s ∈ mid := h.keeps.subset (List.mem_append_right _ (List.mem_singleton_self s))
    exact List.forall_mem_cons.2 ⟨h'.keeps.subset hs, h'.covers⟩
  closed q hq hnew r hr := by
    by_cases hmid : q ∈ mid
    · by_cases hqs : q = s
      · subst hqs
        exact h'.keeps.subset (h.covers r (mem_reexportsOf.2 hr))
      · refine h'.keeps.subset (h.closed q hmid (fun hmem => ?_) r hr)
        rcases List.mem_append.1 hmem with hmem | hmem
        · exact hnew hmem
        · exact hqs (List.mem_singleton.1 hmem)
    · exact h'.closed q hq hmid r hr
  sound r hr := by
    rcases h'.sound r hr with hr | ⟨q, hq, hqr⟩
    · rcases h.sound r hr with hr | ⟨q, hq, hqr⟩
      · rcases List.mem_append.1 hr with hr | hr
        · exact .inl hr
        · exact .inr ⟨s, List.mem_cons_self, List.mem_singleton.1 hr ▸ .refl⟩
      · exact .inr ⟨s, List.mem_cons_self, .head (mem_reexportsOf.1 hq) hqr⟩
    · exact .inr ⟨q, List.mem_cons_of_mem s hq, hqr⟩

end Searched

theorem Collects.searched {st st' : List ScopeId × Members} (h : t.Collects todo st st')
    (hst : st.1.Nodup) : t.Searched st.1 todo st'.1 := by
  induction h with
  | done st => exact .nil hst
  | seen hs _ ih => exact (ih hst).seen hs
  | visit hs inner _ ihinner ihrest =>
    have hnodup := List.concat_eq_append ▸ hst.concat hs
    exact (ihinner hnodup).visit (ihrest (inner.nodup hnodup))

theorem Searched.reachFrom {n : Nat} (h : reached.Nodup)
    (hroom : t.scopes.size < n + t.known reached) :
    t.Searched reached [s] (t.reachFrom n reached s) := by
  obtain ⟨m, hcollects⟩ := (CollectsFrom.reachFrom (s := s) h hroom).collects
  exact hcollects.searched h

theorem searched_reexportClosure (t : SymbolTable) (s : ScopeId) :
    t.Searched [] [s] (t.reexportClosure s) :=
  (collects_exportsOf t s .nameSpace).searched .nil

theorem mem_reexportClosure : r ∈ t.reexportClosure s ↔ t.Reexported s r := by
  have h := searched_reexportClosure t s
  constructor
  · intro hr
    rcases h.sound r hr with hr | ⟨q, hq, hqr⟩
    · exact absurd hr List.not_mem_nil
    · rwa [List.mem_singleton.1 hq] at hqr
  · intro hr
    induction hr with
    | refl => exact h.covers s (List.mem_singleton_self s)
    | tail _ hqr ih => exact h.closed _ ih List.not_mem_nil _ hqr

/-! ## Members of exports -/

/-- The members of a scope that can be imported. -/
def importables (t : SymbolTable) (s : ScopeId) : List DeclId :=
  (t.membersOf (.scope s)).decls.filter fun d =>
    (t.scope? s).any fun e => (t.decl? d).any (isImportable e.kind)

theorem decls_exportFrom (m : Members) (s : ScopeId) :
    (t.exportFrom m s).decls = m.decls ++ t.importables s := by
  unfold exportFrom importables
  cases hs : t.scope? s with
  | none => simp
  | some e =>
    rw [membersOf_of_scope? hs]
    simp only [Option.any_some]
    generalize e.members.decls = ds
    induction ds generalizing m with
    | nil => exact (List.append_nil _).symm
    | cons d ds ih =>
      rw [List.foldl_cons, ih, List.filter_cons]
      cases t.decl? d with
      | none => rfl
      | some decl => cases hi : isImportable e.kind decl <;> simp [hi]

theorem decls_foldl_exportFrom (m : Members) (rs : List ScopeId) :
    (rs.foldl t.exportFrom m).decls = m.decls ++ rs.flatMap t.importables := by
  induction rs generalizing m with
  | nil => exact (List.append_nil _).symm
  | cons r rs ih => rw [List.foldl_cons, ih, decls_exportFrom, List.flatMap_cons, List.append_assoc]

/-- Exports list the importable members of one reached scope after the other. -/
theorem decls_exportsOf (s : ScopeId) (kind : ScopeKind) :
    (t.exportsOf s kind).members.decls = (t.reexportClosure s).flatMap t.importables :=
  (decls_foldl_exportFrom .empty _).trans (List.nil_append _)

theorem Registered.mem_importables (h : t.Registered) {d : DeclId} :
    d ∈ t.importables r ↔ ∃ e decl, t.scope? r = some e ∧ t.decl? d = some decl ∧
      decl.owner = .scope r ∧ isImportable e.kind decl = true := by
  rw [importables, List.mem_filter, h.listed, mem_select, Option.any_eq_true]
  constructor
  · rintro ⟨⟨decl, hd, howner⟩, e, he, hi⟩
    rw [hd, Option.any_some] at hi
    exact ⟨e, decl, he, hd, of_decide_eq_true howner, hi⟩
  · rintro ⟨e, decl, he, hd, howner, hi⟩
    refine ⟨⟨decl, hd, decide_eq_true howner⟩, e, he, ?_⟩
    rw [hd, Option.any_some]
    exact hi

/-- The exports of a scope are the importable members of the scopes reached from it. -/
theorem Registered.mem_exportsOf (h : t.Registered) (kind : ScopeKind) {d : DeclId} :
    d ∈ (t.exportsOf s kind).members.decls ↔ t.Offers s d := by
  rw [decls_exportsOf, List.mem_flatMap]
  constructor
  · rintro ⟨r, hr, hd⟩
    obtain ⟨e, decl, he⟩ := h.mem_importables.1 hd
    exact ⟨r, e, decl, mem_reexportClosure.1 hr, he⟩
  · rintro ⟨r, e, decl, hr, he⟩
    exact ⟨r, mem_reexportClosure.2 hr, h.mem_importables.2 ⟨e, decl, he⟩⟩

/-- A declaration has one owner, so only that owner can bring it in. -/
theorem offers_iff_of_owner {d : DeclId} {e : Scope} {decl : Declaration} (he : t.scope? r = some e)
    (hd : t.decl? d = some decl) (howner : decl.owner = .scope r) :
    t.Offers s d ↔ t.Reexported s r ∧ isImportable e.kind decl = true := by
  constructor
  · rintro ⟨r', e', decl', hr, he', hd', howner', hi⟩
    cases hd.symm.trans hd'
    cases howner.symm.trans howner'
    cases he.symm.trans he'
    exact ⟨hr, hi⟩
  · rintro ⟨hr, hi⟩
    exact ⟨r, e, decl, hr, he, hd, howner, hi⟩

/-! ## Generic bodies among the exports -/

/-- The scope that is imported is not a generic body. Others come in only by re-exports: the members
of a generic body are exported just where they are importable and some scope that is reached hands
the body on. Where no such scope does, no export is owned by a generic body. -/
theorem generic_exports (ht : t.Reachable) {target : Target} {e : Exports}
    (h : targetExports target t = (.ok e, u)) :
    u.isTemplate e.scope = false ∧
    (∀ r body d decl, u.scope? r = some body → body.isTemplate = true → u.decl? d = some decl →
      decl.owner = .scope r →
      (d ∈ e.members.decls ↔
        isImportable body.kind decl = true ∧ ∃ q, u.Reexported e.scope q ∧ u.HandsOn q r)) ∧
    ((∀ q r, u.Reexported e.scope q → u.HandsOn q r → u.isTemplate r = false) →
      ∀ d ∈ e.members.decls, ∃ decl r, u.decl? d = some decl ∧ decl.owner = .scope r ∧
        u.isTemplate r = false) := by
  have hu : u.Registered := ht.registered.grows ((targetExports_growing target).of_run h)
  obtain ⟨entry, -, hentry, htemplate, he⟩ := targetExports_ok h
  have hmem : ∀ d, d ∈ e.members.decls ↔ u.Offers e.scope d := fun d => by
    rw [he]
    exact hu.mem_exportsOf entry.kind
  have hroot : u.isTemplate e.scope = false := by rw [isTemplate, hentry, Option.any_some, htemplate]
  have hbody : ∀ {r}, u.Reexported e.scope r → u.isTemplate r = true →
      ∃ q, u.Reexported e.scope q ∧ u.HandsOn q r := by
    intro r hr hgeneric
    rcases ReflTransGen.cases_tail hr with rfl | hlast
    · rw [hroot] at hgeneric
      cases hgeneric
    · exact hlast
  refine ⟨hroot, fun r body d decl hr hgeneric hd howner => ?_, fun hclean d hd => ?_⟩
  · rw [hmem, offers_iff_of_owner hr hd howner, and_comm]
    refine and_congr_right fun _ => ⟨fun hreached => hbody hreached ?_, ?_⟩
    · rw [isTemplate, hr, Option.any_some, hgeneric]
    · rintro ⟨q, hq, hqr⟩
      exact hq.tail hqr
  · obtain ⟨r, e', decl, hreached, hr, hdecl, howner, -⟩ := (hmem d).1 hd
    refine ⟨decl, r, hdecl, howner, ?_⟩
    cases hgeneric : u.isTemplate r with
    | false => rfl
    | true =>
      obtain ⟨q, hq, hqr⟩ := hbody hreached hgeneric
      rw [hclean q r hq hqr] at hgeneric
      cases hgeneric

/-- Class templates `Fixed<P>` with a static member `size` and `Box<P>` that re-exports `Fixed`, and a
namespace that re-exports `Fixed`. -/
def handedOn : SymbolTable :=
  (new defaultInstantiationLimit)
    |>.withScope global "Fixed" .classType (some ["P"])
    |>.withDecl ⟨"size", .staticData, .scope ⟨1⟩, none, none⟩
    |>.withScope global "Box" .classType (some ["P"])
    |>.withReexport ⟨2⟩ ⟨1⟩
    |>.withScope global "N" .nameSpace none
    |>.withReexport ⟨3⟩ ⟨1⟩

theorem handedOn_reachable : handedOn.Reachable :=
  ((((((Reachable.new _).withScope _ _ _ _).withDecl _).withScope _ _ _ _).withReexport _ _).withScope
    _ _ _ _).withReexport _ _

/-- `Box<int>` exports the `size` of `Fixed`: the instance re-exports what its template does. -/
theorem generic_exports_of_instance :
    ∃ e u, targetExports ⟨⟨2⟩, [.scalar "int"]⟩ handedOn = (.ok e, u) ∧ e.scope = ⟨4⟩ ∧
      u.isTemplate ⟨4⟩ = false ∧ u.isTemplate ⟨1⟩ = true ∧ ⟨1⟩ ∈ e.members.decls := by
  have hrun : (targetExports ⟨⟨2⟩, [.scalar "int"]⟩ handedOn).1 =
      .ok ⟨⟨4⟩, .classType, ⟨[⟨1⟩], [("size", [⟨1⟩])]⟩⟩ := by rfl
  obtain ⟨hroot, hbody, -⟩ := generic_exports handedOn_reachable (Attempt.run_of_fst hrun)
  refine ⟨_, _, Attempt.run_of_fst hrun, rfl, hroot, by rfl, ?_⟩
  refine (hbody ⟨1⟩ _ _ ⟨"size", .staticData, .scope ⟨1⟩, none, none⟩ (by rfl) rfl (by rfl) rfl).2
    ⟨rfl, _, .refl, _, by rfl, ?_⟩
  exact List.mem_singleton_self _

/-- Not every export is owned by something else than a generic body: the namespace of `handedOn`
exports the `size` of `Fixed`. -/
theorem generic_body_exported :
    ¬ ∀ (t u : SymbolTable) (target : Target) (e : Exports), t.Reachable →
      targetExports target t = (.ok e, u) →
      ∀ d ∈ e.members.decls, ∀ decl r, u.decl? d = some decl → decl.owner = .scope r →
        u.isTemplate r = false := by
  intro hall
  have hrun : (targetExports ⟨⟨3⟩, []⟩ handedOn).1 =
      .ok ⟨⟨3⟩, .nameSpace, ⟨[⟨1⟩], [("size", [⟨1⟩])]⟩⟩ := by rfl
  have hclean := hall handedOn _ _ _ handedOn_reachable (Attempt.run_of_fst hrun) ⟨1⟩
    (List.mem_singleton_self _) ⟨"size", .staticData, .scope ⟨1⟩, none, none⟩ ⟨1⟩ (by rfl) rfl
  have hgeneric : (targetExports ⟨⟨3⟩, []⟩ handedOn).2.isTemplate ⟨1⟩ = true := by rfl
  rw [hgeneric] at hclean
  cases hclean

end NameLookup.SymbolTable
