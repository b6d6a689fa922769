import Mathlib.Algebra.Ring.Nat
import NameLookup.Proofs.SymbolTable.SelfContainment

/-!
# An instance mirrors its template

A fresh instance holds one copy of each scope in the body of its template, and each copy is a
faithful one (`instance_mirrors_body`). Nothing else is entered: as many scopes as the body has, and
as many declarations as its scopes have members. The declarations are counted through their owners,
since what is new belongs to a scope that is new (`Extends.newDecls_perm`).
-/

set_option autoImplicit false

namespace NameLookup.SymbolTable

/-- The declarations that were entered between `t` and `u`, oldest first. -/
def newDecls (t u : SymbolTable) : List DeclId :=
  (List.range' t.decls.size (u.decls.size - t.decls.size)).map DeclId.mk

variable {t u : SymbolTable} {key : InstanceKey} {s : ScopeId} {made : Copies}

theorem mem_newDecls {d : DeclId} : d ∈ newDecls t u ↔ ¬ t.HasDecl d ∧ u.HasDecl d := by
  obtain ⟨i⟩ := d
  simp only [newDecls, List.mem_map, List.mem_range'_1, DeclId.mk.injEq, exists_eq_right, HasDecl]
  omega

theorem newDecls_nodup (t u : SymbolTable) : (newDecls t u).Nodup :=
  List.Nodup.map (fun _ _ h => congrArg DeclId.index h) List.nodup_range'

theorem newScopes_nodup (t u : SymbolTable) : (newScopes t u).Nodup :=
  List.Nodup.map (fun _ _ h => congrArg ScopeId.index h) List.nodup_range'

theorem Registered.mem_membersOf (h : t.Registered) {o : Owner} {d : DeclId} :
    d ∈ (t.membersOf o).decls ↔ ∃ e, t.decl? d = some e ∧ e.owner = o := by
  rw [h.listed, mem_select]
  simp only [decide_eq_true_iff]

/-- What is declared anew is what the new scopes declare. -/
theorem Extends.newDecls_perm (h : t.Extends u) (ht : t.Sound) (htr : t.Registered)
    (hur : u.Registered) :
    (newDecls t u).Perm ((newScopes t u).flatMap fun c => (u.membersOf (.scope c)).decls) := by
  have hnodup : ((newScopes t u).flatMap fun c => (u.membersOf (.scope c)).decls).Nodup := by
    refine List.nodup_flatMap.2 ⟨fun c _ => hur.listed _ ▸ select_nodup u _, ?_⟩
    refine (newScopes_nodup t u).imp fun {c c'} hne d hd hd' => hne ?_
    obtain ⟨e, he, howner⟩ := hur.mem_membersOf.1 hd
    obtain ⟨e', he', howner'⟩ := hur.mem_membersOf.1 hd'
    cases he.symm.trans he'
    cases howner.symm.trans howner'
    rfl
  refine (List.perm_ext_iff_of_nodup (newDecls_nodup t u) hnodup).2 fun d => ?_
  rw [mem_newDecls, List.mem_flatMap]
  constructor
  · rintro ⟨hnew, hd⟩
    obtain ⟨e, he⟩ := hd.entry
    obtain ⟨c, howner, hc⟩ := h.owner_of_new ht hur he hnew
    obtain ⟨huc, hmem⟩ := hur.hasScope_owner he howner
    exact ⟨c, mem_newScopes.2 ⟨hc, huc⟩, hmem⟩
  · rintro ⟨c, hc, hd⟩
    obtain ⟨e, he, howner⟩ := hur.mem_membersOf.1 hd
    refine ⟨fun hold => ?_, hasDecl_of_decl? he⟩
    have hmem := htr.hasScope_owner ((h.decl hold).symm.trans he) howner
    exact (mem_newScopes.1 hc).1 hmem.1

namespace Replicated

variable {e : Scope} {params : List Name} (h : Replicated t u key s e params made)
include h

/-- As many scopes are entered as there are copies. -/
theorem scopes_size : u.scopes.size = t.scopes.size + made.length := by
  have hle := h.extends_.scopes_le
  have hlength := congrArg List.length h.entered
  simp only [newScopes, List.length_map, List.length_range'] at hlength
  omega

/-- As many declarations are entered as the originals have members. -/
theorem decls_size (ht : t.Sound) (htr : t.Registered) (hur : u.Registered) :
    u.decls.size =
      t.decls.size + (made.map fun x => (t.membersOf (.scope x.1)).decls.length).sum := by
  have hle := h.extends_.decls_le
  have hperm := (h.extends_.newDecls_perm ht htr hur).length_eq
  have hcopies : (made.map fun x => (u.membersOf (.scope x.2)).decls.length) =
      made.map fun x => (t.membersOf (.scope x.1)).decls.length := by
    refine List.map_congr_left fun x hx => ?_
    obtain ⟨e, e', he, he', -, -, hdecls, -⟩ := h.copies x hx
    rw [membersOf_of_scope? he, membersOf_of_scope? he', hdecls.length_eq]
  rw [List.length_flatMap, ← h.entered, List.map_map] at hperm
  simp only [newDecls, List.length_map, List.length_range', Function.comp_def] at hperm
  rw [hcopies] at hperm
  omega

end Replicated

/-- Where the body of a template declares each nested type once, a fresh instance is made of one
faithful copy of each scope of the body. As many scopes and declarations are entered as the body
holds. -/
theorem instance_mirrors_body (ht : t.Reachable) (hnew : t.instance? key = none)
    (h : instantiate key t = (.ok s, u)) (honce : t.DeclaredOnce key.template) :
    ∃ e params made, Replicated t u key s e params made ∧
      (made.map Prod.fst).Nodup ∧ (∀ o, o ∈ made.map Prod.fst ↔ t.InBody key.template o) ∧
      u.scopes.size = t.scopes.size + made.length ∧
      u.decls.size =
        t.decls.size + (made.map fun x => (t.membersOf (.scope x.1)).decls.length).sum := by
  have hu : u.Reachable := ht.of_instantiate h
  rw [instantiate_run, hnew] at h
  obtain ⟨e, params, made, hr, hbody⟩ := buildInstance_replicates_body ht.sound h
  refine ⟨e, params, made, hr, hbody ▸ bodyWithin_nodup ht.sound honce _, fun o => ?_,
    hr.scopes_size, hr.decls_size ht.sound ht.registered hu.registered⟩
  constructor
  · intro ho
    obtain ⟨x, hx, rfl⟩ := List.mem_map.1 ho
    exact hr.within x hx
  · intro ho
    obtain ⟨c, hmade⟩ := hr.exists_copy ht.sound ho
    exact List.mem_map.2 ⟨(o, c), hmade, rfl⟩

/-- `Box<int>` is made of two copies, of `Box` and of `detail`, with one member each. -/
theorem instance_mirrors_boxOfDetail :
    ∃ u, instantiate ⟨⟨1⟩, [.scalar "int"]⟩ boxOfDetail = (.ok ⟨3⟩, u) ∧
      u.scopes.size = 5 ∧ u.decls.size = 5 ∧ ∃ e params made,
        Replicated boxOfDetail u ⟨⟨1⟩, [.scalar "int"]⟩ ⟨3⟩ e params made ∧ made.length = 2 := by
  have hrun : (instantiate ⟨⟨1⟩, [.scalar "int"]⟩ boxOfDetail).1 = .ok ⟨3⟩ := by rfl
  have honce : boxOfDetail.DeclaredOnce ⟨1⟩ := fun p hp => by
    rcases boxOfDetail_inBody hp with rfl | rfl <;> decide
  obtain ⟨e, params, made, hr, -, -, hscopes, -⟩ :=
    instance_mirrors_body boxOfDetail_reachable (by rfl) (Attempt.run_of_fst hrun) honce
  refine ⟨_, Attempt.run_of_fst hrun, by rfl, by rfl, e, params, made, hr, ?_⟩
  have hsize : 5 = 3 + made.length := hscopes
  omega

end NameLookup.SymbolTable
