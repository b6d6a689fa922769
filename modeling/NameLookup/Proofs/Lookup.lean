import NameLookup.Lookup.Merge
import NameLookup.Proofs.SymbolTable.ChainStability

/-!
# Lookups at a point

Instances built later change no lookup (`Extends.lookupAt`): the chain of the point consists of
scopes that existed before, and what imports contribute is given.

What a lookup says of an import it has from that import: every import that an outcome `Names` is one
of those in force (`exists_of_names_lookupAt`), and the candidates of an import are among its
exports (`exists_of_mem_lookupAt`).
-/

set_option autoImplicit false

namespace NameLookup

/-- The import is the origin of a candidate, also of a hidden one or of an ambiguity, or is at
fault. -/
inductive LookupOutcome.Names (o : LookupOutcome) (id : ImportId) : Prop
  | candidate {c : Candidate} {s : ScopeId} (hc : c ∈ o.candidates ∨ c ∈ o.hidden)
      (horigin : c.origin = .imported id s)
  | ambiguous {origins : List Origin} {s : ScopeId} (hv : o.verdict = .ambiguous origins)
      (ho : .imported id s ∈ origins)
  | unresolved {fault : ImportFault} (hf : (id, fault) ∈ o.unresolved)

namespace SymbolTable

variable {t u : SymbolTable} {name : Name}

namespace Extends

variable (h : t.Extends u)
include h

theorem ordinaryCandidates (ht : t.Sound) {chain : ScopeChain} (hc : t.ChainIn chain) :
    u.ordinaryCandidates name chain = t.ordinaryCandidates name chain := by
  unfold SymbolTable.ordinaryCandidates
  rw [h.ordinaryLookup hc]
  refine List.filterMap_congr fun d hd => ?_
  rw [h.decl (ht.hasDecl_ordinaryLookup hd)]

theorem associatedCandidates (ht : t.Sound) {s : ScopeId} (hs : t.HasScope s) :
    u.associatedCandidates name s = t.associatedCandidates name s := by
  obtain ⟨e, he⟩ := hs.entry
  unfold SymbolTable.associatedCandidates
  rw [h.scope_some he, he, h.membersNamed ht hs]
  simp only
  have hfilter : (t.membersNamed s name).filter (fun d => (u.decl? d).any (isImportable e.kind)) =
      (t.membersNamed s name).filter fun d => (t.decl? d).any (isImportable e.kind) := by
    refine List.filter_congr fun d hd => ?_
    rw [h.decl (ht.hasDecl_membersOf (.inl (List.mem_filter.1 hd).1))]
  rw [hfilter]

theorem lookupAt (ht : t.Sound) (hb : t.BlocksIn) {associated : AssociatedScopes} {p : Point}
    (has : ∀ s ∈ associated name p, t.HasScope s) (strict : Bool) (imports : List VisibleImport) :
    u.lookupAt strict associated imports name p = t.lookupAt strict associated imports name p := by
  have hordinary : u.ordinaryAt name p = t.ordinaryAt name p := by
    unfold ordinaryAt
    rw [h.chainAt ht hb, h.ordinaryCandidates ht (chainAt_in ht hb p.block)]
  have hfound : u.foundAt strict imports name p = t.foundAt strict imports name p := by
    unfold foundAt mergedAt
    rw [hordinary]
  have hassociated : (associated name p).flatMap (u.associatedCandidates name) =
      (associated name p).flatMap (t.associatedCandidates name) := by
    rw [List.flatMap_def, List.flatMap_def,
      List.map_congr_left fun s hs => h.associatedCandidates ht (has s hs)]
  have hcandidates : u.candidatesAt strict associated imports name p =
      t.candidatesAt strict associated imports name p := by
    unfold candidatesAt
    rw [hfound, hassociated]
  unfold SymbolTable.lookupAt verdictAt hiddenAt
  rw [hcandidates, hordinary]

end Extends

/-! ## Where candidates come from -/

theorem mem_distinctOrigins {cs : List Candidate} {o : Origin} :
    o ∈ distinctOrigins cs ↔ ∃ c ∈ cs, c.origin = o := by
  rw [distinctOrigins, List.mem_eraseDups, List.mem_map]

/-- Narrowing keeps the enumerators, and the candidates that are one of them. -/
theorem mem_narrowTo_iff {c : Candidate} {enumerators cs : List Candidate} :
    c ∈ narrowTo enumerators cs ↔
      c ∈ enumerators ∨ c ∈ cs ∧ ∃ e ∈ enumerators, e.decl = c.decl := by
  have hfold : ∀ es kept : List Candidate,
      c ∈ es.foldl (fun kept c => if c ∈ kept then kept else kept ++ [c]) kept ↔
        c ∈ es ∨ c ∈ kept := by
    intro es
    induction es with
    | nil => simp
    | cons e es ih =>
      intro kept
      rw [List.foldl_cons, ih, List.mem_cons]
      by_cases he : e ∈ kept
      · have hmem : c = e → c ∈ kept := fun heq => heq ▸ he
        rw [if_pos he]
        tauto
      · rw [if_neg he, List.mem_append, List.mem_singleton]
        tauto
  unfold narrowTo
  rw [hfold, List.mem_filter]
  simp

/-- The candidate is one that an import in force supplies. -/
def Supplied (imports : List VisibleImport) (name : Name) (c : Candidate) : Prop :=
  ∃ i ∈ imports, c ∈ i.candidates name

theorem supplied_of_mem {imports : List VisibleImport} {chosen : VisibleImport → Bool}
    {c : Candidate} (h : c ∈ (imports.filter chosen).flatMap (·.candidates name)) :
    Supplied imports name c := by
  obtain ⟨i, hi, hc⟩ := List.mem_flatMap.1 h
  exact ⟨i, (List.mem_filter.1 hi).1, hc⟩

/-- An import supplies its exports of that name. -/
theorem mem_candidates_iff {i : VisibleImport} {c : Candidate} :
    c ∈ i.candidates name ↔ ∃ e, i.contribution = .ready e ∧
      c.origin = .imported i.id e.scope ∧ c.decl ∈ e.members.named name := by
  obtain ⟨d, o⟩ := c
  unfold VisibleImport.candidates VisibleImport.exports?
  cases i.contribution with
  | pending | failed => simp
  | ready e => simp [and_comm, eq_comm]

/-- A supplied candidate is one of the exports of an import in force. -/
theorem Supplied.exports {imports : List VisibleImport} {c : Candidate}
    (h : Supplied imports name c) : ∃ i ∈ imports, ∃ e, i.contribution = .ready e ∧
      c.origin = .imported i.id e.scope ∧ c.decl ∈ e.members.named name := by
  obtain ⟨i, hi, hc⟩ := h
  exact ⟨i, hi, mem_candidates_iff.1 hc⟩

/-- What the chain has is found in the chain. -/
theorem mem_ordinaryCandidates {chain : ScopeChain} {c : Candidate}
    (h : c ∈ t.ordinaryCandidates name chain) :
    c.decl ∈ t.ordinaryLookup name chain ∧ ∃ o, c.origin = .ordinary o := by
  obtain ⟨d, hd, hc⟩ := List.mem_filterMap.1 h
  obtain ⟨e, -, rfl⟩ := Option.map_eq_some_iff.1 hc
  exact ⟨hd, e.owner, rfl⟩

/-- A candidate that an associated scope has is an importable member of it. -/
theorem mem_associatedCandidates {s : ScopeId} {c : Candidate}
    (h : c ∈ t.associatedCandidates name s) :
    c.origin = .associated s ∧ ∃ e decl, t.scope? s = some e ∧ c.decl ∈ e.members.decls ∧
      t.decl? c.decl = some decl ∧ isImportable e.kind decl = true := by
  unfold associatedCandidates at h
  cases hs : t.scope? s with
  | none =>
    rw [hs] at h
    exact absurd h List.not_mem_nil
  | some e =>
    rw [hs] at h
    obtain ⟨d, hd, rfl⟩ := List.mem_map.1 h
    obtain ⟨hd, himportable⟩ := List.mem_filter.1 hd
    obtain ⟨decl, hdecl, hi⟩ := (Option.any_eq_true _ _).1 himportable
    rw [membersNamed, membersOf_of_scope? hs] at hd
    exact ⟨rfl, e, decl, rfl, (List.mem_filter.1 hd).1, hdecl, hi⟩

section
variable {strict : Bool} {associated : AssociatedScopes} {imports : List VisibleImport} {p : Point}

theorem mem_mergedAt {c : Candidate} (h : c ∈ t.mergedAt imports name p) :
    Supplied imports name c ∨ c ∈ t.ordinaryAt name p := by
  rcases List.mem_append.1 h with h | h
  · split at h
    · exact .inl (supplied_of_mem h)
    · exact .inr h
  · exact .inl (supplied_of_mem h)

theorem mem_foundAt {c : Candidate} (h : c ∈ t.foundAt strict imports name p) :
    Supplied imports name c ∨ c ∈ t.ordinaryAt name p := by
  unfold foundAt at h
  split at h
  · rcases mem_narrowTo_iff.1 h with h | ⟨h, -⟩
    · exact .inl (supplied_of_mem h)
    · exact mem_mergedAt h
  · exact mem_mergedAt h

/-- Candidates come from imports, from the chain or from associated scopes. -/
theorem mem_candidatesAt {c : Candidate} (h : c ∈ t.candidatesAt strict associated imports name p) :
    Supplied imports name c ∨ c ∈ t.ordinaryAt name p ∨
      ∃ s ∈ associated name p, c ∈ t.associatedCandidates name s := by
  unfold candidatesAt at h
  split at h
  · exact .inr (.inr (List.mem_flatMap.1 h))
  · exact (mem_foundAt h).imp_right .inl

theorem mem_hiddenAt {c : Candidate} (h : c ∈ t.hiddenAt strict imports name p) :
    Supplied imports name c := by
  unfold hiddenAt at h
  split at h
  · exact absurd h List.not_mem_nil
  · exact supplied_of_mem (List.mem_filter.1 h).1

/-- What the chain does not declare, hidden or not, comes from imports or from associated scopes. -/
theorem supplied_or_associated {c : Candidate}
    (h : c ∈ (t.lookupAt strict associated imports name p).candidates ∨
      c ∈ (t.lookupAt strict associated imports name p).hidden)
    (horigin : ∀ o, c.origin ≠ .ordinary o) :
    Supplied imports name c ∨ ∃ s ∈ associated name p, c ∈ t.associatedCandidates name s := by
  rcases h with h | h
  · rcases mem_candidatesAt h with h | h | h
    · exact .inl h
    · obtain ⟨-, o, ho⟩ := mem_ordinaryCandidates h
      exact absurd ho (horigin o)
    · exact .inr h
  · exact .inl (mem_hiddenAt h)

/-- An imported candidate is one of the exports of an import in force. -/
theorem exists_of_mem_lookupAt {c : Candidate} {id : ImportId} {s : ScopeId}
    (h : c ∈ (t.lookupAt strict associated imports name p).candidates ∨
      c ∈ (t.lookupAt strict associated imports name p).hidden)
    (horigin : c.origin = .imported id s) :
    ∃ i ∈ imports, i.id = id ∧ ∃ e, i.contribution = .ready e ∧ c.decl ∈ e.members.named name := by
  have hnot : ∀ o, c.origin ≠ .ordinary o := fun o ho => by cases horigin.symm.trans ho
  rcases supplied_or_associated h hnot with h | ⟨r, -, h⟩
  · obtain ⟨i, hi, e, he, hsupplied, hd⟩ := h.exports
    cases horigin.symm.trans hsupplied
    exact ⟨i, hi, rfl, e, he, hd⟩
  · cases horigin.symm.trans (mem_associatedCandidates h).1

/-- A verdict that is not put off is that of the candidates. -/
theorem verdictAt_of_ne_deferred
    (h : t.verdictAt strict associated imports name p ≠ .deferred) :
    t.verdictAt strict associated imports name p =
      .ofCandidates (t.candidatesAt strict associated imports name p) := by
  unfold verdictAt at h ⊢
  split
  · next hwaits =>
    rw [if_pos hwaits] at h
    exact absurd rfl h
  · rfl

/-- The routes of an ambiguity are those of the candidates, each once. -/
theorem origins_of_ambiguous {origins : List Origin}
    (h : t.verdictAt strict associated imports name p = .ambiguous origins) :
    origins = distinctOrigins (t.candidatesAt strict associated imports name p) := by
  have hcandidates : Verdict.ofCandidates (t.candidatesAt strict associated imports name p) =
      .ambiguous origins := by
    rw [← verdictAt_of_ne_deferred (by rw [h]; exact Verdict.noConfusion), h]
  unfold Verdict.ofCandidates at hcandidates
  split at hcandidates <;> cases hcandidates
  rfl

theorem exists_of_ambiguous_lookupAt {origins : List Origin} {o : Origin}
    (h : (t.lookupAt strict associated imports name p).verdict = .ambiguous origins)
    (ho : o ∈ origins) :
    ∃ c ∈ (t.lookupAt strict associated imports name p).candidates, c.origin = o := by
  rw [origins_of_ambiguous h] at ho
  exact mem_distinctOrigins.1 ho

/-- A lookup speaks of no other imports than those in force. -/
theorem exists_of_names_lookupAt {id : ImportId}
    (h : (t.lookupAt strict associated imports name p).Names id) : ∃ i ∈ imports, i.id = id := by
  cases h with
  | candidate hc horigin =>
    obtain ⟨i, hi, hid, -⟩ := exists_of_mem_lookupAt hc horigin
    exact ⟨i, hi, hid⟩
  | ambiguous hv ho =>
    obtain ⟨c, hc, horigin⟩ := exists_of_ambiguous_lookupAt hv ho
    obtain ⟨i, hi, hid, -⟩ := exists_of_mem_lookupAt (.inl hc) horigin
    exact ⟨i, hi, hid⟩
  | unresolved hf =>
    obtain ⟨i, hi, hfault⟩ := List.mem_filterMap.1 hf
    unfold VisibleImport.fault? at hfault
    split at hfault <;> cases hfault
    exact ⟨i, hi, rfl⟩

end

end SymbolTable

end NameLookup
