import NameLookup.SymbolTable.Chain
import NameLookup.Proofs.SymbolTable.Ordering

/-!
# The way out to the global namespace

`Walk t o chain`: going from `o` to what it stands in, on and on until there is nothing more, one
comes to the links of `chain`. Nothing bounds how many there are, and a table in which a scope stood
in itself would have no walk from there. In an ordered table the numbers of the links decrease
(`Walk.descends`), so each walk ends, at the global namespace; the chains of scopes and blocks, for
which a bound is set, are these walks (`Ordered.walksOut_chainOfScope`, `Ordered.walksOut_chainAt`).
-/

set_option autoImplicit false

namespace NameLookup.SymbolTable

/-- What a scope or block stands in. -/
def around? (t : SymbolTable) : Owner → Option Owner
  | .scope s => ((t.scope? s).bind (·.parent)).map .scope
  | .block b => (t.block? b).map (·.parent)

/-- The links from an owner outwards, up to one that stands in nothing. -/
inductive Walk (t : SymbolTable) : Owner → ScopeChain → Prop
  | last {o : Owner} (h : t.around? o = none) : Walk t o [o]
  | step {o o' : Owner} {chain : ScopeChain} (h : t.around? o = some o') (rest : Walk t o' chain) :
      Walk t o (o :: chain)

/-- There is one walk from `o`, and this is `chain`: it comes to no link twice, and at last to the
global namespace. -/
structure WalksOut (t : SymbolTable) (o : Owner) (chain : ScopeChain) : Prop where
  walk : ∀ links, t.Walk o links ↔ links = chain
  nodup : chain.Nodup
  last : chain.getLast? = some (.scope global)

/-- A number for each owner: what an owner stands in has a smaller one. Scopes come before blocks. -/
def rank (t : SymbolTable) : Owner → Nat
  | .scope s => s.index
  | .block b => t.scopes.size + b.index

variable {t : SymbolTable} {o o' : Owner} {chain links : ScopeChain} {s : ScopeId} {b : BlockId}

theorem HasOwner.block (h : t.HasOwner (.block b)) : ∃ e, t.block? b = some e :=
  ⟨_, Array.getElem?_eq_getElem h⟩

theorem ownerLinks_scope (n : Nat) : t.ownerLinks n (.scope s) = t.chainOfScope s := by
  cases n <;> rfl

theorem Walk.unique (h : t.Walk o chain) (h' : t.Walk o links) : links = chain := by
  induction h generalizing links with
  | last hnone =>
    cases h' with
    | last => rfl
    | step hsome => cases hnone.symm.trans hsome
  | step hsome _ ih =>
    cases h' with
    | last hnone => cases hnone.symm.trans hsome
    | step hsome' rest =>
      cases hsome.symm.trans hsome'
      rw [ih rest]

namespace Ordered

variable (h : t.Ordered)
include h

/-- What an owner stands in exists and has a smaller number. -/
theorem around?_lt (ho : t.HasOwner o) (ha : t.around? o = some o') :
    t.HasOwner o' ∧ t.rank o' < t.rank o := by
  cases o with
  | scope s =>
    obtain ⟨p, hp, rfl⟩ := Option.map_eq_some_iff.1 ha
    obtain ⟨e, he, hp⟩ := Option.bind_eq_some_iff.1 hp
    have hlt := h.parent_lt he hp
    exact ⟨Nat.lt_trans hlt ho, hlt⟩
  | block b =>
    obtain ⟨e, he, rfl⟩ := Option.map_eq_some_iff.1 ha
    cases hp : e.parent with
    | scope s =>
      have hs : t.HasScope s := h.blocksIn b e s he hp
      exact ⟨hs, Nat.lt_of_lt_of_le hs (Nat.le_add_right _ _)⟩
    | block b' =>
      have hlt := h.block_lt he hp
      exact ⟨Nat.lt_trans hlt ho, Nat.add_lt_add_left hlt _⟩

/-- Only the global namespace stands in nothing. -/
theorem eq_global (ho : t.HasOwner o) (ha : t.around? o = none) : o = .scope global := by
  cases o with
  | scope s =>
    obtain ⟨e, he⟩ := HasScope.entry ho
    rw [around?, he, Option.bind_some, Option.map_eq_none_iff] at ha
    rw [h.root he ha]
  | block b =>
    obtain ⟨e, he⟩ := ho.block
    rw [around?, he] at ha
    cases ha

end Ordered

/-- Along a walk the numbers decrease. -/
theorem Walk.descends (hw : t.Walk o chain) (h : t.Ordered) (ho : t.HasOwner o) :
    (∀ x ∈ chain, t.rank x ≤ t.rank o) ∧ chain.Pairwise fun x y => t.rank y < t.rank x := by
  induction hw with
  | last _ =>
    exact ⟨fun x hx => Nat.le_of_eq (congrArg _ (List.mem_singleton.1 hx)),
      List.pairwise_singleton _ _⟩
  | @step o o' chain ha _ ih =>
    obtain ⟨ho', hlt⟩ := h.around?_lt ho ha
    obtain ⟨hle, hchain⟩ := ih ho'
    have hrest : ∀ x ∈ chain, t.rank x < t.rank o := fun x hx => Nat.lt_of_le_of_lt (hle x hx) hlt
    refine ⟨fun x hx => ?_, List.pairwise_cons.2 ⟨hrest, hchain⟩⟩
    rcases List.mem_cons.1 hx with rfl | hx
    · exact Nat.le_refl _
    · exact Nat.le_of_lt (hrest x hx)

theorem Walk.getLast? (hw : t.Walk o chain) (h : t.Ordered) (ho : t.HasOwner o) :
    chain.getLast? = some (.scope global) := by
  induction hw with
  | last ha => rw [h.eq_global ho ha, List.getLast?_singleton]
  | step ha rest ih =>
    have hlast := ih (h.around?_lt ho ha).1
    cases rest <;> rwa [List.getLast?_cons_cons]

/-- In an ordered table a walk is the only one from its owner and ends at the global namespace. -/
theorem Walk.walksOut (hw : t.Walk o chain) (h : t.Ordered) (ho : t.HasOwner o) :
    t.WalksOut o chain where
  walk _ := ⟨hw.unique, fun heq => heq ▸ hw⟩
  nodup := (hw.descends h ho).2.imp fun hlt heq => absurd (congrArg t.rank heq) (Nat.ne_of_gt hlt)
  last := hw.getLast? h ho

namespace Ordered

variable (h : t.Ordered)
include h

/-- A scope has no more links than its number allows for. -/
theorem walk_scopeLinks {n : Nat} (hn : s.index < n) : t.Walk (.scope s) (t.scopeLinks n s) := by
  induction n generalizing s with
  | zero => exact absurd hn (Nat.not_lt_zero _)
  | succ n ih =>
    rw [scopeLinks]
    cases hp : (t.scope? s).bind (·.parent) with
    | none => exact .last (by rw [around?, hp]; rfl)
    | some p =>
      obtain ⟨e, he, hpe⟩ := Option.bind_eq_some_iff.1 hp
      have hlt : p.index < s.index := h.parent_lt he hpe
      exact .step (by rw [around?, hp]; rfl) (ih (by omega))

theorem walk_chainOfScope (s : ScopeId) : t.Walk (.scope s) (t.chainOfScope s) :=
  h.walk_scopeLinks (Nat.lt_succ_self _)

theorem walk_ownerLinks {n : Nat} (hn : b.index < n) :
    t.Walk (.block b) (t.ownerLinks n (.block b)) := by
  induction n generalizing b with
  | zero => exact absurd hn (Nat.not_lt_zero _)
  | succ n ih =>
    rw [ownerLinks]
    cases he : t.block? b with
    | none => exact .last (by rw [around?, he]; rfl)
    | some e =>
      have ha : t.around? (.block b) = some e.parent := by rw [around?, he]; rfl
      refine .step ha ?_
      simp only
      cases hp : e.parent with
      | scope s =>
        rw [ownerLinks_scope]
        exact h.walk_chainOfScope s
      | block b' =>
        have hlt : b'.index < b.index := h.block_lt he hp
        exact ih (by omega)

theorem walksOut_chainOfScope (hs : t.HasScope s) : t.WalksOut (.scope s) (t.chainOfScope s) :=
  (h.walk_chainOfScope s).walksOut h hs

theorem walksOut_chainAt (hb : t.HasOwner (.block b)) : t.WalksOut (.block b) (t.chainAt b) :=
  (h.walk_ownerLinks (Nat.lt_succ_of_lt hb)).walksOut h hb

end Ordered

end NameLookup.SymbolTable
