import NameLookup.Proofs.SymbolTable.Texts
import NameLookup.Proofs.SymbolTable.Walks

/-!
# Spelling ends in ordered tables

In an ordered table a name needs only names of older scopes. So spelling always ends there, and
what comes of it are the texts that the table gives (`Ordered.spells`), just as the ways out from
scopes and blocks end (`Grounded.ways_end`).
-/

set_option autoImplicit false

namespace NameLookup.SymbolTable

/-- Whatever is spelled, spelling it ends, and with the text that the table gives. -/
structure Spells (t : SymbolTable) : Prop where
  names : ∀ s, ∃ parts, (∀ xs, t.NameParts s xs ↔ xs = parts) ∧
    t.qualifiedName s = joinSegments parts
  args : ∀ args texts, t.ArgTexts args texts ↔ texts = args.map t.spellType
  types : ∀ ty text, t.TypeText ty text ↔ text = t.spellType ty

variable {t : SymbolTable}

namespace Ordered

variable (h : t.Ordered)
include h

theorem index_lt_of_neededBy {r s : ScopeId} (hr : t.NeededBy r s) : r.index < s.index := by
  cases hr with
  | around he hparent => exact h.parent_lt he hparent
  | argument he _ hkey ha hr =>
    exact h.key_lt he hkey (TypeExpr.mem_mentions_apply.2 (.inr ⟨_, ha, hr⟩))

theorem acc_neededBy (s : ScopeId) : Acc t.NeededBy s :=
  (Subrelation.wf h.index_lt_of_neededBy (measure ScopeId.index).wf).apply s

theorem spellingEnds (ty : TypeExpr) : t.SpellingEnds ty :=
  spellingEnds_iff.2 fun s _ => h.acc_neededBy s

theorem spells : t.Spells := by
  have htypes : ∀ ty text, t.TypeText ty text ↔ text = t.spellType ty := fun ty =>
    typeText_iff_spellType fun s _ => h.acc_neededBy s
  exact ⟨fun s => ⟨_, nameParts_iff_segments (h.acc_neededBy s), rfl⟩,
    fun args => argTexts_iff fun a _ => htypes a, htypes⟩

theorem exists_nameParts (s : ScopeId) : ∃ parts, t.NameParts s parts :=
  ⟨_, (nameParts_iff_segments (h.acc_neededBy s) _).2 rfl⟩

theorem exists_ownerText (o : Owner) : ∃ text, t.OwnerText o text := by
  cases o with
  | scope s =>
    obtain ⟨parts, hparts⟩ := h.exists_nameParts s
    exact ⟨_, .scope hparts⟩
  | block b => exact ⟨_, .block b⟩

theorem exists_declText (d : DeclId) : ∃ text, t.DeclText d text := by
  cases he : t.decl? d with
  | none => exact ⟨_, .unknown he⟩
  | some e =>
    obtain ⟨owner, howner⟩ := h.exists_ownerText e.owner
    by_cases hglobal : owner = "::"
    · exact ⟨_, .inGlobal he (hglobal ▸ howner)⟩
    · exact ⟨_, .inside he howner hglobal⟩

end Ordered

/-! ## Grounded tables -/

/-- In a table that came about by operations on what there was, what a scope or block stands in and
what an instance was built for are older than it. So the ways out from blocks and scopes end at the
global namespace and come to no link twice, and names, arguments and types can be spelled to the
end; the chains and texts of the table are the ones so found. -/
theorem Grounded.ways_end (h : t.Grounded) :
    t.Ordered ∧ (∀ b, t.HasOwner (.block b) → t.WalksOut (.block b) (t.chainAt b)) ∧
      (∀ s, t.HasScope s → t.WalksOut (.scope s) (t.chainOfScope s)) ∧ t.Spells :=
  ⟨h.ordered, fun _ => h.ordered.walksOut_chainAt, fun _ => h.ordered.walksOut_chainOfScope,
    h.ordered.spells⟩

/-- The class template `Box` with the nested class `Node`, and its instances `Box<A>` and
`Box<Box<A>::Node>`. The nested class of the second one has a block with a block in it. -/
def boxOfNode : SymbolTable :=
  let t := (new defaultInstantiationLimit)
    |>.withScope global "Box" .classType (some ["P"])
    |>.withScope ⟨1⟩ "Node" .classType none
    |>.withScope global "A" .classType none
  let t := (instantiate ⟨⟨1⟩, [.scope ⟨3⟩]⟩ t).2
  let t := (instantiate ⟨⟨1⟩, [.scope ⟨5⟩]⟩ t).2
  ((t.addBlock (.scope ⟨7⟩)).2.addBlock (.block ⟨0⟩)).2

theorem boxOfNode_grounded : boxOfNode.Grounded := by
  have hbox := (((Grounded.new defaultInstantiationLimit).withScope global "Box" .classType
    (some ["P"])).withScope ⟨1⟩ "Node" .classType none).withScope global "A" .classType none
  have hfirst := hbox.change (.instantiate ⟨⟨1⟩, [.scope ⟨3⟩]⟩ (by decide))
  have hsecond := hfirst.change (.instantiate ⟨⟨1⟩, [.scope ⟨5⟩]⟩ (by decide +kernel))
  have hblock := hsecond.change (.addBlock (.scope ⟨7⟩) (by decide +kernel))
  exact hblock.change (.addBlock (.block ⟨0⟩) (by decide +kernel))

/-- The way out from the inner block has five links, and the nested class of the second instance is
spelled with both instances. -/
theorem ways_end_of_boxOfNode :
    (∀ links, boxOfNode.Walk (.block ⟨1⟩) links ↔
        links = [.block ⟨1⟩, .block ⟨0⟩, .scope ⟨7⟩, .scope ⟨6⟩, .scope global]) ∧
      ∀ text, boxOfNode.TypeText (.scope ⟨7⟩) text ↔ text = "Box<Box<A>::Node>::Node" := by
  obtain ⟨-, hblocks, -, hspells⟩ := boxOfNode_grounded.ways_end
  have hchain : boxOfNode.chainAt ⟨1⟩ =
      [.block ⟨1⟩, .block ⟨0⟩, .scope ⟨7⟩, .scope ⟨6⟩, .scope global] := by decide +kernel
  have htext : boxOfNode.spellType (.scope ⟨7⟩) = "Box<Box<A>::Node>::Node" := by decide +kernel
  exact ⟨hchain ▸ (hblocks ⟨1⟩ (by decide +kernel)).walk, htext ▸ hspells.types (.scope ⟨7⟩)⟩

end NameLookup.SymbolTable
