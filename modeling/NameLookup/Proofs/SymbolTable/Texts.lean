import Mathlib.Logic.Relation
import NameLookup.Proofs.SymbolTable.Spelling

/-!
# Texts

A qualified name goes outwards through the scopes around a scope, and an instance among them brings
in its arguments, each with a name of its own. `NameParts` and the relations that it is defined with
say what is written down on the way; nothing in them bounds how deep it goes or remembers which
scopes are being spelled, so there is a derivation just where spelling ends. It does not end for an
instance that is mentioned among its own arguments.

Where it ends, the text is the one that the table gives (`nameParts_iff_segments`,
`typeText_iff_spellType`). The induction is over the names that a name needs (`NeededBy`): as long as
it goes down along them, no scope comes up again.
-/

set_option autoImplicit false

namespace NameLookup.SymbolTable

open Relation

mutual

/-- The parts of the qualified name of a scope, outermost first. -/
inductive NameParts (t : SymbolTable) : ScopeId → List String → Prop
  | unknown {s : ScopeId} (h : t.scope? s = none) : NameParts t s []
  | entry {s : ScopeId} {e : Scope} {outer own : List String} (he : t.scope? s = some e)
      (houter : OuterParts t e.parent outer) (hown : OwnParts t e own) : NameParts t s (outer ++ own)

/-- The parts that come from the scope around, if there is one. -/
inductive OuterParts (t : SymbolTable) : Option ScopeId → List String → Prop
  | nowhere : OuterParts t none []
  | within {p : ScopeId} {outer : List String} (h : NameParts t p outer) :
      OuterParts t (some p) outer

/-- What a scope adds to the parts of the scopes around it. -/
inductive OwnParts (t : SymbolTable) : Scope → List String → Prop
  | unnamed {e : Scope} (hname : e.name = none) : OwnParts t e []
  | plain {e : Scope} {name : Name} (hname : e.name = some name) (hkey : e.instanceOf = none) :
      OwnParts t e [name]
  | applied {e : Scope} {name : Name} {key : InstanceKey} {texts : List String}
      (hname : e.name = some name) (hkey : e.instanceOf = some key)
      (hargs : ArgTexts t key.args texts) : OwnParts t e [name ++ TypeExpr.bracketed texts]

/-- Arguments in source form. -/
inductive ArgTexts (t : SymbolTable) : List TypeExpr → List String → Prop
  | nil : ArgTexts t [] []
  | cons {a : TypeExpr} {as : List TypeExpr} {text : String} {texts : List String}
      (ha : TypeText t a text) (has : ArgTexts t as texts) : ArgTexts t (a :: as) (text :: texts)

/-- A type in source form. -/
inductive TypeText (t : SymbolTable) : TypeExpr → String → Prop
  | scalar (n : Name) : TypeText t (.scalar n) n
  | named (n : Name) : TypeText t (.named n) n
  | param (n : Name) : TypeText t (.param n) n
  | scope {s : ScopeId} {parts : List String} (h : NameParts t s parts) :
      TypeText t (.scope s) (joinSegments parts)
  | apply {s : ScopeId} {args : List TypeExpr} {parts texts : List String} (h : NameParts t s parts)
      (hargs : ArgTexts t args texts) :
      TypeText t (.apply s args) (joinSegments parts ++ TypeExpr.bracketed texts)
  | member {base : TypeExpr} {n : Name} {text : String} (h : TypeText t base text) :
      TypeText t (.member base n) (text ++ "::" ++ n)

end

variable {t : SymbolTable}

/-! ## Types, given the names that they mention -/

theorem argTexts_iff {spell : TypeExpr → String} {args : List TypeExpr}
    (h : ∀ a ∈ args, ∀ text, t.TypeText a text ↔ text = spell a) (texts : List String) :
    t.ArgTexts args texts ↔ texts = args.map spell := by
  induction args generalizing texts with
  | nil =>
    constructor
    · rintro ⟨⟩
      rfl
    · rintro rfl
      exact .nil
  | cons a as ih =>
    have ha := h a List.mem_cons_self
    have has := ih fun b hb => h b (List.mem_cons_of_mem a hb)
    constructor
    · intro htexts
      cases htexts with
      | cons hx hxs => rw [(ha _).1 hx, (has _).1 hxs, List.map_cons]
    · rintro rfl
      exact .cons ((ha _).2 rfl) ((has _).2 rfl)

theorem typeText_iff {parts : ScopeId → List String} {ty : TypeExpr}
    (h : ∀ s ∈ ty.mentions, ∀ xs, t.NameParts s xs ↔ xs = parts s) (text : String) :
    t.TypeText ty text ↔ text = ty.spell fun s => joinSegments (parts s) := by
  induction ty using TypeExpr.induct generalizing text with
  | scalar n | named n | param n =>
    constructor
    · rintro ⟨⟩
      rfl
    · rintro rfl
      constructor
  | scope s =>
    have hs := h s (List.mem_singleton_self s)
    constructor
    · intro htext
      cases htext with
      | scope hparts => rw [(hs _).1 hparts, TypeExpr.spell]
    · rintro rfl
      exact .scope ((hs _).2 rfl)
  | apply s args ih =>
    obtain ⟨hs, hmentions⟩ := TypeExpr.forall_mentions_apply.1 h
    have hargs := argTexts_iff fun a ha => ih a ha (hmentions a ha)
    constructor
    · intro htext
      cases htext with
      | apply hparts htexts =>
        rw [(hs _).1 hparts, (hargs _).1 htexts, TypeExpr.spell, TypeExpr.spellAll_eq_map]
    · rintro rfl
      rw [TypeExpr.spell, TypeExpr.spellAll_eq_map]
      exact .apply ((hs _).2 rfl) ((hargs _).2 rfl)
  | member base n ih =>
    constructor
    · intro htext
      cases htext with
      | member hbase => rw [(ih h _).1 hbase, TypeExpr.spell]
    · rintro rfl
      exact .member ((ih h _).2 rfl)

theorem outerParts_iff {parts : ScopeId → List String} {parent : Option ScopeId}
    (h : ∀ p, parent = some p → ∀ xs, t.NameParts p xs ↔ xs = parts p) (xs : List String) :
    t.OuterParts parent xs ↔ xs = parent.elim [] parts := by
  cases parent with
  | none =>
    constructor
    · rintro ⟨⟩
      rfl
    · rintro rfl
      exact .nowhere
  | some p =>
    have hp := h p rfl xs
    constructor
    · intro houter
      cases houter with
      | within hparts => exact hp.1 hparts
    · exact fun heq => .within (hp.2 heq)

theorem ownParts_iff {parts : ScopeId → List String} {e : Scope}
    (h : ∀ name key, e.name = some name → e.instanceOf = some key → ∀ a ∈ key.args,
      ∀ s ∈ a.mentions, ∀ xs, t.NameParts s xs ↔ xs = parts s) (xs : List String) :
    t.OwnParts e xs ↔ xs = ownParts (fun s => joinSegments (parts s)) e := by
  rw [ownParts]
  cases hname : e.name with
  | none =>
    constructor
    · intro hown
      cases hown with
      | unnamed _ => rfl
      | plain hname' _ | applied hname' _ _ => cases hname.symm.trans hname'
    · rintro rfl
      exact .unnamed hname
  | some name =>
    cases hkey : e.instanceOf with
    | none =>
      constructor
      · intro hown
        cases hown with
        | unnamed hname' => cases hname.symm.trans hname'
        | plain hname' _ => cases hname.symm.trans hname'; rfl
        | applied _ hkey' _ => cases hkey.symm.trans hkey'
      · rintro rfl
        exact .plain hname hkey
    | some key =>
      have hargs := argTexts_iff fun a ha => typeText_iff (h name key hname hkey a ha)
      simp only [TypeExpr.spellAll_eq_map]
      constructor
      · intro hown
        cases hown with
        | unnamed hname' => cases hname.symm.trans hname'
        | plain _ hkey' => cases hkey.symm.trans hkey'
        | applied hname' hkey' htexts =>
          cases hname.symm.trans hname'
          cases hkey.symm.trans hkey'
          rw [(hargs _).1 htexts]
      · rintro rfl
        exact .applied hname hkey ((hargs _).2 rfl)

/-! ## Names that names need -/

/-- The name of the second scope needs that of the first: that of the scope around it, or of
one that it is an instance for. -/
inductive NeededBy (t : SymbolTable) : ScopeId → ScopeId → Prop
  | around {r s : ScopeId} {e : Scope} (he : t.scope? s = some e) (hparent : e.parent = some r) :
      NeededBy t r s
  | argument {r s : ScopeId} {e : Scope} {name : Name} {key : InstanceKey} {a : TypeExpr}
      (he : t.scope? s = some e) (hname : e.name = some name) (hkey : e.instanceOf = some key)
      (ha : a ∈ key.args) (hr : r ∈ a.mentions) : NeededBy t r s

mutual

/-- A name that is spelled to the end has come to the end of all that it needs. -/
theorem NameParts.acc {s : ScopeId} {xs : List String} : t.NameParts s xs → Acc t.NeededBy s
  | .unknown hnone => .intro s fun r hr => by
      cases hr with
      | around he _ | argument he _ _ _ _ => cases hnone.symm.trans he
  | .entry he houter hown => by
      have hparent := houter.acc
      have hargs := hown.acc
      refine .intro s fun r hr => ?_
      cases hr with
      | around he' hp =>
        cases he.symm.trans he'
        exact hparent r hp
      | argument he' hname hkey ha hr =>
        cases he.symm.trans he'
        exact hargs _ _ hname hkey _ ha r hr

theorem OuterParts.acc {parent : Option ScopeId} {xs : List String} :
    t.OuterParts parent xs → ∀ r, parent = some r → Acc t.NeededBy r
  | .within h, _, rfl => h.acc

theorem OwnParts.acc {e : Scope} {xs : List String} : t.OwnParts e xs → ∀ name key,
      e.name = some name → e.instanceOf = some key → ∀ a ∈ key.args, ∀ r ∈ a.mentions, Acc t.NeededBy r
  | .unnamed hnone, _, _, hname, _ => nomatch hnone.symm.trans hname
  | .plain _ hnone, _, _, _, hkey => nomatch hnone.symm.trans hkey
  | .applied _ hkey hargs, _, _, _, hkey' => by
      have hall := hargs.acc
      cases hkey.symm.trans hkey'
      exact hall

theorem ArgTexts.acc {args : List TypeExpr} {texts : List String} :
    t.ArgTexts args texts → ∀ a ∈ args, ∀ r ∈ a.mentions, Acc t.NeededBy r
  | .nil => List.forall_mem_nil _
  | .cons htext htexts => List.forall_mem_cons.2 ⟨htext.acc, htexts.acc⟩

/-- So it is with the names that a type mentions. -/
theorem TypeText.acc {ty : TypeExpr} {text : String} :
    t.TypeText ty text → ∀ r ∈ ty.mentions, Acc t.NeededBy r
  | .scalar _ | .named _ | .param _ => List.forall_mem_nil _
  | .scope h => List.forall_mem_singleton.2 h.acc
  | .apply h hargs => TypeExpr.forall_mentions_apply.2 ⟨h.acc, hargs.acc⟩
  | .member h => h.acc

end

/-- No name that is spelled to the end needs itself. -/
theorem not_transGen_neededBy_self {s : ScopeId} (h : Acc t.NeededBy s) :
    ¬ TransGen t.NeededBy s s := by
  have hall := h.transGen
  clear h
  intro hs
  induction hall with
  | intro s _ ih => exact ih s hs hs

/-! ## Texts of the table -/

/-- As long as the names of a path need that of `s`, it is none of them, and so there is depth
left. -/
theorem nameParts_iff {n : Nat} {path : List ScopeId} {s : ScopeId} (hacc : Acc t.NeededBy s)
    (hnodup : path.Nodup) (hin : ∀ r ∈ path, t.HasScope r)
    (hpath : ∀ r ∈ path, TransGen t.NeededBy s r) (hroom : t.scopes.size < n + path.length)
    (xs : List String) : t.NameParts s xs ↔ xs = t.segments n path s := by
  induction hacc generalizing n path xs with
  | intro s hbelow ih =>
    have hmem : s ∉ path := fun hmem =>
      not_transGen_neededBy_self (.intro s hbelow) (hpath s hmem)
    have hle := length_le_of_nodup hnodup hin
    obtain ⟨n, rfl⟩ : ∃ k, n = k + 1 := ⟨n - 1, by omega⟩
    cases he : t.scope? s with
    | none =>
      rw [segments, if_neg hmem, he]
      constructor
      · intro hparts
        cases hparts with
        | unknown _ => rfl
        | entry he' _ _ => cases he.symm.trans he'
      · rintro rfl
        exact .unknown he
    | some e =>
      have hneeded : ∀ r, t.NeededBy r s → ∀ xs,
          t.NameParts r xs ↔ xs = t.segments n (s :: path) r := by
        intro r hr
        refine ih r hr (List.nodup_cons.2 ⟨hmem, hnodup⟩)
          (List.forall_mem_cons.2 ⟨hasScope_of_scope? he, hin⟩)
          (List.forall_mem_cons.2 ⟨.single hr, fun q hq => .head hr (hpath q hq)⟩) ?_
        rw [List.length_cons]
        omega
      have hown := ownParts_iff fun name key hname hkey a ha r hr =>
        hneeded r (.argument he hname hkey ha hr)
      have houter := outerParts_iff fun p hp => hneeded p (.around he hp)
      rw [segments_succ hmem he]
      constructor
      · intro hparts
        cases hparts with
        | unknown hnone => cases he.symm.trans hnone
        | entry he' houter' hown' =>
          cases he.symm.trans he'
          rw [(houter _).1 houter', (hown _).1 hown']
      · rintro rfl
        exact .entry he ((houter _).2 rfl) ((hown _).2 rfl)

theorem nameParts_iff_segments {s : ScopeId} (h : Acc t.NeededBy s) (xs : List String) :
    t.NameParts s xs ↔ xs = t.segments (t.scopes.size + 1) [] s :=
  nameParts_iff h .nil (List.forall_mem_nil _) (List.forall_mem_nil _) (Nat.lt_succ_self _) xs

theorem typeText_iff_spellType {ty : TypeExpr} (h : ∀ r ∈ ty.mentions, Acc t.NeededBy r)
    (text : String) : t.TypeText ty text ↔ text = t.spellType ty :=
  typeText_iff (fun s hs => nameParts_iff_segments (h s hs)) text

theorem NameParts.qualifiedName {s : ScopeId} {parts : List String} (h : t.NameParts s parts) :
    t.qualifiedName s = joinSegments parts :=
  congrArg joinSegments ((nameParts_iff_segments h.acc parts).1 h).symm

theorem TypeText.spellType {ty : TypeExpr} {text : String} (h : t.TypeText ty text) :
    t.spellType ty = text :=
  ((typeText_iff_spellType h.acc text).1 h).symm

/-- Spelling the type ends. -/
def SpellingEnds (t : SymbolTable) (ty : TypeExpr) : Prop := ∃ text, t.TypeText ty text

theorem spellingEnds_iff {ty : TypeExpr} :
    t.SpellingEnds ty ↔ ∀ r ∈ ty.mentions, Acc t.NeededBy r :=
  ⟨fun ⟨_, h⟩ => h.acc, fun h => ⟨_, (typeText_iff_spellType h _).2 rfl⟩⟩

/-! ## Owners and declarations -/

/-- An owner as messages name it. -/
inductive OwnerText (t : SymbolTable) : Owner → String → Prop
  | scope {s : ScopeId} {parts : List String} (h : t.NameParts s parts) :
      OwnerText t (.scope s) (joinSegments parts)
  | block (b : BlockId) : OwnerText t (.block b) "local scope"

/-- A declaration with its owner. -/
inductive DeclText (t : SymbolTable) : DeclId → String → Prop
  | unknown {d : DeclId} (h : t.decl? d = none) : DeclText t d d.tag
  | inGlobal {d : DeclId} {e : Declaration} (he : t.decl? d = some e)
      (howner : t.OwnerText e.owner "::") : DeclText t d ("::" ++ e.name)
  | inside {d : DeclId} {e : Declaration} {owner : String} (he : t.decl? d = some e)
      (howner : t.OwnerText e.owner owner) (hne : owner ≠ "::") :
      DeclText t d (owner ++ "::" ++ e.name)

theorem OwnerText.spellOwner {o : Owner} {text : String} (h : t.OwnerText o text) :
    t.spellOwner o = text := by
  cases h with
  | scope h => exact h.qualifiedName
  | block b => rfl

theorem DeclText.spellDecl {d : DeclId} {text : String} (h : t.DeclText d text) :
    t.spellDecl d = text := by
  unfold SymbolTable.spellDecl
  cases h with
  | unknown hnone => rw [hnone]
  | inGlobal he howner =>
    rw [he]
    simp only [howner.spellOwner, if_true]
    rfl
  | inside he howner hne =>
    rw [he]
    simp only [howner.spellOwner, if_neg hne]
    rfl

end NameLookup.SymbolTable
