import NameLookup.Proofs.SymbolTable.LateInstances
import NameLookup.Proofs.SymbolTable.MemberTemplates
import NameLookup.Proofs.SymbolTable.Nesting
import NameLookup.Proofs.SymbolTable.Spelling

/-!
# What instances look like

Handles say when an entry was made; the outline of a scope is what can be read of it without them: its
qualified name, and its members in order by name, kind and type in source form, with the outlines of
the types nested in it. On a closed table the outline of an instance is settled before the instance is
built (`instanceOutline`), and it comes out the same whatever else is built before or after
(`CopiesSince.outline`). So the order in which instances are built does not matter
(`instantiation_order_irrelevant`).
-/

set_option autoImplicit false

namespace NameLookup.SymbolTable

/-- What can be read of a member. -/
structure MemberText where
  name : Name
  kind : DeclKind
  /-- The type in source form. -/
  type : Option String

/-- What can be read of a scope: its qualified name, and its members in order. A member that declares
a nested type comes with the outline of that. -/
inductive Outline where
  | node (name : String) (members : List (Option MemberText × Option Outline))

/-- What can be read of a declaration. -/
def memberText? (t : SymbolTable) (d : DeclId) : Option MemberText :=
  (t.decl? d).map fun e => ⟨e.name, e.kind, e.type.map t.spellType⟩

/-- The outline of a scope, with nested types down to a depth of `n`. -/
def outline (t : SymbolTable) : Nat → ScopeId → Outline
  | 0, s => .node (t.qualifiedName s) []
  | n + 1, s => .node (t.qualifiedName s) ((t.membersOf (.scope s)).decls.map fun d =>
      (t.memberText? d, (t.nests? s d).map (t.outline n)))

/-! ## Outlines of copies, foretold -/

/-- The name of a scope as a part of qualified names, if it has one. -/
def ownName (t : SymbolTable) (s : ScopeId) : List String := ((t.scope? s).bind (·.name)).toList

/-- The type that the member `d` of `o` has in a copy of `o`, in source form, where the qualified name
of the copy has the given parts. -/
def copiedType (t : SymbolTable) (σ : Substitution) (o : ScopeId) (parts : List String) (d : DeclId)
    (type : Option TypeExpr) : Option String :=
  if type = some (.scope o) then some (joinSegments parts)
  else
    match t.nests? o d with
    | some r => some (joinSegments (parts ++ t.ownName r))
    | none => type.map fun ty => t.spellType (ty.substitute σ)

/-- The outline of a copy of `o` whose qualified name has the given parts. -/
def copyOutline (t : SymbolTable) (σ : Substitution) : Nat → List String → ScopeId → Outline
  | 0, parts, _ => .node (joinSegments parts) []
  | n + 1, parts, o => .node (joinSegments parts) ((t.membersOf (.scope o)).decls.map fun d =>
      ((t.decl? d).map fun e => ⟨e.name, e.kind, t.copiedType σ o parts d e.type⟩,
        (t.nests? o d).map fun r => t.copyOutline σ n (parts ++ t.ownName r) r))

/-- The parts of the qualified name of a scope that is yet to be entered. -/
def partsOf (t : SymbolTable) (e : Scope) : List String :=
  e.parent.elim [] (t.segments (t.scopes.size + 1) []) ++ ownParts t.qualifiedName e

/-- The outline of the instance of a key that is yet to be built. -/
def instanceOutline (t : SymbolTable) (n : Nat) (key : InstanceKey) : Outline :=
  let parts := (t.scope? key.template).elim [] fun e => t.partsOf { e with instanceOf := some key }
  let params := (t.paramsOf? key.template).getD []
  t.copyOutline (.ofParams params key.args) n parts key.template

variable {t u v w : SymbolTable} {key : InstanceKey} {σ : Substitution} {made : Copies}
  {o c p s r : ScopeId} {d d' : DeclId} {e : Scope} {parts : List String}

/-! ## Names of copies -/

/-- The qualified name of `c` has the given parts, also while younger scopes are being spelled. The
scopes around `c` are older, so two levels more than its index are deep enough. -/
def SpelledAs (t : SymbolTable) (c : ScopeId) (parts : List String) : Prop :=
  ∀ n path, c.index + 2 ≤ n → (∀ r ∈ path, c.index < r.index) → t.segments n path c = parts

namespace SpelledAs

theorem qualifiedName (h : t.SpelledAs c parts) (hc : t.HasScope c) :
    t.qualifiedName c = joinSegments parts :=
  congrArg joinSegments (h _ [] (Nat.succ_le_succ hc) fun _ hr => absurd hr List.not_mem_nil)

/-- A scope that is no instance adds its name to that of the scope around it. -/
theorem nested (h : t.SpelledAs p parts) (ht : t.Sound) (he : t.scope? c = some e)
    (hparent : e.parent = some p) (hplain : e.instanceOf = none) :
    t.SpelledAs c (parts ++ e.name.toList) := by
  intro n path hn hpath
  obtain ⟨n, rfl⟩ : ∃ k, n = k + 1 := ⟨n - 1, by omega⟩
  have hlt := ht.parent_lt he hparent
  have hmem : c ∉ path := fun hmem => Nat.lt_irrefl _ (hpath c hmem)
  have houter : t.segments n (c :: path) p = parts :=
    h n _ (by omega) (List.forall_mem_cons.2 ⟨hlt, fun r hr => Nat.lt_trans hlt (hpath r hr)⟩)
  have hown : ∀ f, ownParts f e = e.name.toList := fun f => by
    rw [ownParts, hplain]
    cases e.name <;> rfl
  rw [segments_succ hmem he, hparent, hown, Option.elim_some, houter]

end SpelledAs

/-- What was added to a closed table, in a scope of it and for arguments that it knows, is spelled as
the table tells. -/
theorem Extends.spelledAs (h : t.Extends w) (ht : t.Sound) (hc : t.Closed) (hs : w.scope? s = some e)
    (hnew : ¬ t.HasScope s) (hparent : ∀ p, e.parent = some p → t.HasScope p)
    (hkey : ∀ key, e.instanceOf = some key → t.KnowsKey key) : w.SpelledAs s (t.partsOf e) := by
  intro n path hn hpath
  obtain ⟨n, rfl⟩ : ∃ k, n = k + 1 := ⟨n - 1, by omega⟩
  have hle : t.scopes.size ≤ s.index := Nat.not_lt.1 hnew
  have hmem : s ∉ path := fun hmem => Nat.lt_irrefl _ (hpath s hmem)
  -- none of the scopes that are being spelled is in `t`
  have hold : ∀ r, t.HasScope r →
      w.segments n (s :: path) r = t.segments (t.scopes.size + 1) [] r := by
    intro r hr
    refine h.segments ht hc (by omega) .nil (fun q hq => absurd hq List.not_mem_nil) (fun q hq => ?_)
      (by simp) hr
    refine iff_of_false (fun hmem => ?_) List.not_mem_nil
    have hq : q.index < t.scopes.size := hq
    rcases List.mem_cons.1 hmem with rfl | hmem
    · exact hnew hq
    · have hlt := hpath q hmem
      omega
  rw [segments_succ hmem hs, partsOf]
  refine congrArg₂ (· ++ ·) ?_ (ownParts_congr fun key hinst a ha r hr => ?_)
  · cases hp : e.parent with
    | none => rfl
    | some p => exact hold p (hparent p hp)
  · exact congrArg joinSegments (hold r ((knows_apply.1 (hkey key hinst)).2 a ha r hr))

/-! ## Copies look as foretold -/

namespace CopiesSince

theorem qualifiedName (h : CopiesSince t w σ made) (hmade : (o, c) ∈ made)
    (hparts : w.SpelledAs c parts) : w.qualifiedName c = joinSegments parts := by
  obtain ⟨_, _, _, hscope, -⟩ := h.copies _ hmade
  exact hparts.qualifiedName (hasScope_of_scope? hscope)

/-- The copy of a nested type is spelled after the copy that it stands in. -/
theorem spelledAs_nested (h : CopiesSince t w σ made) (hw : w.Sound)
    (hplace : PlacedIn t w c r s) (hmade : (r, s) ∈ made) (hparts : w.SpelledAs c parts) :
    w.SpelledAs s (parts ++ t.ownName r) := by
  obtain ⟨n, n', hn, hn', hparent, -, hplain⟩ := hplace
  obtain ⟨e, e', he, he', hname, -⟩ := h.copies _ hmade
  cases hn.symm.trans he
  cases hn'.symm.trans he'
  have hown : t.ownName r = n'.name.toList := by rw [ownName, hn, Option.bind_some, hname]
  rw [hown]
  exact hparts.nested hw hn' hparent hplain

variable (h : CopiesSince t w σ made) (ht : t.Sound) (hw : w.Sound) (hc : t.Closed)
  (hσ : t.KnowsBindings σ)
include h ht hw hc hσ

/-- The copy of a member that declares no nested type declares none either: what its type refers to,
unless it is the copy itself, was there before. -/
theorem nests?_of_none (hmade : (o, c) ∈ made) (hd : DeclCopy t w σ made o c d d')
    (hno : t.nests? o d = none) : w.nests? c d' = none := by
  obtain ⟨e, type, he, he', htype⟩ := hd
  refine nests?_eq_none he' fun r ⟨_, (hscope : type = some (.scope r)), hstands⟩ => ?_
  have hknown : ∀ ty, e.type = some ty → t.Knows ty := fun ty hty => hc.types he hty
  have hnests : ∀ r, ¬ t.Nests o e r := fun r hr => by
    cases hno.symm.trans ((nests?_iff he).2 hr)
  simp only [Nests] at hnests
  generalize e.type = ty₀ at htype hknown hnests
  cases htype with
  | own =>
    cases hscope
    exact hw.not_standsIn_self _ hstands
  | nested hkind hstands₀ => exact hnests _ ⟨hkind, rfl, hstands₀⟩
  | other =>
    obtain ⟨ty, rfl, hsubst⟩ := Option.map_eq_some_iff.1 hscope
    have hr : t.HasScope r := knows_scope.1 (hsubst ▸ (hknown ty rfl).substitute hσ)
    obtain ⟨n, hn, hparent⟩ := hstands
    exact h.new _ hmade (ht.hasScope_parent ((h.extends_.scope hr).symm.trans hn) hparent)

/-- The type of a copied member reads as foretold. -/
theorem spellType_copy {kind : DeclKind} {name : Name} {owner : Owner} {span : Option Range}
    {type type' : Option TypeExpr} (hmade : (o, c) ∈ made) (hparts : w.SpelledAs c parts)
    (hd : t.decl? d = some ⟨name, kind, owner, type, span⟩)
    (htype : TypeCopy t w σ made o c kind type type') :
    type'.map w.spellType = t.copiedType σ o parts d type := by
  rw [copiedType]
  cases htype with
  | own =>
    rw [if_pos rfl, Option.map_some]
    exact congrArg some (h.qualifiedName hmade hparts)
  | @nested r r' hkind hstands hmade' hplace =>
    have hne : some (TypeExpr.scope r) ≠ some (.scope o) := by
      rintro ⟨⟩
      exact ht.not_standsIn_self _ hstands
    have hnests : t.nests? o d = some r := (nests?_iff hd).2 ⟨hkind, rfl, hstands⟩
    have hparts' := h.spelledAs_nested hw hplace hmade' hparts
    rw [if_neg hne, hnests, Option.map_some]
    exact congrArg some (h.qualifiedName hmade' hparts')
  | other hno =>
    have hne : type ≠ some (.scope o) := fun heq => (hno o heq).1 rfl
    have hnone : t.nests? o d = none := nests?_eq_none hd fun r hr =>
      (hno r hr.2.1).2 ⟨hr.1, hr.2.2⟩
    rw [if_neg hne, hnone, Option.map_map]
    exact Option.map_congr fun ty hty =>
      h.extends_.spellType ht hc ((hc.types hd hty).substitute hσ)

/-- The outline of a copy is the one foretold. -/
theorem outline (n : Nat) (hmade : (o, c) ∈ made) (hparts : w.SpelledAs c parts) :
    w.outline n c = t.copyOutline σ n parts o := by
  induction n generalizing o c parts with
  | zero => rw [SymbolTable.outline, copyOutline, h.qualifiedName hmade hparts]
  | succ n ih =>
    obtain ⟨e, e', he, he', -, -, hdecls, -⟩ := h.copies _ hmade
    rw [SymbolTable.outline, copyOutline, h.qualifiedName hmade hparts, membersOf_of_scope? he,
      membersOf_of_scope? he']
    refine congrArg (Outline.node _) (Eq.symm ?_)
    rw [← List.forall₂_eq_eq_eq, List.forall₂_map_left_iff, List.forall₂_map_right_iff]
    refine hdecls.imp fun d d' hd => Prod.ext ?_ ?_
    · obtain ⟨decl, type, hdecl, hdecl', htype⟩ := id hd
      rw [memberText?, hdecl, hdecl', Option.map_some, Option.map_some,
        ← h.spellType_copy ht hw hc hσ hmade hparts hdecl htype]
    · cases hn : t.nests? o d with
      | none => rw [h.nests?_of_none ht hw hc hσ hmade hd hn, Option.map_none, Option.map_none]
      | some r =>
        obtain ⟨r', hr', hmade', hplace⟩ := hd.nested ht hn
        rw [hr', Option.map_some, Option.map_some,
          ih hmade' (h.spelledAs_nested hw hplace hmade' hparts)]

end CopiesSince

/-! ## Instances look as foretold -/

/-- The outline of an instance is settled when a closed table knows its key. -/
theorem Replicated.outline {params : List Name} (h : Replicated v u key s e params made)
    (ht : t.Sound) (hc : t.Closed) (hkey : t.KnowsKey key) (hv : t.Extends v) (hu : u.Extends w)
    (hw : w.Sound) (n : Nat) : w.outline n s = t.instanceOutline n key := by
  have htemplate : t.HasScope key.template := (knows_apply.1 hkey).1
  have hcopies := h.copiesSince ht hc htemplate hv hu
  obtain ⟨ms, rs, hs⟩ := h.placed
  have he : t.scope? key.template = some e := (hv.scope htemplate).symm.trans h.template
  have hentry := hcopies.extends_.spelledAs ht hc (hu.scope_some hs) (hcopies.new _ h.root)
    (fun p hp => ht.hasScope_parent he hp) fun k hk => by cases hk; exact hkey
  -- the members and re-exports of the entry do not matter to its name
  have hparts : w.SpelledAs s (t.partsOf { e with instanceOf := some key }) := hentry
  rw [hcopies.outline ht hw hc (hkey.ofParams params) n h.root hparts]
  simp only [instanceOutline, paramsOf?, he, Option.elim_some, Option.bind_some, h.templateParams,
    Option.getD_some]

section
variable (ht : t.Reachable) (hc : t.Closed) {key₁ key₂ : InstanceKey} (hne : key₁ ≠ key₂)
  (hkey₁ : t.KnowsKey key₁) (hkey₂ : t.KnowsKey key₂) (hnew₁ : t.instance? key₁ = none)
  (hnew₂ : t.instance? key₂ = none) {s₁ s₂ : ScopeId} {t₁ t₂ : SymbolTable}
  (h₁ : instantiate key₁ t = (.ok s₁, t₁)) (h₂ : instantiate key₂ t = (.ok s₂, t₂))
include ht hc hne hkey₁ hkey₂ hnew₁ hnew₂ h₁ h₂

/-- Of two instances that a closed table knows the keys of, the second can be built after the first as
well, and both look as foretold. -/
theorem instances_look_as_foretold :
    ∃ s₂' u, instantiate key₂ t₁ = (.ok s₂', u) ∧
      ∀ n, u.outline n s₁ = t.instanceOutline n key₁ ∧ u.outline n s₂' = t.instanceOutline n key₂ := by
  have ht₁ : t₁.Reachable := ht.of_instantiate h₁
  rw [instantiate_run, hnew₁] at h₁
  rw [instantiate_run, hnew₂] at h₂
  obtain ⟨hext, -, hinstances⟩ := buildInstance_ok h₁
  have hnew : t₁.instance? key₂ = none := by
    rw [instance?, hinstances, AssocList.lookup_cons, if_neg hne.symm]
    exact hnew₂
  have htree : t.TreeIn key₂.template := hc.treeIn (knows_apply.1 hkey₂).1
  obtain ⟨s₂', u, h₂'⟩ := buildInstance_later ht.sound htree hext h₂
  have hu : u.Sound := ht₁.sound.grows (.build hnew h₂' (.refl u))
  obtain ⟨_, _, _, hr₁⟩ := buildInstance_replicates ht.sound h₁
  obtain ⟨_, _, _, hr₂⟩ := buildInstance_replicates ht₁.sound h₂'
  refine ⟨s₂', u, by rw [instantiate_run, hnew, h₂'], fun n => ⟨?_, ?_⟩⟩
  · exact hr₁.outline ht.sound hc hkey₁ (.refl t) hr₂.extends_ hu n
  · exact hr₂.outline ht.sound hc hkey₂ hext (.refl u) hu n

/-- Two instances that can each be built in a closed table can be built in either order, and look the
same afterwards: the same qualified name, and the same members in order by name, kind and type in
source form, at every depth of the types nested in them. -/
theorem instantiation_order_irrelevant :
    ∃ s₂' u s₁' u', instantiate key₂ t₁ = (.ok s₂', u) ∧ instantiate key₁ t₂ = (.ok s₁', u') ∧
      ∀ n, u.outline n s₁ = u'.outline n s₁' ∧ u.outline n s₂' = u'.outline n s₂ := by
  obtain ⟨s₂', u, hrun, hu⟩ :=
    instances_look_as_foretold ht hc hne hkey₁ hkey₂ hnew₁ hnew₂ h₁ h₂
  obtain ⟨s₁', u', hrun', hu'⟩ :=
    instances_look_as_foretold ht hc hne.symm hkey₂ hkey₁ hnew₂ hnew₁ h₂ h₁
  refine ⟨s₂', u, s₁', u', hrun, hrun', fun n => ⟨?_, ?_⟩⟩
  · exact (hu n).1.trans (hu' n).2.symm
  · exact (hu n).2.trans (hu' n).1.symm

end

theorem outerInner_closed {type : TypeExpr} (h : ∀ s ∈ type.mentions, s.index < 3) :
    (outerInner type).Closed :=
  (((Closed.new _).withScope ..).withScope ..).withDecl fun ty hty => by
    cases hty
    exact h

/-- `Outer<int>` and the instance `Inner<bool, char>` of the template in the generic body of `Outer` are
the scopes 3 and 5 if they are built in this order, and 4 and 3 if not. -/
theorem instantiation_order_irrelevant_outerInner :
    let t := outerInner (.apply ⟨2⟩ [.param "T", .param "U"])
    let outer : InstanceKey := ⟨⟨1⟩, [.scalar "int"]⟩
    let inner : InstanceKey := ⟨⟨2⟩, [.scalar "bool", .scalar "char"]⟩
    let u := (instantiate inner (instantiate outer t).2).2
    let u' := (instantiate outer (instantiate inner t).2).2
    u.qualifiedName ⟨3⟩ = "Outer<int>" ∧ u.qualifiedName ⟨5⟩ = "Outer::Inner<bool, char>" ∧
      ∀ n, u.outline n ⟨3⟩ = u'.outline n ⟨4⟩ ∧ u.outline n ⟨5⟩ = u'.outline n ⟨3⟩ := by
  intro t outer inner u u'
  have hclosed : t.Closed := outerInner_closed (by decide)
  have houter : instantiate outer t = (.ok ⟨3⟩, (instantiate outer t).2) :=
    Attempt.run_of_fst (by rfl)
  have hinner : instantiate inner t = (.ok ⟨3⟩, (instantiate inner t).2) :=
    Attempt.run_of_fst (by rfl)
  have hrun : instantiate inner (instantiate outer t).2 = (.ok ⟨5⟩, u) :=
    Attempt.run_of_fst (by decide +kernel)
  have hrun' : instantiate outer (instantiate inner t).2 = (.ok ⟨4⟩, u') :=
    Attempt.run_of_fst (by decide +kernel)
  obtain ⟨s, v, s', v', h, h', hsame⟩ :=
    instantiation_order_irrelevant (outerInner_reachable _) hclosed (by decide : outer ≠ inner)
      (knows_apply.2 (by decide)) (knows_apply.2 (by decide)) (by rfl) (by rfl) houter hinner
  cases hrun.symm.trans h
  cases hrun'.symm.trans h'
  exact ⟨by decide +kernel, by decide +kernel, hsame⟩

end NameLookup.SymbolTable
