import Mathlib.Data.List.Nodup
import NameLookup.SymbolTable.Chain
import NameLookup.Proofs.SymbolTable.Edits

/-!
# Who owns a declaration

What belongs to an owner is kept in three places: in each declaration, in the list of the owner, and
in the owner's index by name. `select` reads the first of them alone, from the declarations of the
whole table. The other two say the same in every table that came about from a fresh one
(`Reachable.registered`), so what is found by list and by index agrees (`members_agree`): a lookup
along a chain gives all declarations of the name in the first link that has any
(`Registered.ordinaryLookup_cases`).
-/

set_option autoImplicit false

namespace NameLookup.SymbolTable

/-- The declarations that satisfy `p`, in the order in which they were entered. -/
def select (t : SymbolTable) (p : Declaration → Bool) : List DeclId :=
  ((List.range t.decls.size).map DeclId.mk).filter fun d => (t.decl? d).any p

/-- The declarations of a name that record `o` as their owner. -/
def declaredIn (t : SymbolTable) (o : Owner) (name : Name) : List DeclId :=
  t.select fun e => e.owner = o ∧ e.name = name

variable {t t' : SymbolTable} {p : Declaration → Bool} {o : Owner} {name : Name}

/-! ## Selections -/

theorem mem_select {d : DeclId} : d ∈ t.select p ↔ ∃ e, t.decl? d = some e ∧ p e = true := by
  rw [select, List.mem_filter, Option.any_eq_true]
  refine and_iff_right_of_imp ?_
  rintro ⟨e, he, -⟩
  exact List.mem_map.2 ⟨d.index, List.mem_range.2 (hasDecl_of_decl? he), rfl⟩

theorem select_ascending (t : SymbolTable) (p : Declaration → Bool) :
    (t.select p).Pairwise (·.index < ·.index) := by
  have hall : ((List.range t.decls.size).map DeclId.mk).Pairwise (·.index < ·.index) :=
    List.pairwise_lt_range.map DeclId.mk fun _ _ hlt => hlt
  exact hall.filter _

theorem select_nodup (t : SymbolTable) (p : Declaration → Bool) : (t.select p).Nodup :=
  (select_ascending t p).imp fun hlt heq => absurd (congrArg DeclId.index heq) (Nat.ne_of_lt hlt)

theorem filter_select (q : Declaration → Bool) :
    (t.select p).filter (fun d => (t.decl? d).any q) = t.select fun e => p e && q e := by
  rw [select, List.filter_filter]
  refine List.filter_congr fun d _ => ?_
  cases t.decl? d with
  | none => rfl
  | some e => exact Bool.and_comm _ _

theorem select_declare (d : Declaration) :
    (t.declare d).2.select p = t.select p ++ if p d then [⟨t.decls.size⟩] else [] := by
  have hold : ((List.range t.decls.size).map DeclId.mk).filter
      (fun i => ((t.declare d).2.decl? i).any p) = t.select p := by
    refine List.filter_congr fun i hi => ?_
    obtain ⟨n, hn, rfl⟩ := List.mem_map.1 hi
    rw [decl?_declare_of_hasDecl (List.mem_range.1 hn)]
  have hnew : (t.declare d).2.decl? ⟨t.decls.size⟩ = some d := by rw [decl?_declare, if_pos rfl]
  rw [select, decls_declare, Array.size_push, List.range_succ, List.map_append, List.filter_append,
    hold, List.map_singleton, List.filter_singleton, hnew, Option.any_some]
  cases p d <;> rfl

/-- Where a declaration is written does not decide whether it is selected. -/
theorem select_setSpan (hp : ∀ e span, p { e with span := some span } = p e) (d : DeclId)
    (span : Range) : (t.setSpan d span).select p = t.select p := by
  rw [select, decls_size_setSpan]
  refine List.filter_congr fun i _ => ?_
  rw [decl?_setSpan]
  cases t.decl? i with
  | none => rfl
  | some e =>
    simp only [Option.map_some, Option.any_some]
    split
    · exact hp e span
    · rfl

/-! ## Members after an edit -/

theorem membersOf_allocScope {e : Scope} (h : e.members = .empty) (o : Owner) :
    (t.allocScope e).2.membersOf o = t.membersOf o := by
  rw [membersOf, membersOf, members?_allocScope]
  split
  · next hnew =>
    have hnone : t.members? o = none := by rw [hnew]; simp [members?, scope?]
    rw [hnone, Option.getD_some, h, Option.getD_none]
  · rfl

theorem membersOf_addBlock (parent o : Owner) :
    (t.addBlock parent).2.membersOf o = t.membersOf o := by
  rw [membersOf, membersOf, members?_addBlock]
  split
  · next hnew =>
    have hnone : t.members? o = none := by rw [hnew]; simp [members?, block?]
    rw [hnone, Option.getD_some, Option.getD_none]
  · rfl

theorem membersOf_declare {d : Declaration} {m : Members} (h : t.members? d.owner = some m)
    (o : Owner) : (t.declare d).2.membersOf o =
      if d.owner = o then (t.membersOf o).push d.name ⟨t.decls.size⟩ else t.membersOf o := by
  rw [membersOf, membersOf, members?_declare]
  split
  · next howner => rw [← howner, h]; rfl
  · rfl

/-! ## Lists and indices say what the declarations say -/

/-- Each owner lists the declarations that record it as their owner, and has them indexed by name. -/
structure Registered (t : SymbolTable) : Prop where
  listed : ∀ o, (t.membersOf o).decls = t.select (·.owner = o)
  indexed : ∀ o name, (t.membersOf o).named name = t.declaredIn o name

namespace Registered

theorem new (limit : Nat) : (SymbolTable.new limit).Registered := by
  have hmembers : ∀ o, (SymbolTable.new limit).membersOf o = .empty := by
    intro o
    rcases o with ⟨⟨_ | i⟩⟩ | ⟨i⟩ <;> rfl
  constructor
  · intro o
    rw [hmembers]
    rfl
  · intro o name
    rw [hmembers]
    rfl

/-- An edit that changes neither members nor who owns what. -/
theorem of_eq (h : t.Registered) (hmembers : ∀ o, t'.membersOf o = t.membersOf o)
    (hselect : ∀ p : Declaration → Bool, (∀ e span, p { e with span := some span } = p e) →
      t'.select p = t.select p) : t'.Registered := by
  constructor
  · intro o
    rw [hmembers, h.listed, hselect _ fun _ _ => rfl]
  · intro o name
    rw [hmembers, h.indexed, declaredIn, declaredIn, hselect _ fun _ _ => rfl]

theorem declare (h : t.Registered) {d : Declaration} {m : Members}
    (howner : t.members? d.owner = some m) : (t.declare d).2.Registered := by
  constructor
  · intro o
    rw [membersOf_declare howner, select_declare, ← h.listed]
    by_cases ho : d.owner = o <;> simp [ho]
  · intro o name
    rw [membersOf_declare howner, declaredIn, select_declare, ← declaredIn, ← h.indexed]
    by_cases ho : d.owner = o
    · rw [if_pos ho, Members.named_push]
      by_cases hn : d.name = name
      · simp [ho, hn]
      · simp [hn, Ne.symm hn]
    · simp [ho]

theorem edit (h : t.Registered) (he : Edit t t') : t'.Registered := by
  cases he with
  | allocScope hmembers _ => exact h.of_eq (membersOf_allocScope hmembers) fun _ _ => rfl
  | declare howner => exact h.declare howner
  | addBlock parent => exact h.of_eq (membersOf_addBlock parent) fun _ _ => rfl
  | setReexports s targets =>
    exact h.of_eq (fun o => by rw [membersOf, members?_setReexports, membersOf]) fun _ _ => rfl
  | setSpan d span => exact h.of_eq (fun _ => rfl) fun _ hp => select_setSpan hp d span
  | register _ => exact h.of_eq (fun _ => rfl) fun _ _ => rfl

theorem grows (h : t.Registered) (hg : t.Grows t') : t'.Registered := hg.edits.keep edit h

theorem change (h : t.Registered) (hc : t.Change t') : t'.Registered := hc.edits.keep edit h

variable (h : t.Registered)
include h

theorem count_membersOf {d : DeclId} {e : Declaration} (hd : t.decl? d = some e) (o : Owner) :
    (t.membersOf o).decls.count d = if e.owner = o then 1 else 0 := by
  have hmem : d ∈ t.select (·.owner = o) ↔ e.owner = o := by simp [mem_select, hd]
  rw [h.listed, (select_nodup t _).count]
  simp only [hmem]

theorem named_eq_filter (o : Owner) (name : Name) : (t.membersOf o).named name =
    (t.membersOf o).decls.filter fun d => (t.decl? d).any (·.name = name) := by
  rw [h.indexed, h.listed, filter_select, declaredIn]
  simp only [Bool.decide_and]

end Registered

theorem Reachable.registered (h : t.Reachable) : t.Registered :=
  h.of_edit .new .edit

/-! ## Lookups -/

theorem ordinaryLookup_cons (name : Name) (o : Owner) (chain : ScopeChain) :
    t.ordinaryLookup name (o :: chain) =
      if (t.membersOf o).named name = [] then t.ordinaryLookup name chain
      else (t.membersOf o).named name := by
  unfold ordinaryLookup
  rw [List.map_cons, List.find?_cons]
  cases (t.membersOf o).named name <;> simp

/-- A lookup finds nothing where no link declares the name, and else all that the first link which
declares it does. -/
theorem Registered.ordinaryLookup_cases (h : t.Registered) (name : Name) (chain : ScopeChain) :
    (t.ordinaryLookup name chain = [] ∧ ∀ o ∈ chain, t.declaredIn o name = []) ∨
      ∃ inner o outer, chain = inner ++ o :: outer ∧ (∀ i ∈ inner, t.declaredIn i name = []) ∧
        t.declaredIn o name ≠ [] ∧ t.ordinaryLookup name chain = t.declaredIn o name := by
  induction chain with
  | nil => exact .inl ⟨rfl, fun o ho => absurd ho List.not_mem_nil⟩
  | cons o chain ih =>
    rw [ordinaryLookup_cons, h.indexed]
    by_cases ho : t.declaredIn o name = []
    · rw [if_pos ho]
      rcases ih with ⟨hnone, hall⟩ | ⟨inner, o', outer, rfl, hinner, ho', hfound⟩
      · exact .inl ⟨hnone, List.forall_mem_cons.2 ⟨ho, hall⟩⟩
      · exact .inr ⟨o :: inner, o', outer, rfl, List.forall_mem_cons.2 ⟨ho, hinner⟩, ho', hfound⟩
    · rw [if_neg ho]
      exact .inr ⟨[], o, chain, rfl, fun i hi => absurd hi List.not_mem_nil, ho, rfl⟩

theorem Registered.membersNamed_eq (h : t.Registered) (s : ScopeId) (name : Name) :
    t.membersNamed s name = t.ordinaryLookup name [.scope s] := by
  rw [ordinaryLookup_cons, membersNamed, ← h.named_eq_filter]
  split
  · next hnone => exact hnone
  · rfl

/-- Declarations, lists and indices agree about who owns what: each declaration is listed once, by
its owner, in the order of entry; the index holds the list name by name; and lookups, along a chain or
among the members of a scope, read off the declarations of the table. -/
theorem members_agree (ht : t.Reachable) :
    (∀ d e o, t.decl? d = some e →
      (t.membersOf o).decls.count d = if e.owner = o then 1 else 0) ∧
    (∀ o, ∀ d ∈ (t.membersOf o).decls, ∃ e, t.decl? d = some e ∧ e.owner = o) ∧
    (∀ o, (t.membersOf o).decls.Pairwise (·.index < ·.index)) ∧
    (∀ o name, (t.membersOf o).named name =
      (t.membersOf o).decls.filter fun d => (t.decl? d).any (·.name = name)) ∧
    (∀ name chain,
      (t.ordinaryLookup name chain = [] ∧ ∀ o ∈ chain, t.declaredIn o name = []) ∨
        ∃ inner o outer, chain = inner ++ o :: outer ∧ (∀ i ∈ inner, t.declaredIn i name = []) ∧
          t.declaredIn o name ≠ [] ∧ t.ordinaryLookup name chain = t.declaredIn o name) ∧
    ∀ s name, t.membersNamed s name = t.ordinaryLookup name [.scope s] := by
  have h := ht.registered
  refine ⟨fun d e o hd => h.count_membersOf hd o, fun o d hd => ?_, fun o => ?_, h.named_eq_filter,
    h.ordinaryLookup_cases, h.membersNamed_eq⟩
  · rw [h.listed] at hd
    obtain ⟨e, he, howner⟩ := mem_select.1 hd
    exact ⟨e, he, of_decide_eq_true howner⟩
  · rw [h.listed]
    exact select_ascending t _

/-- `Box<T>` with a member `count` and a class `Inner` that has a member `x`; a block in it with a
`count` of its own. `Box<int>` has been built, and `Box<>` was refused. -/
def filledBox : SymbolTable :=
  let box := ((((new defaultInstantiationLimit)
    |>.withScope global "Box" .classType (some ["T"])
    |>.withDecl ⟨"count", .staticData, .scope ⟨1⟩, some (.param "T"), none⟩
    |>.withScope ⟨1⟩ "Inner" .classType none
    |>.withDecl ⟨"x", .staticData, .scope ⟨2⟩, none, none⟩).addBlock (.scope ⟨1⟩)).2
    |>.withDecl ⟨"count", .var, .block ⟨0⟩, none, none⟩)
  (instantiate ⟨⟨1⟩, []⟩ (instantiate ⟨⟨1⟩, [.scalar "int"]⟩ box).2).2

theorem filledBox_reachable : filledBox.Reachable :=
  (((((((((Reachable.new _).withScope _ _ _ _).withDecl _).withScope _ _ _ _).withDecl _).change
    (.addBlock _)).withDecl _).change (.instantiate _)).change (.instantiate _))

/-- In `Box<int>`, which is scope 3, and in its copy of `Inner`, which is scope 4. -/
theorem members_agree_of_filledBox :
    filledBox.Reachable ∧ (filledBox.membersOf (.scope ⟨3⟩)).decls = [⟨5⟩, ⟨7⟩] ∧
      (filledBox.membersOf (.scope ⟨3⟩)).decls.count ⟨5⟩ = 1 ∧
      filledBox.membersNamed ⟨4⟩ "x" = filledBox.ordinaryLookup "x" [.scope ⟨4⟩] ∧
      filledBox.ordinaryLookup "count" (filledBox.chainOfScope ⟨4⟩) = [⟨5⟩] ∧
      filledBox.declaredIn (.block ⟨0⟩) "count" = [⟨4⟩] := by
  obtain ⟨hcount, -, -, -, -, hmembers⟩ := members_agree filledBox_reachable
  refine ⟨filledBox_reachable, by rfl, ?_, hmembers _ _, by rfl, by rfl⟩
  rw [hcount ⟨5⟩ ⟨"count", .staticData, .scope ⟨3⟩, some (.scalar "int"), none⟩ _ (by rfl)]
  rfl

end NameLookup.SymbolTable
