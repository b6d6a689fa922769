import NameLookup.Proofs.SymbolTable.Ownership
import NameLookup.Proofs.SymbolTable.Spelling

/-!
# Tables that are the same outside of a block

`t.SameOutside b n k u`: the table `u` is `t` but for what is declared directly in the block `b`. After
the first `n` declarations, which the two have in common, `u` has `k` of the block that `t` has not,
so that whatever was entered after that has a higher number in `u` (`DeclId.shift`). Nothing else
tells them apart: scopes stand under the same numbers, names are spelled alike, and what is found along
a chain without the block stands for the same (`SameOutside.typeNamed?`, `SameOutside.typeOfValue?`,
`SameOutside.memberType?`). What is done to both in parallel leaves them the same outside.
-/

set_option autoImplicit false

namespace NameLookup

/-- The number that a declaration has if `k` others were entered after the first `n`. -/
def DeclId.shift (n k : Nat) (d : DeclId) : DeclId := if d.index < n then d else ⟨d.index + k⟩

/-- The same members, under shifted numbers. -/
structure Members.Shifted (n k : Nat) (m m' : Members) : Prop where
  decls : m'.decls = m.decls.map (.shift n k)
  named : ∀ name, m'.named name = (m.named name).map (.shift n k)

/-- The same scope, but for the numbers of its members. -/
inductive Scope.Shifted (n k : Nat) (e : Scope) : Scope → Prop
  | mk {members : Members} (h : e.members.Shifted n k members) : Shifted n k e { e with members }

section
variable {n k : Nat} {m m' : Members}

theorem DeclId.shift_of_lt {d : DeclId} (h : d.index < n) : d.shift n k = d := if_pos h

theorem DeclId.shift_of_le {d : DeclId} (h : n ≤ d.index) : d.shift n k = ⟨d.index + k⟩ :=
  if_neg (Nat.not_lt_of_le h)

theorem Members.Shifted.empty (n k : Nat) : Members.empty.Shifted n k .empty := ⟨rfl, fun _ => rfl⟩

theorem Members.Shifted.push (h : m.Shifted n k m') (name : Name) (d : DeclId) :
    (m.push name d).Shifted n k (m'.push name (d.shift n k)) where
  decls := by simp [h.decls]
  named x := by
    rw [Members.named_push, Members.named_push, h.named]
    split <;> simp

@[simp] theorem DeclId.shift_zero (n : Nat) (d : DeclId) : d.shift n 0 = d := by simp [DeclId.shift]

theorem Members.Shifted.refl (n : Nat) (m : Members) : m.Shifted n 0 m where
  decls := by simp [funext (DeclId.shift_zero n)]
  named name := by simp [funext (DeclId.shift_zero n)]

/-- Of the first `n` declarations none is shifted. -/
theorem Members.Shifted.of_old {k' : Nat} (h : m.Shifted n k m')
    (hold : ∀ d, m.Lists d → d.index < n) : m.Shifted n k' m' where
  decls := h.decls.trans (List.map_congr_left fun d hd => by
    have hlt := hold d (.inl hd)
    rw [DeclId.shift_of_lt hlt, DeclId.shift_of_lt hlt])
  named name := (h.named name).trans (List.map_congr_left fun d hd => by
    have hlt := hold d (.inr ⟨name, hd⟩)
    rw [DeclId.shift_of_lt hlt, DeclId.shift_of_lt hlt])

end

namespace SymbolTable

theorem decl?_truncate (t : SymbolTable) (scopes decls : Nat) (d : DeclId) :
    (t.truncate scopes decls).decl? d = if d.index < decls then t.decl? d else none := by
  show (t.decls.take decls)[d.index]? = _
  grind [decl?]

theorem scope?_truncate (t : SymbolTable) (scopes decls : Nat) (s : ScopeId) :
    (t.truncate scopes decls).scope? s = if s.index < scopes then t.scope? s else none := by
  show (t.scopes.take scopes)[s.index]? = _
  grind [scope?]

theorem decls_size_truncate (t : SymbolTable) (scopes decls : Nat) :
    (t.truncate scopes decls).decls.size = min decls t.decls.size := by
  simp [truncate]

/-- `u` is `t` with `k` more declarations of the block, entered after the first `n` of all. -/
structure SameOutside (b : BlockId) (n k : Nat) (t u : SymbolTable) : Prop where
  le_size : n ≤ t.decls.size
  decls_size : u.decls.size = t.decls.size + k
  decl : ∀ d, u.decl? (d.shift n k) = t.decl? d
  scopes_size : u.scopes.size = t.scopes.size
  scope : ∀ s, Option.Rel (Scope.Shifted n k) (t.scope? s) (u.scope? s)
  block : ∀ c, c ≠ b → (t.membersOf (.block c)).Shifted n k (u.membersOf (.block c))
  blocks_size : u.blocks.size = t.blocks.size
  parent : ∀ c, (u.block? c).map (·.parent) = (t.block? c).map (·.parent)
  instances : u.instances = t.instances
  limit : u.instantiationLimit = t.instantiationLimit

namespace SameOutside

variable {b : BlockId} {n k : Nat} {t u : SymbolTable} (h : SameOutside b n k t u)
include h

/-! ## What is the same -/

theorem scope_none {s : ScopeId} (hs : t.scope? s = none) : u.scope? s = none := by
  have hrel := h.scope s
  rw [hs] at hrel
  cases hu : u.scope? s with
  | none => rfl
  | some e =>
    rw [hu] at hrel
    cases hrel

theorem scope_some {s : ScopeId} {e : Scope} (hs : t.scope? s = some e) :
    ∃ members, e.members.Shifted n k members ∧ u.scope? s = some { e with members } := by
  have hrel := h.scope s
  rw [hs] at hrel
  cases hu : u.scope? s with
  | none =>
    rw [hu] at hrel
    cases hrel
  | some e' =>
    rw [hu] at hrel
    obtain ⟨⟨hm⟩⟩ := hrel
    exact ⟨_, hm, rfl⟩

/-- Whatever is read off a scope is the same, unless it is the members. -/
theorem bind_scope? {α : Type} (f : Scope → Option α) (hf : ∀ e members, f { e with members } = f e)
    (s : ScopeId) : (u.scope? s).bind f = (t.scope? s).bind f := by
  cases hs : t.scope? s with
  | none => rw [h.scope_none hs]
  | some e =>
    obtain ⟨members, -, hu⟩ := h.scope_some hs
    rw [hu]
    exact hf e members

theorem membersOf {o : Owner} (ho : o ≠ .block b) :
    (t.membersOf o).Shifted n k (u.membersOf o) := by
  cases o with
  | block c => exact h.block c fun hc => ho (congrArg _ hc)
  | scope s =>
    cases hs : t.scope? s with
    | none =>
      simp only [SymbolTable.membersOf, members?, hs, h.scope_none hs]
      exact .empty n k
    | some e =>
      obtain ⟨members, hm, hu⟩ := h.scope_some hs
      rw [membersOf_of_scope? hs, membersOf_of_scope? hu]
      exact hm

theorem isNestedIn (source s : ScopeId) : u.isNestedIn source s = t.isNestedIn source s := by
  unfold SymbolTable.isNestedIn
  cases hs : t.scope? s with
  | none => rw [h.scope_none hs]
  | some e =>
    obtain ⟨members, -, hu⟩ := h.scope_some hs
    rw [hu]
    rfl

/-! ## Spelling -/

theorem segments (m : Nat) (path : List ScopeId) (s : ScopeId) :
    u.segments m path s = t.segments m path s := by
  induction m generalizing path s with
  | zero => rfl
  | succ m ih =>
    have hpath : u.segments m (s :: path) = t.segments m (s :: path) := funext (ih _)
    unfold SymbolTable.segments
    cases hs : t.scope? s with
    | none => rw [h.scope_none hs]
    | some e =>
      obtain ⟨members, -, hu⟩ := h.scope_some hs
      rw [hu]
      simp only [hpath]

theorem qualifiedName : u.qualifiedName = t.qualifiedName := by
  funext s
  unfold SymbolTable.qualifiedName
  rw [h.segments, h.scopes_size]

theorem spellType (ty : TypeExpr) : u.spellType ty = t.spellType ty := by
  unfold SymbolTable.spellType
  rw [h.qualifiedName]

/-! ## Lookups that pass the block by -/

theorem ordinaryLookup {chain : ScopeChain} (hc : .block b ∉ chain) (name : Name) :
    u.ordinaryLookup name chain = (t.ordinaryLookup name chain).map (.shift n k) := by
  induction chain with
  | nil => rfl
  | cons o chain ih =>
    obtain ⟨ho, hrest⟩ := not_or.1 (mt List.mem_cons.2 hc)
    rw [ordinaryLookup_cons, ordinaryLookup_cons, (h.membersOf (Ne.symm ho)).named, ih hrest]
    simp only [List.map_eq_nil_iff]
    split <;> rfl

theorem firstType? (p : Declaration → Bool) (ds : List DeclId) :
    u.firstType? p (ds.map (.shift n k)) = t.firstType? p ds := by
  have hdecls : (ds.map (.shift n k)).filterMap u.decl? = ds.filterMap t.decl? := by
    rw [List.filterMap_map]
    exact List.filterMap_congr fun d _ => h.decl d
  rw [SymbolTable.firstType?, SymbolTable.firstType?, hdecls]

theorem isParamIn (chain : ScopeChain) (name : Name) :
    u.isParamIn chain name = t.isParamIn chain name := by
  unfold SymbolTable.isParamIn
  refine congrArg _ (funext fun o => ?_)
  cases o with
  | block c => rfl
  | scope s => exact congrArg _ (h.bind_scope? (·.templateParams) (fun _ _ => rfl) s)

theorem typeNamed? {chain : ScopeChain} (hc : .block b ∉ chain) (name : Name) :
    u.typeNamed? name chain = t.typeNamed? name chain := by
  rw [SymbolTable.typeNamed?, SymbolTable.typeNamed?, h.ordinaryLookup hc, h.firstType?,
    h.isParamIn]

theorem typeOfValue? {chain : ScopeChain} (hc : .block b ∉ chain) (name : Name) :
    u.typeOfValue? name chain = t.typeOfValue? name chain := by
  rw [SymbolTable.typeOfValue?, SymbolTable.typeOfValue?, h.ordinaryLookup hc, h.firstType?]

theorem memberType? (s : ScopeId) (name : Name) : u.memberType? s name = t.memberType? s name := by
  have hmembers : u.membersNamed s name = (t.membersNamed s name).map (.shift n k) := by
    rw [membersNamed, membersNamed, (h.membersOf (o := .scope s) (by simp)).decls, List.filter_map]
    exact congrArg _ (List.filter_congr fun d _ => by simp only [Function.comp_apply, h.decl])
  rw [SymbolTable.memberType?, SymbolTable.memberType?, hmembers, h.firstType?]

theorem scopeLinks (m : Nat) (s : ScopeId) : u.scopeLinks m s = t.scopeLinks m s := by
  induction m generalizing s with
  | zero => rfl
  | succ m ih =>
    unfold SymbolTable.scopeLinks
    rw [h.bind_scope? (·.parent) (fun _ _ => rfl)]
    cases (t.scope? s).bind (·.parent) with
    | none => rfl
    | some p => simp only [ih]

theorem chainOfScope (s : ScopeId) : u.chainOfScope s = t.chainOfScope s := h.scopeLinks _ s

theorem ownerLinks (m : Nat) (o : Owner) : u.ownerLinks m o = t.ownerLinks m o := by
  induction m generalizing o with
  | zero =>
    cases o with
    | scope s => exact h.chainOfScope s
    | block c => rfl
  | succ m ih =>
    cases o with
    | scope s => exact h.chainOfScope s
    | block c =>
      have hparent := h.parent c
      simp only [SymbolTable.ownerLinks]
      rcases hu : u.block? c with _ | e' <;> rcases ht : t.block? c with _ | e <;>
        simp only [hu, ht, Option.map_none, Option.map_some, reduceCtorEq, Option.some.injEq]
          at hparent
      · rfl
      · simp only [hparent, ih]

theorem chainAt (c : BlockId) : u.chainAt c = t.chainAt c := by
  rw [SymbolTable.chainAt, SymbolTable.chainAt, h.blocks_size, h.ownerLinks]

/-! ## What is done to both -/

theorem shift_next : DeclId.shift n k ⟨t.decls.size⟩ = ⟨u.decls.size⟩ := by
  rw [DeclId.shift_of_le (d := ⟨t.decls.size⟩) h.le_size, h.decls_size]

theorem shift_eq_next {d : DeclId} : d.shift n k = ⟨u.decls.size⟩ ↔ d = ⟨t.decls.size⟩ := by
  obtain ⟨i⟩ := d
  have hle := h.le_size
  have hsize := h.decls_size
  by_cases hi : i < n
  · rw [DeclId.shift_of_lt (d := ⟨i⟩) hi]
    simp only [DeclId.mk.injEq]
    omega
  · rw [DeclId.shift_of_le (d := ⟨i⟩) (Nat.le_of_not_lt hi)]
    simp only [DeclId.mk.injEq]
    omega

theorem allocScope (e : Scope) (he : e.members = .empty) :
    SameOutside b n k (t.allocScope e).2 (u.allocScope e).2 where
  le_size := h.le_size
  decls_size := h.decls_size
  decl := h.decl
  scopes_size := by simp [SymbolTable.allocScope, h.scopes_size]
  scope s := by
    rw [scope?_allocScope, scope?_allocScope, h.scopes_size]
    split
    · exact .some (.mk (he ▸ .empty n k))
    · exact h.scope s
  block := h.block
  blocks_size := h.blocks_size
  parent := h.parent
  instances := h.instances
  limit := h.limit

theorem setReexports (s : ScopeId) (targets : List ScopeId) :
    SameOutside b n k (t.setReexports s targets) (u.setReexports s targets) where
  le_size := h.le_size
  decls_size := h.decls_size
  decl := h.decl
  scopes_size := by simp [h.scopes_size]
  scope r := by
    rw [scope?_setReexports, scope?_setReexports]
    cases hr : t.scope? r with
    | none =>
      rw [h.scope_none hr]
      exact .none
    | some e =>
      obtain ⟨members, hm, hu⟩ := h.scope_some hr
      rw [hu]
      simp only [Option.map_some]
      split
      · exact .some (.mk hm)
      · exact .some (.mk hm)
  block := h.block
  blocks_size := h.blocks_size
  parent := h.parent
  instances := h.instances
  limit := h.limit

/-- What is declared in a scope of both is listed there under shifted numbers. -/
theorem declare {d : Declaration} {s : ScopeId} (howner : d.owner = .scope s) :
    SameOutside b n k (t.declare d).2 (u.declare d).2 where
  le_size := by
    rw [decls_declare, Array.size_push]
    exact Nat.le_succ_of_le h.le_size
  decls_size := by
    rw [decls_declare, decls_declare, Array.size_push, Array.size_push, h.decls_size]
    omega
  decl i := by
    rw [decl?_declare, decl?_declare, h.decl]
    simp only [h.shift_eq_next]
  scopes_size := by rw [scopes_size_declare, scopes_size_declare, h.scopes_size]
  scope r := by
    rw [scope?_declare, scope?_declare, ← h.shift_next]
    cases hr : t.scope? r with
    | none =>
      rw [h.scope_none hr]
      exact .none
    | some e =>
      obtain ⟨members, hm, hu⟩ := h.scope_some hr
      rw [hu]
      simp only [Option.map_some]
      split
      · exact .some (.mk (hm.push d.name _))
      · exact .some (.mk hm)
  block c hc := by
    have hsame := h.block c hc
    simpa only [SymbolTable.membersOf, members?, block?, blocks_declare_scope _ howner] using hsame
  blocks_size := by rw [blocks_declare_scope _ howner, blocks_declare_scope _ howner, h.blocks_size]
  parent c := by
    have hsame := h.parent c
    simpa only [block?, blocks_declare_scope _ howner] using hsame
  instances := by rw [instances_declare, instances_declare, h.instances]
  limit := by rw [limit_declare, limit_declare, h.limit]

theorem register (key : InstanceKey) (s : ScopeId) :
    SameOutside b n k { t with instances := (key, s) :: t.instances }
      { u with instances := (key, s) :: u.instances } :=
  { h with instances := by rw [h.instances] }

/-- Cutting both back, to lengths that leave the first `n` declarations. -/
theorem truncate {scopes decls : Nat} (hn : n ≤ decls) :
    SameOutside b n k (t.truncate scopes decls) (u.truncate scopes (decls + k)) where
  le_size := by
    have hle := h.le_size
    rw [decls_size_truncate]
    omega
  decls_size := by
    rw [decls_size_truncate, decls_size_truncate, h.decls_size]
    omega
  decl d := by
    have hlt : (d.shift n k).index < decls + k ↔ d.index < decls := by
      by_cases hd : d.index < n
      · rw [DeclId.shift_of_lt hd]
        omega
      · rw [DeclId.shift_of_le (Nat.le_of_not_lt hd)]
        exact Nat.add_lt_add_iff_right
    rw [decl?_truncate, decl?_truncate, h.decl]
    simp only [hlt]
  scopes_size := by simp [SymbolTable.truncate, h.scopes_size]
  scope s := by
    rw [scope?_truncate, scope?_truncate]
    split
    · exact h.scope s
    · exact .none
  block := h.block
  blocks_size := h.blocks_size
  parent := h.parent
  instances := h.instances
  limit := h.limit

end SameOutside

/-! ## Declarations of the block alone -/

theorem SameOutside.refl (b : BlockId) (t : SymbolTable) : SameOutside b t.decls.size 0 t t where
  le_size := Nat.le_refl _
  decls_size := rfl
  decl d := by rw [DeclId.shift_zero]
  scopes_size := rfl
  scope s := by
    cases t.scope? s with
    | none => exact .none
    | some e => exact .some (.mk (.refl _ _))
  block c _ := .refl _ _
  blocks_size := rfl
  parent _ := rfl
  instances := rfl
  limit := rfl

section
variable {b : BlockId} {k : Nat} {t u : SymbolTable}

/-- One more declaration of the block alone shifts whatever is entered after it by one more. -/
theorem SameOutside.declare_block (h : SameOutside b t.decls.size k t u) (ht : t.Sound)
    {d : Declaration} (howner : d.owner = .block b) :
    SameOutside b t.decls.size (k + 1) t (u.declare d).2 where
  le_size := Nat.le_refl _
  decls_size := by
    rw [decls_declare, Array.size_push, h.decls_size]
    omega
  decl i := by
    have hsize := h.decls_size
    by_cases hi : i.index < t.decls.size
    · have hold : u.HasDecl i := by
        rw [HasDecl, hsize]
        omega
      have hsame := h.decl i
      rw [DeclId.shift_of_lt hi] at hsame
      rw [DeclId.shift_of_lt hi, decl?_declare_of_hasDecl hold, hsame]
    · have hle := Nat.le_of_not_lt hi
      have hend : (u.decls.push d).size ≤ i.index + (k + 1) := by
        rw [Array.size_push, hsize]
        omega
      rw [DeclId.shift_of_le hle]
      show (u.decls.push d)[i.index + (k + 1)]? = t.decls[i.index]?
      rw [Array.getElem?_eq_none hend, Array.getElem?_eq_none hle]
  scopes_size := by rw [scopes_size_declare, h.scopes_size]
  scope s := by
    rw [scope?_declare, howner]
    cases hs : t.scope? s with
    | none =>
      rw [h.scope_none hs]
      exact .none
    | some e =>
      obtain ⟨members, hm, hu⟩ := h.scope_some hs
      have hlisted : t.members? (.scope s) = some e.members := by rw [members?, hs, Option.map_some]
      rw [hu]
      exact .some (.mk (hm.of_old fun i hi => ht.listed hlisted hi))
  block c hc := by
    have hne : d.owner ≠ .block c := by
      rw [howner]
      rintro ⟨⟩
      exact hc rfl
    have hsame : (u.declare d).2.membersOf (.block c) = u.membersOf (.block c) := by
      rw [SymbolTable.membersOf, members?_declare, if_neg hne, SymbolTable.membersOf]
    rw [hsame]
    refine (h.block c hc).of_old fun i hi => ?_
    rw [SymbolTable.membersOf] at hi
    cases hm : t.members? (.block c) with
    | none =>
      rw [hm] at hi
      exact absurd hi (Members.not_lists_empty i)
    | some m =>
      rw [hm] at hi
      exact ht.listed hm hi
  blocks_size := by
    rw [← h.blocks_size]
    simp [SymbolTable.declare, listMember, howner]
  parent c := by
    rw [block?_declare, ← h.parent c]
    cases u.block? c with
    | none => rfl
    | some e =>
      simp only [Option.map_some]
      split <;> rfl
  instances := by rw [instances_declare, h.instances]
  limit := by rw [limit_declare, h.limit]

/-- However much is declared in the block, outside of it the table stays the same. -/
theorem SameOutside.foldl_withDecl (h : SameOutside b t.decls.size k t u) (ht : t.Sound)
    {ds : List Declaration} (hds : ∀ d ∈ ds, d.owner = .block b) :
    ∃ k', SameOutside b t.decls.size k' t (ds.foldl withDecl u) := by
  induction ds generalizing u k with
  | nil => exact ⟨k, h⟩
  | cons d ds ih =>
    obtain ⟨hd, hds⟩ := List.forall_mem_cons.1 hds
    rw [List.foldl_cons, withDecl, declare?]
    cases u.members? d.owner with
    | none => exact ih h hds
    | some m => exact ih (h.declare_block ht hd) hds

end

end SymbolTable

end NameLookup
