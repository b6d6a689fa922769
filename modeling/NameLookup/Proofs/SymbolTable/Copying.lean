import NameLookup.SymbolTable.Instance
import NameLookup.Proofs.SymbolTable.Extension

/-!
# The tables that arise while an instance is built

`Copying t₀ key σ t`: `t` is one of the tables between `t₀` and the end of a copy that is made for
`key` under the bindings `σ`. Its constructors are the three things that a copy does to the table
and say all that a later proof has to know about them; `copyScope_goesOn` shows that nothing else
is done, so that what the three steps keep is kept by every copy, finished or not.

* `Copying.extends`: a copy only adds entries.
* `buildInstance_cases`: an instance is a finished copy; where there is a fault instead, the table
  is as before.
* `KeptByCopies.copyScope`: for a property that has nothing to do with where a copy is made, the steps
  can be taken one by one.
-/

set_option autoImplicit false

namespace NameLookup.SymbolTable

/-- A type that a copied declaration may have. -/
inductive CopiedType (t : SymbolTable) (σ : Substitution) : TypeExpr → Prop
  | scope {s : ScopeId} (hs : t.HasScope s) : CopiedType t σ (.scope s)
  | substituted {d : DeclId} {e : Declaration} {ty : TypeExpr} (hd : t.decl? d = some e)
      (hty : e.type = some ty) : CopiedType t σ (ty.substitute σ)

/-- A scope that a copy may stand in: one of the table, or the one around the template. -/
def MayHouse (t₀ : SymbolTable) (key : InstanceKey) (t : SymbolTable) (p : ScopeId) : Prop :=
  t.HasScope p ∨ ∃ e, t₀.scope? key.template = some e ∧ e.parent = some p

/-- `t` is a stage of a copy that is made in `t₀`. -/
inductive Copying (t₀ : SymbolTable) (key : InstanceKey) (σ : Substitution) : SymbolTable → Prop
  | start : Copying t₀ key σ t₀
  | alloc {t : SymbolTable} {s : ScopeId} {src : Scope} {parent : Option ScopeId}
      {instanceOf : Option InstanceKey} (h : Copying t₀ key σ t) (hsrc : t.scope? s = some src)
      (hparent : ∀ p, parent = some p → MayHouse t₀ key t p)
      (hkey : ∀ k, instanceOf = some k → k = key) :
      Copying t₀ key σ (t.allocScope (blankCopy src parent instanceOf)).2
  | declare {t : SymbolTable} {d : Declaration} {s : ScopeId} (h : Copying t₀ key σ t)
      (howner : d.owner = .scope s) (hnew : t₀.scopes.size ≤ s.index) (hs : t.HasScope s)
      (htype : ∀ ty, d.type = some ty → CopiedType t σ ty) : Copying t₀ key σ (t.declare d).2
  | reexport {t t₁ : SymbolTable} {s r : ScopeId} {src : Scope} {targets : List ScopeId}
      (h : Copying t₀ key σ t) (hnew : t₀.scopes.size ≤ s.index) (h₁ : Copying t₀ key σ t₁)
      (hle : t₁.scopes.size ≤ t.scopes.size) (hsrc : t₁.scope? r = some src)
      (htargets : ∀ x ∈ targets, t.HasScope x ∨ x ∈ src.reexports) :
      Copying t₀ key σ (t.setReexports s targets)

variable {t₀ t : SymbolTable} {key : InstanceKey} {σ : Substitution}

theorem Copying.extends (h : Copying t₀ key σ t) : t₀.Extends t := by
  induction h with
  | start => exact .refl t₀
  | alloc _ _ _ _ ih => exact ih.allocScope _
  | declare _ howner hnew _ _ ih => exact ih.declare howner hnew
  | reexport _ hnew _ _ _ _ ih _ => exact ih.setReexports hnew _

theorem Copying.instances_eq (h : Copying t₀ key σ t) : t.instances = t₀.instances := by
  induction h with
  | start => rfl
  | alloc _ _ _ _ ih => exact ih
  | declare _ _ _ _ _ ih => rw [instances_declare, ih]
  | reexport _ _ _ _ _ _ ih _ => exact ih

/-! ## Runs -/

/-- What a run that started on `t` came to: a further stage of the copy, with a result in `Q`. -/
structure GoesOn {α : Type} (t₀ : SymbolTable) (key : InstanceKey) (σ : Substitution)
    (t : SymbolTable) (Q : SymbolTable → α → Prop) (r : Except InstantiationFault α × SymbolTable) :
    Prop where
  copying : Copying t₀ key σ r.2
  scopes_le : t.scopes.size ≤ r.2.scopes.size
  result : ∀ {a}, r.1 = .ok a → Q r.2 a

/-- The copies of nested scopes made so far have been entered. -/
def CopiesIn (t : SymbolTable) (copies : Copies) : Prop := ∀ x ∈ copies, t.HasScope x.2

theorem CopiesIn.mono {t t' : SymbolTable} {copies : Copies} (h : CopiesIn t copies)
    (hle : t.scopes.size ≤ t'.scopes.size) : CopiesIn t' copies :=
  fun x hx => Nat.lt_of_lt_of_le (h x hx) hle

section
variable {copyNested : ScopeId → TableM InstantiationFault ScopeId} (source : ScopeId)
  {target : ScopeId} {copies : Copies}
  (hnested : ∀ s {t}, Copying t₀ key σ t → t.HasScope target →
    GoesOn t₀ key σ t HasScope (copyNested s t))
include hnested

theorem copyType_goesOn (h : Copying t₀ key σ t) (htarget : t.HasScope target)
    (hcopies : CopiesIn t copies) {d : DeclId} {decl : Declaration} (hd : t.decl? d = some decl) :
    GoesOn t₀ key σ t
      (fun t' r => (∀ ty, r.1 = some ty → CopiedType t' σ ty) ∧ CopiesIn t' r.2)
      (copyType copyNested source target σ decl.kind copies decl.type t) := by
  by_cases hscope : ∃ s, decl.type = some (.scope s)
  · obtain ⟨s, hs⟩ := hscope
    rw [hs, copyType_scope]
    split
    · refine ⟨h, Nat.le_refl _, fun hr => ?_⟩
      cases hr
      exact ⟨fun ty hty => by cases hty; exact .scope htarget, hcopies⟩
    · split
      · have hn := hnested s h htarget
        rcases hc : copyNested s t with ⟨fault | copy, t'⟩ <;> rw [hc] at hn
        · exact ⟨hn.copying, hn.scopes_le, fun hr => by cases hr⟩
        · refine ⟨hn.copying, hn.scopes_le, fun hr => ?_⟩
          cases hr
          have hcopy : t'.HasScope copy := hn.result rfl
          refine ⟨fun ty hty => by cases hty; exact .scope hcopy, fun x hx => ?_⟩
          rcases List.mem_cons.1 hx with rfl | hx
          · exact hcopy
          · exact (hcopies.mono hn.scopes_le) x hx
      · refine ⟨h, Nat.le_refl _, fun hr => ?_⟩
        cases hr
        refine ⟨fun ty hty => ?_, hcopies⟩
        cases hty
        exact .substituted hd hs
  · rw [copyType_of_not_scope _ _ _ _ _ _ _ fun s hs => hscope ⟨s, hs⟩]
    refine ⟨h, Nat.le_refl _, fun hr => ?_⟩
    cases hr
    refine ⟨fun ty hty => ?_, hcopies⟩
    obtain ⟨ty₀, hty₀, rfl⟩ := Option.map_eq_some_iff.1 hty
    exact .substituted hd hty₀

theorem copyDecls_goesOn (htarget : t.HasScope target) (hnew : t₀.scopes.size ≤ target.index)
    (h : Copying t₀ key σ t) (hcopies : CopiesIn t copies) (ds : List DeclId) :
    GoesOn t₀ key σ t CopiesIn (copyDecls copyNested source target σ ds copies t) := by
  induction ds generalizing t copies with
  | nil => exact ⟨h, Nat.le_refl _, fun hr => by cases hr; exact hcopies⟩
  | cons d ds ih =>
    rw [copyDecls_cons]
    cases hd : t.decl? d with
    | none => exact ⟨h, Nat.le_refl _, fun hr => by cases hr⟩
    | some decl =>
      have ht := copyType_goesOn source hnested h htarget hcopies hd
      simp only
      rcases hc : copyType copyNested source target σ decl.kind copies decl.type t
        with ⟨fault | ⟨type, copies'⟩, t'⟩ <;> rw [hc] at ht
      · exact ⟨ht.copying, ht.scopes_le, fun hr => by cases hr⟩
      · obtain ⟨htype, hcopies'⟩ := ht.result rfl
        have htarget' : t'.HasScope target := Nat.lt_of_lt_of_le htarget ht.scopes_le
        have hdecl : Copying t₀ key σ
            (t'.declare { decl with owner := .scope target, type }).2 :=
          .declare ht.copying rfl hnew htarget' htype
        have hsize : t'.scopes.size =
            (t'.declare { decl with owner := .scope target, type }).2.scopes.size :=
          (scopes_size_declare _ _).symm
        have hrest := ih (Nat.lt_of_lt_of_le htarget' (Nat.le_of_eq hsize)) hdecl
          (hcopies'.mono (Nat.le_of_eq hsize))
        exact ⟨hrest.copying,
          Nat.le_trans ht.scopes_le (Nat.le_trans (Nat.le_of_eq hsize) hrest.scopes_le),
          hrest.result⟩

end

/-- A copy, finished or broken off, is made of the steps of `Copying`. -/
theorem copyScope_goesOn (room : Nat) (source : ScopeId) {parent : Option ScopeId}
    {instanceOf : Option InstanceKey} (h : Copying t₀ key σ t)
    (hparent : ∀ p, parent = some p → MayHouse t₀ key t p)
    (hkey : ∀ k, instanceOf = some k → k = key) :
    GoesOn t₀ key σ t HasScope (copyScope σ room source parent instanceOf t) := by
  induction room generalizing t source parent instanceOf with
  | zero =>
    rw [copyScope_zero]
    exact ⟨h, Nat.le_refl _, fun hr => by cases hr⟩
  | succ room ih =>
    rw [copyScope_succ]
    cases hsrc : t.scope? source with
    | none => exact ⟨h, Nat.le_refl _, fun hr => by cases hr⟩
    | some src =>
      have halloc : Copying t₀ key σ (t.allocScope (blankCopy src parent instanceOf)).2 :=
        .alloc h hsrc hparent hkey
      have hsize : (t.allocScope (blankCopy src parent instanceOf)).2.scopes.size =
          t.scopes.size + 1 := Array.size_push _
      have htarget : (t.allocScope (blankCopy src parent instanceOf)).2.HasScope
          ⟨t.scopes.size⟩ := by rw [HasScope, hsize]; exact Nat.lt_succ_self _
      have hnested : ∀ s {t'}, Copying t₀ key σ t' → t'.HasScope ⟨t.scopes.size⟩ →
          GoesOn t₀ key σ t' HasScope (copyScope σ room s (some ⟨t.scopes.size⟩) none t') :=
        fun s t' ht' hts => ih s ht' (fun p hp => by cases hp; exact .inl hts)
          (fun k hk => by cases hk)
      have hnone : CopiesIn (t.allocScope (blankCopy src parent instanceOf)).2 [] :=
        fun x hx => absurd hx List.not_mem_nil
      have hdecls := copyDecls_goesOn source hnested htarget h.extends.scopes_le halloc hnone
        src.members.decls
      simp only
      rcases hc : copyDecls (fun s => copyScope σ room s (some ⟨t.scopes.size⟩) none) source
        ⟨t.scopes.size⟩ σ src.members.decls [] (t.allocScope (blankCopy src parent instanceOf)).2
        with ⟨fault | copies, t'⟩ <;> rw [hc] at hdecls
      · have hle : t.scopes.size + 1 ≤ t'.scopes.size := hsize ▸ hdecls.scopes_le
        exact ⟨hdecls.copying, Nat.le_of_succ_le hle, fun hr => by cases hr⟩
      · have hle : t.scopes.size + 1 ≤ t'.scopes.size := hsize ▸ hdecls.scopes_le
        have hcopies : CopiesIn t' copies := hdecls.result rfl
        refine ⟨.reexport hdecls.copying h.extends.scopes_le h (Nat.le_of_succ_le hle) hsrc
          fun x hx => ?_, ?_, fun hr => ?_⟩
        · obtain ⟨r, hr, rfl⟩ := List.mem_map.1 hx
          cases hl : copies.lookup r with
          | none => exact .inr hr
          | some copy => exact .inl (hcopies _ (AssocList.mem_of_lookup hl))
        · simp only [scopes_size_setReexports]
          exact Nat.le_of_succ_le hle
        · cases hr
          rw [HasScope, scopes_size_setReexports]
          exact hle

/-! ## What copies keep -/

/-- The property survives all that the copy of a nested scope does to the table. -/
structure KeptByCopies (P : SymbolTable → Prop) : Prop where
  alloc : ∀ {t} (src : Scope) (p : ScopeId), P t → P (t.allocScope (blankCopy src (some p) none)).2
  declare : ∀ {t} (d : Declaration), P t → P (t.declare d).2
  setReexports : ∀ {t} (s : ScopeId) (targets : List ScopeId), P t → P (t.setReexports s targets)

namespace KeptByCopies

variable {P : SymbolTable → Prop} (hP : KeptByCopies P)
include hP

section
variable {copyNested : ScopeId → TableM InstantiationFault ScopeId} (source target : ScopeId)
  (hnested : ∀ (s : ScopeId) {t : SymbolTable}, P t → P (copyNested s t).2)
include hnested

omit hP in
theorem copyType (kind : DeclKind) (copies : Copies) (type : Option TypeExpr) (ht : P t) :
    P (copyType copyNested source target σ kind copies type t).2 := by
  by_cases hscope : ∃ s, type = some (.scope s)
  · obtain ⟨s, rfl⟩ := hscope
    rw [copyType_scope]
    split
    · exact ht
    · split
      · have hs := hnested s ht
        rcases hc : copyNested s t with ⟨fault | copy, t'⟩ <;> rw [hc] at hs <;> exact hs
      · exact ht
  · rw [copyType_of_not_scope _ _ _ _ _ _ _ fun s hs => hscope ⟨s, hs⟩]
    exact ht

theorem copyDecls (ds : List DeclId) (copies : Copies) (ht : P t) :
    P (copyDecls copyNested source target σ ds copies t).2 := by
  induction ds generalizing t copies with
  | nil => exact ht
  | cons d ds ih =>
    rw [copyDecls_cons]
    cases t.decl? d with
    | none => exact ht
    | some decl =>
      have htype := copyType source target hnested decl.kind copies decl.type ht (σ := σ)
      simp only
      rcases hc : SymbolTable.copyType copyNested source target σ decl.kind copies decl.type t
        with ⟨fault | ⟨type, copies'⟩, t'⟩ <;> rw [hc] at htype
      · exact htype
      · exact ih copies' (hP.declare _ htype)

end

/-- If the property holds with the copy just entered, it holds of the finished copy. -/
theorem copyScope (room : Nat) (source : ScopeId) (parent : Option ScopeId)
    (k : Option InstanceKey) (ht : P t)
    (hroot : ∀ src, t.scope? source = some src → P (t.allocScope (blankCopy src parent k)).2) :
    P (copyScope σ room source parent k t).2 := by
  induction room generalizing t source parent k with
  | zero =>
    rw [copyScope_zero]
    exact ht
  | succ room ih =>
    rw [copyScope_succ]
    cases hsrc : t.scope? source with
    | none => exact ht
    | some src =>
      have hdecls := hP.copyDecls source ⟨t.scopes.size⟩
        (fun s t' ht' => ih s (some ⟨t.scopes.size⟩) none ht' fun src _ => hP.alloc src _ ht')
        src.members.decls [] (hroot src hsrc) (σ := σ)
      simp only
      rcases hc : SymbolTable.copyDecls
        (fun s => SymbolTable.copyScope σ room s (some ⟨t.scopes.size⟩) none) source
        ⟨t.scopes.size⟩ σ src.members.decls [] (t.allocScope (blankCopy src parent k)).2
        with ⟨fault | copies, t'⟩ <;> rw [hc] at hdecls
      · exact hdecls
      · exact hP.setReexports _ _ hdecls

end KeptByCopies

/-! ## Building instances -/

/-- What building an instance comes to: a finished copy, or a fault and the table as it was. -/
theorem buildInstance_cases (key : InstanceKey) (t : SymbolTable) :
    (∃ fault, buildInstance key t = (.error fault, t)) ∨
      ∃ e params s t', t.scope? key.template = some e ∧ e.templateParams = some params ∧
        Copying t key (.ofParams params key.args) t' ∧ t'.HasScope s ∧
        buildInstance key t = (.ok s, { t' with instances := (key, s) :: t.instances }) := by
  rw [buildInstance_run]
  cases he : t.scope? key.template with
  | none => exact .inl ⟨_, rfl⟩
  | some e =>
    simp only
    cases hparams : e.templateParams with
    | none => exact .inl ⟨_, rfl⟩
    | some params =>
      simp only
      split
      · exact .inl ⟨_, rfl⟩
      · have hcopy : GoesOn t key (.ofParams params key.args) t HasScope
            (copyScope (.ofParams params key.args) t.instantiationLimit key.template e.parent
              (some key) t) :=
          copyScope_goesOn _ _ .start (fun p hp => .inr ⟨e, he, hp⟩)
            (fun k hk => (Option.some.inj hk).symm)
        rcases hc : copyScope (.ofParams params key.args) t.instantiationLimit key.template e.parent
          (some key) t with ⟨fault | s, t'⟩ <;> rw [hc] at hcopy
        · have hundo : t'.truncate t.scopes.size t.decls.size = t :=
            hcopy.copying.extends.truncate hcopy.copying.instances_eq
          exact .inl ⟨fault, by simp only [hundo]⟩
        · have hinst : t'.instances = t.instances := hcopy.copying.instances_eq
          exact .inr ⟨e, params, s, t', rfl, hparams, hcopy.copying, hcopy.result rfl,
            by simp only [hinst]⟩

/-- An instance that was built is a finished copy, entered under its key. -/
theorem buildInstance_copying {s : ScopeId} {t t' : SymbolTable}
    (h : buildInstance key t = (.ok s, t')) :
    ∃ params u, Copying t key (.ofParams params key.args) u ∧ u.HasScope s ∧
      t' = { u with instances := (key, s) :: t.instances } := by
  rcases buildInstance_cases key t with ⟨_, hf⟩ | ⟨_, params, s', u, _, _, hc, hs, hok⟩
  · rw [hf] at h
    cases h
  · rw [hok] at h
    cases h
    exact ⟨params, u, hc, hs, rfl⟩

/-- An instance that cannot be completed leaves the table as it was. -/
theorem instantiate_error {key : InstanceKey} {t t' : SymbolTable} {fault : InstantiationFault}
    (h : instantiate key t = (.error fault, t')) : t' = t := by
  rw [instantiate_run] at h
  cases hi : t.instance? key with
  | some s => rw [hi] at h; cases h
  | none =>
    rw [hi] at h
    simp only at h
    rcases buildInstance_cases key t with ⟨f, hf⟩ | ⟨_, _, _, _, _, _, _, _, hok⟩
    · rw [hf] at h
      exact (Prod.mk.inj h).2.symm
    · rw [hok] at h
      cases h

end NameLookup.SymbolTable
