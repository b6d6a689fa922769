import NameLookup.Proofs.SymbolTable.Atomicity
import NameLookup.Proofs.SymbolTable.InstanceKeys

/-!
# Instances and their keys correspond

A scope records the key that it was built for, and the table enters scopes under keys. The two say
the same (`instances_correspond`): what is entered records its key (`Keyed`), and what records a key
is entered under it (`Recorded`). For the second it matters that a copy makes one instance, however
many scopes it enters: the scopes nested in it record nothing (`NoneBuilt.keptByCopies`).
-/

set_option autoImplicit false

namespace NameLookup.SymbolTable

/-- What records a key is entered as the instance of the key, and is no template. -/
def Recorded (t : SymbolTable) : Prop :=
  ∀ s e key, t.scope? s = some e → e.instanceOf = some key →
    t.instance? key = some s ∧ e.templateParams = none

/-- Between `t` and `u` no instance was made: what records a key in `u` did so in `t`. -/
structure NoneBuilt (t u : SymbolTable) : Prop where
  recorded : ∀ {s e key}, u.scope? s = some e → e.instanceOf = some key →
    ∃ e₀, t.scope? s = some e₀ ∧ e₀.instanceOf = some key ∧ e₀.templateParams = e.templateParams

variable {t t' u v : SymbolTable} {s : ScopeId} {key : InstanceKey} {σ : Substitution}

namespace NoneBuilt

theorem refl (t : SymbolTable) : t.NoneBuilt t := ⟨fun he hkey => ⟨_, he, hkey, rfl⟩⟩

theorem trans (h : t.NoneBuilt u) (h' : u.NoneBuilt v) : t.NoneBuilt v := by
  refine ⟨fun he hkey => ?_⟩
  obtain ⟨e₁, he₁, hkey₁, hparams₁⟩ := h'.recorded he hkey
  obtain ⟨e₀, he₀, hkey₀, hparams₀⟩ := h.recorded he₁ hkey₁
  exact ⟨e₀, he₀, hkey₀, hparams₀.trans hparams₁⟩

theorem allocScope (t : SymbolTable) {e : Scope} (h : e.instanceOf = none) :
    t.NoneBuilt (t.allocScope e).2 := by
  refine ⟨fun {s e' key} he hkey => ?_⟩
  rw [scope?_allocScope] at he
  split at he
  · cases he
    cases h.symm.trans hkey
  · exact ⟨e', he, hkey, rfl⟩

/-- A change of entries that lets alone what they record makes no instance. -/
theorem of_map {f : ScopeId → Scope → Scope} (h : ∀ s, u.scope? s = (t.scope? s).map (f s))
    (hf : ∀ s e, (f s e).instanceOf = e.instanceOf ∧ (f s e).templateParams = e.templateParams) :
    t.NoneBuilt u := by
  refine ⟨fun {s e key} he hkey => ?_⟩
  rw [h] at he
  obtain ⟨e₀, he₀, rfl⟩ := Option.map_eq_some_iff.1 he
  obtain ⟨hinst, hparams⟩ := hf s e₀
  exact ⟨e₀, he₀, hinst ▸ hkey, hparams.symm⟩

theorem declare (t : SymbolTable) (d : Declaration) : t.NoneBuilt (t.declare d).2 :=
  .of_map (scope?_declare t d) fun s e => by split <;> exact ⟨rfl, rfl⟩

theorem setReexports (t : SymbolTable) (r : ScopeId) (targets : List ScopeId) :
    t.NoneBuilt (t.setReexports r targets) :=
  .of_map (fun s => scope?_setReexports t r s targets) fun s e => by split <;> exact ⟨rfl, rfl⟩

/-- A copy makes no instance but the one that it is told to record. -/
theorem keptByCopies (t : SymbolTable) : KeptByCopies t.NoneBuilt where
  alloc _ _ h := h.trans (.allocScope _ rfl)
  declare d h := h.trans (.declare _ d)
  setReexports s targets h := h.trans (.setReexports _ s targets)

end NoneBuilt

/-! ## Operations -/

namespace NoneBuilt

theorem addScope {parent : ScopeId} {name : Name} {kind : ScopeKind} {params : Option (List Name)}
    (h : t.addScope? parent name kind params = some (s, t')) : t.NoneBuilt t' := by
  obtain ⟨e, -, heq⟩ := Option.map_eq_some_iff.1 h
  cases heq
  exact (NoneBuilt.allocScope t rfl).trans (.declare _ _)

theorem addEnum {parent : ScopeId} {name : Name} {enumerators : List Name}
    (h : t.addEnum? parent name enumerators = some (s, t')) : t.NoneBuilt t' := by
  obtain ⟨⟨s', u⟩, hu, heq⟩ := Option.map_eq_some_iff.1 h
  cases heq
  exact List.foldlRecOn enumerators _ (addScope hu) fun u h _ _ => h.trans (.declare u _)

theorem addBlock (t : SymbolTable) (parent : Owner) : t.NoneBuilt (t.addBlock parent).2 :=
  ⟨fun he hkey => ⟨_, he, hkey, rfl⟩⟩

theorem declare? {d : Declaration} {id : DeclId} (h : t.declare? d = some (id, t')) :
    t.NoneBuilt t' := by
  obtain ⟨m, -, heq⟩ := Option.map_eq_some_iff.1 h
  cases heq
  exact .declare t _

theorem addReexport {target : ScopeId} (h : t.addReexport? s target = some t') :
    t.NoneBuilt t' := by
  obtain ⟨e, -, rfl⟩ := Option.map_eq_some_iff.1 h
  split
  · exact .refl t
  · exact .setReexports t _ _

theorem setSpan (t : SymbolTable) (d : DeclId) (span : Range) : t.NoneBuilt (t.setSpan d span) :=
  ⟨fun he hkey => ⟨_, he, hkey, rfl⟩⟩

end NoneBuilt

/-- The only operation that makes an instance is the request for it. -/
theorem Change.noneBuilt (h : t.Change t') :
    t.NoneBuilt t' ∨ ∃ key, t' = (SymbolTable.instantiate key t).2 := by
  cases h with
  | addScope ha => exact .inl (.addScope ha)
  | addEnum ha => exact .inl (.addEnum ha)
  | addBlock parent => exact .inl (.addBlock t parent)
  | declare hd => exact .inl (.declare? hd)
  | addReexport hr => exact .inl (.addReexport hr)
  | setSpan d span => exact .inl (.setSpan t d span)
  | instantiate key => exact .inr ⟨key, rfl⟩

/-! ## Records and entries -/

namespace Recorded

theorem new (limit : Nat) : (SymbolTable.new limit).Recorded := by
  intro s e key he hkey
  have hs : s.index < 1 := hasScope_of_scope? he
  obtain ⟨i⟩ := s
  obtain rfl : i = 0 := Nat.lt_one_iff.1 hs
  cases he
  cases hkey

theorem of_noneBuilt (h : t.Recorded) (hn : t.NoneBuilt t') (hi : t'.instances = t.instances) :
    t'.Recorded := by
  intro s e key he hkey
  obtain ⟨e₀, he₀, hkey₀, hparams⟩ := hn.recorded he hkey
  obtain ⟨hs, hnone⟩ := h s e₀ key he₀ hkey₀
  rw [instance?, hi]
  exact ⟨hs, hparams ▸ hnone⟩

theorem build (h : t.Recorded) (ht : t.Sound) (hnew : t.instance? key = none)
    (hb : buildInstance key t = (.ok s, u)) : u.Recorded := by
  obtain ⟨_, _, _, hr⟩ := buildInstance_replicates ht hb
  obtain ⟨e, params, v, he, -, -, hc, rfl⟩ := buildInstance_copyScope hb
  have hinstances := (buildInstance_ok hb).2.2
  let started := (t.allocScope (blankCopy e e.parent (some key))).2
  have hbefore : started.NoneBuilt t :=
    ⟨fun he' hkey' => ⟨_, ((Extends.refl t).allocScope _).scope_some he', hkey', rfl⟩⟩
  have hnone := (NoneBuilt.keptByCopies started).copyScope t.instantiationLimit key.template e.parent
    (some key) (σ := .ofParams params key.args) hbefore fun src hsrc => by
      cases he.symm.trans hsrc
      exact .refl started
  rw [hc] at hnone
  intro s' e' key' he' hkey'
  obtain ⟨e₀, he₀, hkey₀, hparams⟩ := hnone.recorded he' hkey'
  rw [scope?_allocScope] at he₀
  rw [instance?, hinstances, AssocList.lookup_cons]
  split at he₀
  -- the scope that the copy started with, or one that was there before
  · next hs' =>
    cases he₀
    cases hkey₀
    rw [if_pos rfl, hr.fresh, hs']
    exact ⟨rfl, hparams.symm⟩
  · obtain ⟨hs', hparams'⟩ := h s' e₀ key' he₀ hkey₀
    have hne : key' ≠ key := fun heq => by cases hnew.symm.trans (heq ▸ hs')
    rw [if_neg hne]
    exact ⟨hs', hparams ▸ hparams'⟩

theorem grows (h : t.Recorded) (ht : t.Sound) (hg : t.Grows u) : u.Recorded := by
  induction hg with
  | refl => exact h
  | build hnew hb _ ih => exact ih (h.build ht hnew hb) (ht.grows (.build hnew hb (.refl _)))

theorem change (h : t.Recorded) (ht : t.Sound) (hc : t.Change t') : t'.Recorded := by
  rcases hc.noneBuilt with hn | ⟨key, rfl⟩
  · rcases hc.instances with hi | ⟨key, rfl⟩
    · exact h.of_noneBuilt hn hi
    · exact h.grows ht (instantiate_growing key t)
  · exact h.grows ht (instantiate_growing key t)

end Recorded

theorem Reachable.recorded (h : t.Reachable) : t.Recorded := by
  induction h with
  | new limit => exact .new limit
  | change h hc ih => exact ih.change h.sound hc

/-- No instance is a template. -/
theorem Reachable.isTemplate_of_instance? (h : t.Reachable) (hs : t.instance? key = some s) :
    t.isTemplate s = false := by
  obtain ⟨e, he, hkey⟩ := h.keyed key s hs
  rw [isTemplate, he, Option.any_some, Scope.isTemplate, (h.recorded s e key he hkey).2]
  rfl

/-! ## The correspondence -/

/-- All that lies between `t` and `u` is that the instance of `key` was added, as the scope `s`. -/
structure AddsInstance (t u : SymbolTable) (key : InstanceKey) (s : ScopeId) : Prop where
  fresh : s = ⟨t.scopes.size⟩
  entered : u.HasScope s
  extends_ : t.Extends u
  members : ∀ o, (∀ r, o = .scope r → t.HasScope r) → u.members? o = t.members? o
  instances : ∀ key', u.instance? key' = if key' = key then some s else t.instance? key'

theorem instantiate_adds (ht : t.Sound) (hnew : t.instance? key = none)
    (h : instantiate key t = (.ok s, u)) : AddsInstance t u key s := by
  rw [instantiate_run, hnew] at h
  obtain ⟨e, params, made, hr⟩ := buildInstance_replicates ht h
  obtain ⟨hext, hs, hi⟩ := buildInstance_ok h
  exact ⟨hr.fresh, hs, hext, fun _ => hext.members, fun key' => by
    rw [instance?, hi, AssocList.lookup_cons]
    rfl⟩

/-- A scope records a key just when it is entered as the instance of the key; keys of one instance
are equal, and no instance is a template. Asking for an instance that there is changes nothing; asking
for another one adds it under the next handle and leaves all else, and so what is found along chains
of owners that exist. -/
theorem instances_correspond (ht : t.Reachable) :
    (∀ key s, t.instance? key = some s ↔ ∃ e, t.scope? s = some e ∧ e.instanceOf = some key) ∧
      (∀ key key' s, t.instance? key = some s → t.instance? key' = some s → key = key') ∧
      (∀ key s, t.instance? key = some s → t.isTemplate s = false) ∧
      (∀ key s, t.instance? key = some s → instantiate key t = (.ok s, t)) ∧
      ∀ key s u, t.instance? key = none → instantiate key t = (.ok s, u) →
        AddsInstance t u key s ∧ ∀ name chain, t.ChainIn chain →
          u.ordinaryLookup name chain = t.ordinaryLookup name chain := by
  refine ⟨fun key s => ⟨ht.keyed key s, ?_⟩, fun key key' s => ht.keyed.key_unique,
    fun key s => ht.isTemplate_of_instance?, fun key s hs => ?_, fun key s u hnew h => ?_⟩
  · rintro ⟨e, he, hkey⟩
    exact (ht.recorded s e key he hkey).1
  · rw [instantiate_run, hs]
  · have hadds := instantiate_adds ht.sound hnew h
    exact ⟨hadds, fun name chain hc => hadds.extends_.ordinaryLookup hc name⟩

theorem nestedClass_reachable (limit : Nat) : (nestedClass limit).Reachable :=
  ((((Reachable.new limit).withScope ..).withDecl _).withScope ..).withDecl _

/-- `Outer<int>` is entered as the scope 3. Its copy of `Inner` is the scope 4, which is no instance,
and is not seen from the global namespace. -/
theorem instances_correspond_nestedClass :
    let key : InstanceKey := ⟨⟨1⟩, [.scalar "int"]⟩
    let t := nestedClass 2
    let u := (instantiate key t).2
    AddsInstance t u key ⟨3⟩ ∧ u.scopes.size = 5 ∧ (∀ key', u.instance? key' ≠ some ⟨4⟩) ∧
      u.isTemplate ⟨3⟩ = false ∧ instantiate key u = (.ok ⟨3⟩, u) ∧
      u.ordinaryLookup "Inner" [.scope global] = t.ordinaryLookup "Inner" [.scope global] := by
  intro key t u
  have ht : t.Reachable := nestedClass_reachable 2
  have hnew : t.instance? key = none := by rfl
  have hrun : instantiate key t = (.ok ⟨3⟩, u) := Attempt.run_of_fst (by rfl)
  obtain ⟨-, -, -, -, hadd⟩ := instances_correspond ht
  obtain ⟨hadds, hlookup⟩ := hadd key ⟨3⟩ u hnew hrun
  obtain ⟨hiff, -, htemplate, hknown, -⟩ := instances_correspond (ht.change (.instantiate key))
  have hentered : u.instance? key = some ⟨3⟩ := by rw [hadds.instances, if_pos rfl]
  refine ⟨hadds, by decide +kernel, fun key' h => ?_, htemplate key _ hentered, hknown key _ hentered,
    hlookup _ _ (by decide)⟩
  obtain ⟨e, he, hkey⟩ := (hiff key' ⟨4⟩).1 h
  have hinner : (u.scope? ⟨4⟩).bind (·.instanceOf) = none := by decide +kernel
  rw [he, Option.bind_some, hkey] at hinner
  cases hinner

end NameLookup.SymbolTable
