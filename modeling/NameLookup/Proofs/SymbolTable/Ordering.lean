import NameLookup.Proofs.SymbolTable.Closed
import NameLookup.Proofs.SymbolTable.InstanceRecords

/-!
# Parents and arguments are older

A table is `Grounded` if it came about by operations that were asked for what there was: a block was
put into an owner that existed, and an instance was built for arguments that mentioned scopes that
existed. Then numbers decrease along every reference from a scope or a block to what it stands in,
and from an instance to what its key mentions (`Grounded.ordered`).

For parents this holds of every table (`Sound.parent_lt`). For keys it is enough to look at the
scope that an instance is entered as (`KeysOlder.build`), since nothing else that a copy enters
records a key. That only the global namespace has no parent is a matter of the copies of nested
scopes as well (`Housed.build`).
-/

set_option autoImplicit false

namespace NameLookup.SymbolTable

/-- The scope or block has been entered. -/
def HasOwner (t : SymbolTable) : Owner → Prop
  | .scope s => t.HasScope s
  | .block b => b.index < t.blocks.size

instance (t : SymbolTable) : (o : Owner) → Decidable (t.HasOwner o)
  | .scope s => inferInstanceAs (Decidable (t.HasScope s))
  | .block b => inferInstanceAs (Decidable (b.index < t.blocks.size))

/-- An operation on what there is: the parent of a block exists, and so do the scopes that the
arguments of an instance mention. The other operations see to it themselves. -/
inductive GroundedChange (t : SymbolTable) : SymbolTable → Prop
  | addScope {parent s : ScopeId} {name : Name} {kind : ScopeKind} {params : Option (List Name)}
      {t' : SymbolTable} (h : t.addScope? parent name kind params = some (s, t')) :
      GroundedChange t t'
  | addEnum {parent s : ScopeId} {name : Name} {enumerators : List Name} {t' : SymbolTable}
      (h : t.addEnum? parent name enumerators = some (s, t')) : GroundedChange t t'
  | addBlock (parent : Owner) (h : t.HasOwner parent) : GroundedChange t (t.addBlock parent).2
  | declare {d : Declaration} {id : DeclId} {t' : SymbolTable} (h : t.declare? d = some (id, t')) :
      GroundedChange t t'
  | addReexport {s target : ScopeId} {t' : SymbolTable} (h : t.addReexport? s target = some t') :
      GroundedChange t t'
  | setSpan (d : DeclId) (span : Range) : GroundedChange t (t.setSpan d span)
  | instantiate (key : InstanceKey) (h : ∀ a ∈ key.args, t.Knows a) :
      GroundedChange t (SymbolTable.instantiate key t).2

/-- The table came about from a fresh one by operations on what there was. -/
inductive Grounded : SymbolTable → Prop
  | new (limit : Nat) : Grounded (new limit)
  | change {t t' : SymbolTable} (h : Grounded t) (hc : GroundedChange t t') : Grounded t'

/-- What a scope or block stands in and what an instance was built for are older than it, and only
the global namespace stands in nothing. -/
structure Ordered (t : SymbolTable) : Prop where
  parent_lt : ∀ {s e p}, t.scope? s = some e → e.parent = some p → p.index < s.index
  root : ∀ {s e}, t.scope? s = some e → e.parent = none → s = global
  key_lt : ∀ {s e key r}, t.scope? s = some e → e.instanceOf = some key →
    r ∈ (TypeExpr.apply key.template key.args).mentions → r.index < s.index
  block_lt : ∀ {b e b'}, t.block? b = some e → e.parent = .block b' → b'.index < b.index
  blocksIn : t.BlocksIn

variable {t u : SymbolTable} {s : ScopeId} {key : InstanceKey}

theorem GroundedChange.change (h : t.GroundedChange u) : t.Change u := by
  cases h with
  | addScope ha => exact .addScope ha
  | addEnum ha => exact .addEnum ha
  | addBlock parent _ => exact .addBlock parent
  | declare hd => exact .declare hd
  | addReexport hr => exact .addReexport hr
  | setSpan d span => exact .setSpan d span
  | instantiate key _ => exact .instantiate key

theorem Grounded.reachable (h : t.Grounded) : t.Reachable := by
  induction h with
  | new limit => exact .new limit
  | change _ hc ih => exact ih.change hc.change

theorem Grounded.withScope (h : t.Grounded) (parent : ScopeId) (name : Name)
    (kind : ScopeKind) (params : Option (List Name)) :
    (t.withScope parent name kind params).Grounded := by
  unfold SymbolTable.withScope
  cases ha : t.addScope? parent name kind params with
  | none => exact h
  | some r => exact h.change (.addScope ha)

theorem Grounded.withDecl (h : t.Grounded) (d : Declaration) : (t.withDecl d).Grounded := by
  unfold SymbolTable.withDecl
  cases hd : t.declare? d with
  | none => exact h
  | some r => exact h.change (.declare hd)

/-! ## What scopes and blocks stand in -/

/-- Every scope stands in another one, save the global namespace, which is no template; blocks stand
in scopes that exist or in older blocks. -/
structure Housed (t : SymbolTable) : Prop where
  root : ∀ {s e}, t.scope? s = some e → e.parent = none → s = global ∧ e.templateParams = none
  blocksIn : t.BlocksIn
  block_lt : ∀ {b e b'}, t.block? b = some e → e.parent = .block b' → b'.index < b.index

namespace Housed

theorem new (limit : Nat) : (SymbolTable.new limit).Housed where
  root {s e} hs _ := by
    obtain ⟨_ | i⟩ := s <;> cases hs
    exact ⟨rfl, rfl⟩
  blocksIn b e s hb := by cases hb
  block_lt hb := by cases hb

theorem allocScope (h : t.Housed) {e : Scope} (hparent : e.parent ≠ none) :
    (t.allocScope e).2.Housed where
  root {s e'} hs hp := by
    rw [scope?_allocScope] at hs
    split at hs
    · cases hs
      exact absurd hp hparent
    · exact h.root hs hp
  blocksIn := h.blocksIn.mono ((Extends.refl t).allocScope e)
  block_lt := h.block_lt

/-- A change of entries that lets alone what they stand in. -/
theorem of_map {f : ScopeId → Scope → Scope} {g : BlockId → Block → Block} (h : t.Housed)
    (hscope : ∀ s, u.scope? s = (t.scope? s).map (f s))
    (hblock : ∀ b, u.block? b = (t.block? b).map (g b))
    (hf : ∀ s e, (f s e).parent = e.parent ∧ (f s e).templateParams = e.templateParams)
    (hg : ∀ b e, (g b e).parent = e.parent) (hsize : u.scopes.size = t.scopes.size) :
    u.Housed where
  root {s e} hs hp := by
    rw [hscope] at hs
    obtain ⟨e₀, he₀, rfl⟩ := Option.map_eq_some_iff.1 hs
    obtain ⟨hparent, hparams⟩ := hf s e₀
    rw [hparams]
    exact h.root he₀ (hparent ▸ hp)
  blocksIn b e s hb hp := by
    rw [hblock] at hb
    obtain ⟨e₀, he₀, rfl⟩ := Option.map_eq_some_iff.1 hb
    rw [HasScope, hsize]
    exact h.blocksIn b e₀ s he₀ (hg b e₀ ▸ hp)
  block_lt {b e b'} hb hp := by
    rw [hblock] at hb
    obtain ⟨e₀, he₀, rfl⟩ := Option.map_eq_some_iff.1 hb
    exact h.block_lt he₀ (hg b e₀ ▸ hp)

theorem declare (h : t.Housed) (d : Declaration) : (t.declare d).2.Housed :=
  h.of_map (scope?_declare t d) (block?_declare t d)
    (fun s e => by split <;> exact ⟨rfl, rfl⟩) (fun b e => by split <;> rfl)
    (scopes_size_declare t d)

theorem setReexports (h : t.Housed) (r : ScopeId) (targets : List ScopeId) :
    (t.setReexports r targets).Housed :=
  h.of_map (g := fun _ e => e) (fun s => scope?_setReexports t r s targets)
    (fun b => Option.map_id'.symm)
    (fun s e => by split <;> exact ⟨rfl, rfl⟩) (fun b e => rfl) (scopes_size_setReexports t r targets)

theorem addBlock (h : t.Housed) {parent : Owner} (hparent : t.HasOwner parent) :
    (t.addBlock parent).2.Housed where
  root := h.root
  blocksIn b e s hb hp := by
    rw [block?_addBlock] at hb
    split at hb
    · cases hb
      subst hp
      exact hparent
    · exact h.blocksIn b e s hb hp
  block_lt {b e b'} hb hp := by
    rw [block?_addBlock] at hb
    split at hb
    · next hnew =>
      cases hb
      subst hp hnew
      exact hparent
    · exact h.block_lt hb hp

theorem keptByCopies : KeptByCopies Housed where
  alloc _ p h := h.allocScope (Option.some_ne_none p)
  declare d h := h.declare d
  setReexports s targets h := h.setReexports s targets

/-- An instance stands in what its template stands in, which is not the global namespace. -/
theorem build (h : t.Housed) (hb : buildInstance key t = (.ok s, u)) : u.Housed := by
  obtain ⟨e, params, v, he, hparams, -, hc, rfl⟩ := buildInstance_copyScope hb
  have hparent : e.parent ≠ none := fun hp => by
    cases hparams.symm.trans (h.root he hp).2
  have hv := keptByCopies.copyScope t.instantiationLimit key.template e.parent (some key)
    (σ := .ofParams params key.args) h fun src hsrc => by
      cases he.symm.trans hsrc
      exact h.allocScope hparent
  rw [hc] at hv
  exact ⟨hv.root, hv.blocksIn, hv.block_lt⟩

theorem addScope (h : t.Housed) {parent : ScopeId} {name : Name} {kind : ScopeKind}
    {params : Option (List Name)} (ha : t.addScope? parent name kind params = some (s, u)) :
    u.Housed := by
  obtain ⟨e, -, heq⟩ := Option.map_eq_some_iff.1 ha
  cases heq
  exact (h.allocScope (Option.some_ne_none parent)).declare _

theorem change (h : t.Housed) (hc : t.GroundedChange u) : u.Housed := by
  cases hc with
  | addScope ha => exact h.addScope ha
  | @addEnum parent s name enumerators _ ha =>
    obtain ⟨⟨s', v⟩, hv, heq⟩ := Option.map_eq_some_iff.1 ha
    cases heq
    exact List.foldlRecOn enumerators _ (h.addScope hv) fun w hw _ _ => hw.declare _
  | addBlock parent hparent => exact h.addBlock hparent
  | declare hd =>
    obtain ⟨m, -, heq⟩ := Option.map_eq_some_iff.1 hd
    cases heq
    exact h.declare _
  | addReexport hr =>
    obtain ⟨e, -, rfl⟩ := Option.map_eq_some_iff.1 hr
    split
    · exact h
    · exact h.setReexports _ _
  | setSpan d span => exact ⟨h.root, h.blocksIn, h.block_lt⟩
  | instantiate key _ =>
    rcases hi : instantiate key t with ⟨r, v⟩
    rcases instantiate_step hi with rfl | ⟨s, -, -, hb⟩
    · exact h
    · exact h.build hb

end Housed

/-! ## What instances were built for -/

/-- What the key of an instance mentions is older than the instance. -/
def KeysOlder (t : SymbolTable) : Prop :=
  ∀ s e key, t.scope? s = some e → e.instanceOf = some key →
    ∀ r ∈ (TypeExpr.apply key.template key.args).mentions, r.index < s.index

namespace KeysOlder

theorem new (limit : Nat) : (SymbolTable.new limit).KeysOlder := by
  intro s e key hs hkey
  obtain ⟨_ | i⟩ := s <;> cases hs
  cases hkey

theorem of_noneBuilt (h : t.KeysOlder) (hn : t.NoneBuilt u) : u.KeysOlder := by
  intro s e key hs hkey
  obtain ⟨e₀, he₀, hkey₀, -⟩ := hn.recorded hs hkey
  exact h s e₀ key he₀ hkey₀

/-- The instance of a key is entered after all that the key mentions, and is the only new scope that
records a key. -/
theorem build (h : t.KeysOlder) (ht : t.Reachable) (hnew : t.instance? key = none)
    (hargs : ∀ a ∈ key.args, t.Knows a) (hb : instantiate key t = (.ok s, u)) : u.KeysOlder := by
  have hrecorded := (ht.change (.instantiate key)).recorded
  rw [hb] at hrecorded
  have hadds := instantiate_adds ht.sound hnew hb
  intro s' e' key' hs' hkey' r hr
  have hentered := (hrecorded s' e' key' hs' hkey').1
  rw [hadds.instances] at hentered
  split at hentered
  · next heq =>
    cases hentered
    subst heq
    rw [instantiate_run, hnew] at hb
    obtain ⟨e, -, -, he, -⟩ := buildInstance_copyScope hb
    rw [hadds.fresh]
    exact knows_apply.2 ⟨hasScope_of_scope? he, hargs⟩ r hr
  · obtain ⟨e, he, hkey⟩ := ht.keyed key' s' hentered
    exact h s' e key' he hkey r hr

theorem change (h : t.KeysOlder) (ht : t.Reachable) (hc : t.GroundedChange u) : u.KeysOlder := by
  cases hc with
  | addScope ha => exact h.of_noneBuilt (.addScope ha)
  | addEnum ha => exact h.of_noneBuilt (.addEnum ha)
  | addBlock parent _ => exact h.of_noneBuilt (.addBlock t parent)
  | declare hd => exact h.of_noneBuilt (.declare? hd)
  | addReexport hr => exact h.of_noneBuilt (.addReexport hr)
  | setSpan d span => exact h.of_noneBuilt (.setSpan t d span)
  | instantiate key hargs =>
    rcases hi : SymbolTable.instantiate key t with ⟨r, v⟩
    rcases instantiate_step hi with rfl | ⟨s, rfl, hnew, -⟩
    · exact h
    · exact h.build ht hnew hargs hi

end KeysOlder

/-! ## Grounded tables -/

theorem Grounded.housed (h : t.Grounded) : t.Housed := by
  induction h with
  | new limit => exact .new limit
  | change _ hc ih => exact ih.change hc

theorem Grounded.keysOlder (h : t.Grounded) : t.KeysOlder := by
  induction h with
  | new limit => exact .new limit
  | change h hc ih => exact ih.change h.reachable hc

theorem Grounded.ordered (h : t.Grounded) : t.Ordered where
  parent_lt := h.reachable.sound.parent_lt
  root hs hp := (h.housed.root hs hp).1
  key_lt hs hkey := h.keysOlder _ _ _ hs hkey _
  block_lt := h.housed.block_lt
  blocksIn := h.housed.blocksIn

end NameLookup.SymbolTable
