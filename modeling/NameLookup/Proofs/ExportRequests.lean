import Mathlib.Data.List.Dedup
import NameLookup.Proofs.Analysis.RefusedImports

/-!
# Requests for exports

An `ExportService` is one cache in use: between the requests that it answers, instances may be asked
for, and nothing else is done to the table. What is cached was worked out on an earlier table; since
all re-exports exist it is worked out again on the present one (`ExportService.Sound.current`), so
that no answer tells whether it was cached (`export_cache_transparent`). A request that is refused
leaves everything as it was, and those that are answered are counted.
-/

set_option autoImplicit false

namespace NameLookup

open SymbolTable

/-- What may be done with a table while its exports are asked for. -/
inductive ExportRequest where
  | instantiate (key : InstanceKey)
  | fetch (target : Target)

/-- A cache in use on a table. -/
structure ExportService where
  table : SymbolTable
  cache : ExportCache
  /-- The targets whose exports were given out, latest first. -/
  answered : List Target

namespace ExportService

/-- Begins with an empty cache. -/
def start (t : SymbolTable) : ExportService := ⟨t, .empty, []⟩

/-- The answer to a request for the exports of a target, and the table afterwards. -/
def ask (s : ExportService) (target : Target) : Except ImportFault Exports × SymbolTable :=
  let (r, table) := s.cache.fetch target s.table
  (r.map Prod.fst, table)

/-- Does what is requested. A request that is refused leaves the cache. -/
def serve (s : ExportService) : ExportRequest → ExportService
  | .instantiate key => { s with table := (SymbolTable.instantiate key s.table).2 }
  | .fetch target =>
    match s.cache.fetch target s.table with
    | (.ok (_, cache), table) => ⟨table, cache, target :: s.answered⟩
    | (.error _, table) => { s with table }

/-- Does what is requested, one request after the other. -/
def serveAll (s : ExportService) (requests : List ExportRequest) : ExportService :=
  requests.foldl serve s

/-- Each target that was answered is cached, once, with what it exports on the present table. -/
structure Sound (s : ExportService) : Prop where
  reachable : s.table.Reachable
  reexports : s.table.ReexportsIn
  current : ∀ target e, s.cache.entries.lookup target = some e →
    targetExports target s.table = (.ok e, s.table)
  targets : s.cache.entries.map Prod.fst = s.answered.dedup
  counted : s.cache.hits + s.cache.size = s.answered.length

variable {s : ExportService} {target : Target} {t : SymbolTable} {e : Exports}

/-! ## The two ways in which a request is answered -/

/-- The exports are taken from the cache. -/
def hit (s : ExportService) (target : Target) : ExportService :=
  ⟨s.table, { s.cache with hits := s.cache.hits + 1 }, target :: s.answered⟩

/-- The exports are worked out and kept; that may have built an instance. -/
def enter (s : ExportService) (target : Target) (e : Exports) (t : SymbolTable) : ExportService :=
  ⟨t, { s.cache with entries := (target, e) :: s.cache.entries }, target :: s.answered⟩

theorem fetch_hit (he : s.cache.entries.lookup target = some e) :
    s.cache.fetch target s.table = (.ok (e, (s.hit target).cache), s.table) := by
  rw [ExportCache.fetch_run, he]
  rfl

theorem fetch_enter (hnew : s.cache.entries.lookup target = none)
    (hx : targetExports target s.table = (.ok e, t)) :
    s.cache.fetch target s.table = (.ok (e, (s.enter target e t).cache), t) := by
  rw [ExportCache.fetch_run, hnew, hx]
  rfl

/-! ## What requests preserve -/

namespace Sound

theorem start (ht : t.Reachable) (hr : t.ReexportsIn) : (start t).Sound where
  reachable := ht
  reexports := hr
  current _ _ h := by cases h
  targets := rfl
  counted := rfl

variable (h : s.Sound)
include h

theorem lookup_eq_none_iff (target : Target) :
    s.cache.entries.lookup target = none ↔ target ∉ s.answered := by
  rw [← List.mem_dedup, ← h.targets, List.lookup_eq_none_iff, List.mem_map]
  constructor
  · rintro hne ⟨entry, hmem, rfl⟩
    simpa using hne entry hmem
  · intro hnone entry hmem
    exact bne_iff_ne.2 fun heq => hnone ⟨entry, hmem, heq.symm⟩

/-- Instances may be built at any time. -/
theorem withTable (hg : s.table.Grows t) : ({ s with table := t } : ExportService).Sound where
  reachable := h.reachable.grows hg
  reexports := h.reexports.grows hg
  current target e he :=
    targetExports_again h.reachable.sound h.reexports (h.current target e he) hg
  targets := h.targets
  counted := h.counted

theorem hit (he : s.cache.entries.lookup target = some e) : (s.hit target).Sound where
  reachable := h.reachable
  reexports := h.reexports
  current := h.current
  targets := by
    have hmem : target ∈ s.answered := by
      by_contra hnot
      rw [(h.lookup_eq_none_iff target).2 hnot] at he
      cases he
    exact h.targets.trans (List.dedup_cons_of_mem hmem).symm
  counted := by
    show s.cache.hits + 1 + s.cache.size = (target :: s.answered).length
    rw [List.length_cons, ← h.counted]
    exact Nat.add_right_comm _ _ _

theorem enter (hnew : s.cache.entries.lookup target = none)
    (hx : targetExports target s.table = (.ok e, t)) : (s.enter target e t).Sound := by
  have hlater := h.withTable ((targetExports_growing target).of_run hx)
  refine ⟨hlater.reachable, hlater.reexports, fun target' e' he' => ?_, ?_, ?_⟩
  · rw [ExportService.enter, AssocList.lookup_cons] at he'
    split at he'
    · next heq =>
      cases he'
      rw [heq]
      exact targetExports_again h.reachable.sound h.reexports hx (.refl t)
    · exact hlater.current target' e' he'
  · rw [ExportService.enter, List.map_cons, h.targets,
      List.dedup_cons_of_notMem ((h.lookup_eq_none_iff target).1 hnew)]
  · show s.cache.hits + (s.cache.size + 1) = (target :: s.answered).length
    rw [List.length_cons, ← h.counted]
    rfl

theorem serve (request : ExportRequest) : (s.serve request).Sound := by
  cases request with
  | instantiate key => exact h.withTable (instantiate_growing key s.table)
  | fetch target =>
    rw [ExportService.serve]
    cases hl : s.cache.entries.lookup target with
    | some e =>
      rw [fetch_hit hl]
      exact h.hit hl
    | none =>
      rcases hx : targetExports target s.table with ⟨fault | e, t⟩
      · have hrun : s.cache.fetch target s.table = (.error fault, t) := by
          rw [ExportCache.fetch_run, hl, hx]
        rw [hrun, ExportCache.fetch_error h.reachable hrun]
        exact h
      · rw [fetch_enter hl hx]
        exact h.enter hl hx

theorem serveAll (requests : List ExportRequest) : (s.serveAll requests).Sound :=
  List.foldlRecOn requests ExportService.serve h fun _ hs request _ => hs.serve request

/-- The cache makes no difference to an answer, nor to what becomes of the table. -/
theorem ask_eq (target : Target) : s.ask target = (ExportService.start s.table).ask target := by
  have hempty : (ExportService.start s.table).cache.entries.lookup target = none := rfl
  cases hl : s.cache.entries.lookup target with
  | some e =>
    rw [ask, ask, fetch_hit hl, fetch_enter hempty (h.current target e hl)]
    rfl
  | none =>
    rcases hx : targetExports target s.table with ⟨fault | e, t⟩
    · rw [ask, ask, ExportCache.fetch_run, ExportCache.fetch_run, hl, hempty]
      simp only [ExportService.start, hx]
    · rw [ask, ask, fetch_enter hl hx, fetch_enter hempty hx]
      rfl

/-- A request that is refused leaves the table and the cache as they were. -/
theorem serve_refused {fault : ImportFault} (hask : s.ask target = (.error fault, t)) :
    t = s.table ∧ s.serve (.fetch target) = s := by
  rcases hrun : s.cache.fetch target s.table with ⟨f | answer, u⟩ <;> rw [ask, hrun] at hask <;>
    cases hask
  have htable := ExportCache.fetch_error h.reachable hrun
  exact ⟨htable, by rw [ExportService.serve, hrun, htable]⟩

end Sound

/-- On a table whose re-exports exist a cache cannot be told from none, whatever was requested
before and whatever instances were asked for in between: each answer, and what becomes of the table,
is that of an empty cache on the table of that moment. A request that is refused changes nothing.
There is one entry for each target that was answered, and each answer is a hit or made an entry. -/
theorem export_cache_transparent (ht : t.Reachable) (hr : t.ReexportsIn)
    (requests : List ExportRequest) :
    let s := (start t).serveAll requests
    (∀ target, s.ask target = (start s.table).ask target) ∧
    (∀ target fault u, s.ask target = (.error fault, u) →
      u = s.table ∧ s.serve (.fetch target) = s) ∧
    s.cache.size = s.answered.dedup.length ∧
    s.cache.hits + s.cache.size = s.answered.length := by
  intro s
  have h : s.Sound := (Sound.start ht hr).serveAll requests
  refine ⟨h.ask_eq, fun _ _ _ => h.serve_refused, ?_, h.counted⟩
  rw [← h.targets, List.length_map]
  rfl

/-- The namespace of `handedOn` is asked for twice, `Box<int>` and `Box<char>` once each, the latter
when it has been built already, and the generic body of `Box` in between, in vain. -/
def requestsToHandedOn : List ExportRequest :=
  [.fetch ⟨⟨3⟩, []⟩, .fetch ⟨⟨2⟩, [.scalar "int"]⟩, .instantiate ⟨⟨2⟩, [.scalar "char"]⟩,
    .fetch ⟨⟨2⟩, []⟩, .fetch ⟨⟨2⟩, [.scalar "char"]⟩, .fetch ⟨⟨3⟩, []⟩]

/-- Three targets were answered, one of them twice. A third request for the namespace is answered as
if it were the first, and another one for the generic body is refused. -/
theorem export_cache_transparent_of_handedOn :
    let s := (start handedOn).serveAll requestsToHandedOn
    s.cache.size = 3 ∧ s.cache.hits + s.cache.size = 4 ∧
      s.ask ⟨⟨3⟩, []⟩ = (start s.table).ask ⟨⟨3⟩, []⟩ ∧
      s.serve (.fetch ⟨⟨2⟩, []⟩) = s := by
  intro s
  have hin : handedOn.ReexportsIn := by
    rintro ⟨_ | _ | _ | _ | _⟩ e r hs hr <;> cases hs
    · cases hr
    · cases hr
    · cases List.mem_singleton.1 hr
      decide
    · cases List.mem_singleton.1 hr
      decide
  obtain ⟨hsame, hrefused, hsize, hcount⟩ :=
    export_cache_transparent handedOn_reachable hin requestsToHandedOn
  have hanswered : s.answered =
      [⟨⟨3⟩, []⟩, ⟨⟨2⟩, [.scalar "char"]⟩, ⟨⟨2⟩, [.scalar "int"]⟩, ⟨⟨3⟩, []⟩] := by rfl
  have hgeneric : (s.ask ⟨⟨2⟩, []⟩).1 = .error (.genericBody "Box") := by rfl
  refine ⟨?_, ?_, hsame _, (hrefused _ _ _ (Prod.ext hgeneric rfl)).2⟩
  · rw [hsize, hanswered]
    rfl
  · rw [hcount, hanswered]
    rfl

end ExportService

end NameLookup
