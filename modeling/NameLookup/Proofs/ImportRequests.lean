import Mathlib.Data.List.Nodup
import NameLookup.Proofs.Analysis.Moves

/-!
# Requests to open and close imports

The imports that requests open are listed by `openings`, each with the requests since. They are
numbered one after the other (`ids_openings`), and those stay open that no request since has closed
(`toList_serveAll`). So a number stands for one import for ever, and finds it just when it has not
been closed (`numbers_never_reused`). The imports of every analysis came about by such requests
(`Analysis.Reachable.imports_served`).
-/

set_option autoImplicit false

namespace NameLookup

/-- What can be asked of the imports in force. -/
inductive ImportRequest where
  | insert (kind : ImportKind) (extent : Extent) (operand : Operand) (state : ImportState)
    (fromSwitch : Bool)
  | erase (id : ImportId)
deriving DecidableEq

/-- The request asks for an import to be opened. -/
def ImportRequest.isInsert : ImportRequest → Bool
  | .insert .. => true
  | .erase _ => false

/-- The request that opens such an import. -/
def OpenImport.request (i : OpenImport) : ImportRequest :=
  .insert i.kind i.extent i.operand i.state i.fromSwitch

/-- An import that was opened, and the requests since. -/
structure Opening where
  opened : OpenImport
  since : List ImportRequest

/-- No request since has closed the import. -/
def Opening.isOpen (o : Opening) : Bool := .erase o.opened.id ∉ o.since

namespace OpenImports

/-- Answers a request with the import that was opened or closed. -/
def serve (s : OpenImports) : ImportRequest → Option OpenImport × OpenImports
  | .insert kind extent operand state fromSwitch =>
    let (i, s) := s.insert kind extent operand state fromSwitch
    (some i, s)
  | .erase id => (s.get? id, s.erase id)

/-- Answers requests, one after the other. -/
def serveAll (s : OpenImports) (requests : List ImportRequest) : OpenImports :=
  requests.foldl (fun s request => (s.serve request).2) s

/-- The imports that requests open, in this order. -/
def openings (s : OpenImports) : List ImportRequest → List Opening
  | [] => []
  | .insert kind extent operand state fromSwitch :: since =>
    let (i, s) := s.insert kind extent operand state fromSwitch
    ⟨i, since⟩ :: openings s since
  | .erase id :: since => openings (s.erase id) since

variable {s : OpenImports} {requests : List ImportRequest}

theorem openings_insert (s : OpenImports) (kind : ImportKind) (extent : Extent) (operand : Operand)
    (state : ImportState) (fromSwitch : Bool) (since : List ImportRequest) :
    s.openings (.insert kind extent operand state fromSwitch :: since) =
      ⟨(s.insert kind extent operand state fromSwitch).1, since⟩ ::
        (s.insert kind extent operand state fromSwitch).2.openings since := rfl

theorem serveAll_concat (s : OpenImports) (requests : List ImportRequest)
    (request : ImportRequest) :
    s.serveAll (requests ++ [request]) = ((s.serveAll requests).serve request).2 :=
  List.foldl_concat ..

/-- Each request to open an import opens one as it asks for, whatever is open already. -/
theorem requests_openings (s : OpenImports) (requests : List ImportRequest) :
    (s.openings requests).map (·.opened.request) = requests.filter ImportRequest.isInsert := by
  induction requests generalizing s with
  | nil => rfl
  | cons request requests ih =>
    cases request with
    | insert kind extent operand state fromSwitch =>
      rw [openings_insert, List.map_cons, List.filter_cons_of_pos rfl, ih]
      rfl
    | erase id => exact ih (s.erase id)

/-! ## Numbers -/

theorem ids_openings (s : OpenImports) (requests : List ImportRequest) :
    (s.openings requests).map (·.opened.id.index) =
      List.range' s.nextId (s.openings requests).length := by
  induction requests generalizing s with
  | nil => rfl
  | cons request requests ih =>
    cases request with
    | insert kind extent operand state fromSwitch =>
      rw [openings_insert, List.map_cons, List.length_cons, List.range'_succ, ih]
      rfl
    | erase id => exact ih (s.erase id)

theorem nextId_serveAll (s : OpenImports) (requests : List ImportRequest) :
    (s.serveAll requests).nextId = s.nextId + (s.openings requests).length := by
  induction requests generalizing s with
  | nil => rfl
  | cons request requests ih =>
    cases request with
    | insert kind extent operand state fromSwitch =>
      refine (ih (s.insert kind extent operand state fromSwitch).2).trans ?_
      rw [openings_insert, List.length_cons]
      exact Nat.succ_add_eq_add_succ _ _
    | erase id => exact ih (s.erase id)

/-- A number is given to one import only. -/
theorem eq_of_mem_openings {o o' : Opening} (ho : o ∈ s.openings requests)
    (ho' : o' ∈ s.openings requests) (hid : o.opened.id = o'.opened.id) : o = o' := by
  have hnodup : ((s.openings requests).map (·.opened.id.index)).Nodup := by
    rw [ids_openings]
    exact List.nodup_range'
  exact List.inj_on_of_nodup_map hnodup ho ho' (congrArg ImportId.index hid)

/-! ## What stays open -/

namespace Ordered

theorem serve (h : s.Ordered) (request : ImportRequest) : (s.serve request).2.Ordered := by
  cases request with
  | insert kind extent operand state fromSwitch =>
    exact h.insert kind extent operand state fromSwitch
  | erase id => exact h.erase id

theorem serveAll (h : s.Ordered) (requests : List ImportRequest) : (s.serveAll requests).Ordered :=
  List.foldlRecOn requests _ h fun _ hs request _ => hs.serve request

end Ordered

/-- What was open stays if no request closes it, and what is opened follows if no request since
closes it. -/
theorem toList_serveAll (h : s.Ordered) (requests : List ImportRequest) :
    (s.serveAll requests).toList = s.toList.filter (fun i => .erase i.id ∉ requests) ++
      ((s.openings requests).filter Opening.isOpen).map Opening.opened := by
  induction requests generalizing s with
  | nil => simp [serveAll, openings]
  | cons request requests ih =>
    cases request with
    | insert kind extent operand state fromSwitch =>
      refine (ih (h.insert kind extent operand state fromSwitch)).trans ?_
      have hskip : ∀ id, ImportRequest.erase id ∈
          .insert kind extent operand state fromSwitch :: requests ↔ .erase id ∈ requests :=
        fun id => by simp
      simp only [openings_insert, OpenImports.insert, List.filter_append, List.append_assoc, hskip]
      by_cases hclosed : ImportRequest.erase ⟨s.nextId⟩ ∈ requests <;>
        simp [Opening.isOpen, hclosed]
    | erase id =>
      refine (ih (h.erase id)).trans ?_
      rw [h.toList_erase, List.filter_filter]
      refine congrArg (List.filter · s.toList ++ _) (funext fun i => ?_)
      simp [Bool.and_comm]

theorem mem_serveAll_empty {i : OpenImport} : i ∈ (empty.serveAll requests).toList ↔
    ∃ o ∈ empty.openings requests, o.isOpen = true ∧ o.opened = i := by
  rw [toList_serveAll .empty]
  simp [empty, and_assoc]

/-- The number of an import finds it, until it is closed. -/
theorem get?_serveAll {o : Opening} (ho : o ∈ empty.openings requests) :
    (empty.serveAll requests).get? o.opened.id = if o.isOpen then some o.opened else none := by
  have hs : (empty.serveAll requests).Ordered := Ordered.empty.serveAll requests
  split
  · next hopen => exact hs.get?_eq_some.2 (mem_serveAll_empty.2 ⟨o, ho, hopen, rfl⟩)
  · next hclosed =>
    cases hg : (empty.serveAll requests).get? o.opened.id with
    | none => rfl
    | some i =>
      -- an open import with this number would be the closed one
      obtain ⟨hi, hid⟩ := mem_of_get? hg
      obtain ⟨o', ho', hopen, rfl⟩ := mem_serveAll_empty.1 hi
      rw [eq_of_mem_openings ho' ho hid] at hopen
      exact absurd hopen hclosed

/-- Each request to open an import opens one as asked for. They are numbered one after the other,
and no number is used again. In the end those are open that no request since has closed, unchanged
and in the order of opening, with increasing numbers. The number of an import finds it, and closes
it, just when it has not been closed before, and one that was not given out finds nothing; the
others stay in place. In force at a point are those, in the same order, whose extent covers it. -/
theorem numbers_never_reused (requests : List ImportRequest) :
    let opened := empty.openings requests
    let s := empty.serveAll requests
    opened.map (·.opened.request) = requests.filter ImportRequest.isInsert ∧
    opened.map (·.opened.id.index) = List.range s.nextId ∧
    s.toList = (opened.filter Opening.isOpen).map Opening.opened ∧
    s.toList.Pairwise (·.id.index < ·.id.index) ∧
    (∀ i ∈ s.toList, i.id.index < s.nextId) ∧
    (∀ o ∈ opened, s.get? o.opened.id = if o.isOpen then some o.opened else none) ∧
    (∀ id : ImportId, s.nextId ≤ id.index → s.get? id = none) ∧
    (∀ id, (s.serve (.erase id)).1 = s.get? id ∧
      (s.serve (.erase id)).2.toList = s.toList.filter (·.id ≠ id) ∧
      (s.serve (.erase id)).2.nextId = s.nextId) ∧
    ∀ p, (s.inForceAt p).Sublist s.toList ∧
      ∀ i, i ∈ s.inForceAt p ↔ i ∈ s.toList ∧ i.InForce p := by
  intro opened s
  have hs : s.Ordered := Ordered.empty.serveAll requests
  have hnext : s.nextId = opened.length := (nextId_serveAll empty requests).trans (Nat.zero_add _)
  refine ⟨requests_openings _ _, ?_, toList_serveAll .empty requests, hs.increasing, hs.below,
    fun o => get?_serveAll, fun id => hs.get?_eq_none, fun id => ⟨rfl, hs.toList_erase id, rfl⟩,
    fun p => ⟨List.filter_sublist, fun i => mem_inForceAt⟩⟩
  rw [ids_openings, hnext, List.range_eq_range']
  rfl

/-- To close a number before it is given out is in vain, and a closed one is not given out again. -/
example :
    let insert : ImportRequest := .insert .unconditional ⟨⟨0⟩, ⟨⟨0⟩, 0, 9, by decide⟩⟩
      (.type (.named "N")) (.deferred ⟨.param "P", []⟩) false
    (empty.serveAll [.erase ⟨1⟩, insert, insert, .erase ⟨0⟩, insert]).toList.map (·.id) =
      [⟨1⟩, ⟨2⟩] := by decide

end OpenImports

/-- The imports of every analysis came about by requests. -/
theorem Analysis.Reachable.imports_served {a : Analysis} (h : a.Reachable) :
    ∃ requests, a.imports = OpenImports.empty.serveAll requests := by
  refine h.invariant (P := fun a => ∃ requests, a.imports = OpenImports.empty.serveAll requests)
    (fun _ _ _ => ⟨[], rfl⟩) (fun {a b} _ ha hm => ?_) fun ha _ => ha
  obtain ⟨requests, ha⟩ := ha
  cases hm with
  | @openImport operand chain b ho =>
    cases ho with
    | ask ho => exact ⟨requests, (openingState_consults ho).1.imports.trans ha⟩
    | @register state c ho kind extent fromSwitch =>
      refine ⟨requests ++ [.insert kind extent operand state fromSwitch], ?_⟩
      rw [OpenImports.serveAll_concat, ← ha, ← (openingState_consults ho).1.imports]
      rfl
  | @closeImport id =>
    refine ⟨requests ++ [.erase id], ?_⟩
    rw [OpenImports.serveAll_concat, ← ha]
    rfl
  | enterFrame | leaveFrame => exact ⟨requests, ha⟩
  | settle hs => exact ⟨requests, hs.imports_eq.trans ha⟩

end NameLookup
