import NameLookup.OpenImport

/-!
# Import numbers

The imports in force are numbered in the order in which they were opened, below the number that
comes next (`OpenImports.Ordered`). So a number stands for one import (`Ordered.get?_eq_some`), and
closing it takes away that import alone (`Ordered.mem_erase`). While numbers fit in a word the same
holds of the words (`Ordered.denotes`). `OpenImport.InForce` says at which points an import is in
force.
-/

set_option autoImplicit false

namespace NameLookup

/-- The point is in the extent of the import, and at a case label of its own `switch` if the import
is a fallback. -/
structure OpenImport.InForce (i : OpenImport) (p : Point) : Prop where
  file : i.extent.range.file = p.position.file
  start : i.extent.range.start ≤ p.position.offset
  stop : p.position.offset < i.extent.range.stop
  label : i.kind = .fallback → p.site = .caseLabel i.extent.block

theorem OpenImport.appliesTo_iff {i : OpenImport} {p : Point} :
    i.appliesTo p = true ↔ i.InForce p := by
  rw [appliesTo, Bool.and_eq_true, Range.contains_iff]
  constructor
  · rintro ⟨⟨hfile, hstart, hstop⟩, hlabel⟩
    refine ⟨hfile, hstart, hstop, fun hkind => ?_⟩
    rw [hkind] at hlabel
    exact of_decide_eq_true hlabel
  · rintro ⟨hfile, hstart, hstop, hlabel⟩
    refine ⟨⟨hfile, hstart, hstop⟩, ?_⟩
    cases hkind : i.kind with
    | unconditional => rfl
    | fallback => exact decide_eq_true (hlabel hkind)

namespace OpenImports

structure Ordered (s : OpenImports) : Prop where
  increasing : s.toList.Pairwise (·.id.index < ·.id.index)
  below : ∀ i ∈ s.toList, i.id.index < s.nextId

theorem mem_of_get? {s : OpenImports} {id : ImportId} {i : OpenImport} (h : s.get? id = some i) :
    i ∈ s.toList ∧ i.id = id := by
  unfold get? at h
  have hid := List.find?_some h
  exact ⟨List.mem_of_find?_eq_some h, by simpa using hid⟩

/-- The number is that of an open import, and as a word it is that of no other. -/
def Denotes (s : OpenImports) (id : ImportId) (i : OpenImport) : Prop :=
  s.get? id = some i ∧ ∀ j ∈ s.toList, j.id.word = id.word → j = i

namespace Ordered

variable {s : OpenImports}

theorem empty : OpenImports.empty.Ordered where
  increasing := .nil
  below _ hi := absurd hi List.not_mem_nil

theorem insert (h : s.Ordered) (kind : ImportKind) (extent : Extent) (operand : Operand)
    (state : ImportState) (fromSwitch : Bool) :
    (s.insert kind extent operand state fromSwitch).2.Ordered where
  increasing := by
    refine List.pairwise_append.2 ⟨h.increasing, List.pairwise_singleton _ _, fun i hi j hj => ?_⟩
    rw [List.mem_singleton.1 hj]
    exact h.below i hi
  below i hi := by
    rcases List.mem_append.1 hi with hi | hi
    · exact Nat.lt_succ_of_lt (h.below i hi)
    · rw [List.mem_singleton.1 hi]
      exact Nat.lt_succ_self _

theorem erase (h : s.Ordered) (id : ImportId) : (s.erase id).Ordered where
  increasing := h.increasing.sublist List.eraseP_sublist
  below i hi := h.below i (List.mem_of_mem_eraseP hi)

theorem eq_of_id_eq (h : s.Ordered) {i j : OpenImport} (hi : i ∈ s.toList) (hj : j ∈ s.toList)
    (hid : i.id = j.id) : i = j := by
  have hlt : s.toList.Pairwise fun i j => i.id = j.id → i = j :=
    h.increasing.imp fun {i j} hlt hid => by rw [hid] at hlt; omega
  have hgt : s.toList.Pairwise fun i j => j.id = i.id → j = i :=
    h.increasing.imp fun {i j} hlt hid => by rw [hid] at hlt; omega
  exact hlt.forall_of_forall_of_flip (fun _ _ _ => rfl) hgt hi hj hid

/-- An import that is open is found by its number. -/
theorem get?_eq_some (h : s.Ordered) {i : OpenImport} :
    s.get? i.id = some i ↔ i ∈ s.toList := by
  refine ⟨fun hi => (mem_of_get? hi).1, fun hi => ?_⟩
  cases hg : s.get? i.id with
  | none =>
    unfold get? at hg
    have := List.find?_eq_none.1 hg i hi
    simp at this
  | some j =>
    obtain ⟨hj, hid⟩ := mem_of_get? hg
    rw [h.eq_of_id_eq hj hi hid]

theorem eq_of_word_eq (h : s.Ordered) (hfit : s.NumbersFit) {i j : OpenImport}
    (hi : i ∈ s.toList) (hj : j ∈ s.toList) (hword : i.id.word = j.id.word) : i = j := by
  have hfits : ∀ k ∈ s.toList, k.id.word = k.id.index := fun k hk =>
    Nat.mod_eq_of_lt (Nat.lt_of_lt_of_le (h.below k hk) hfit)
  rw [hfits i hi, hfits j hj] at hword
  exact h.eq_of_id_eq hi hj (congrArg ImportId.mk hword)

theorem denotes (h : s.Ordered) (hfit : s.NumbersFit) {i : OpenImport} (hi : i ∈ s.toList) :
    s.Denotes i.id i :=
  ⟨h.get?_eq_some.2 hi, fun _ hj => h.eq_of_word_eq hfit hj hi⟩

/-- A number that was not given out yet finds nothing. -/
theorem get?_eq_none (h : s.Ordered) {id : ImportId} (hid : s.nextId ≤ id.index) :
    s.get? id = none := by
  cases hg : s.get? id with
  | none => rfl
  | some i =>
    obtain ⟨hi, rfl⟩ := mem_of_get? hg
    exact absurd (h.below i hi) (Nat.not_lt.2 hid)

/-- Closing an import takes away what has its number, and keeps the order of the others. -/
theorem toList_erase (h : s.Ordered) (id : ImportId) :
    (s.erase id).toList = s.toList.filter (·.id ≠ id) := by
  have hinc := h.increasing
  show s.toList.eraseP (·.id = id) = s.toList.filter (·.id ≠ id)
  generalize s.toList = is at hinc
  induction hinc with
  | nil => rfl
  | @cons i is hlt _ ih =>
    by_cases hid : i.id = id
    · -- numbers increase, so that no later import has this one
      have hothers : ∀ j ∈ is, decide (j.id ≠ id) = true := fun j hj => by
        have := hlt j hj
        rw [hid] at this
        exact decide_eq_true fun hj => by rw [hj] at this; omega
      rw [List.eraseP_cons_of_pos (by simpa using hid), List.filter_cons_of_neg (by simpa using hid),
        List.filter_eq_self.2 hothers]
    · rw [List.eraseP_cons_of_neg (by simpa using hid), List.filter_cons_of_pos (by simpa using hid),
        ih]

theorem mem_erase (h : s.Ordered) {id : ImportId} {i : OpenImport} :
    i ∈ (s.erase id).toList ↔ i ∈ s.toList ∧ i.id ≠ id := by
  rw [h.toList_erase, List.mem_filter, decide_eq_true_iff]

end Ordered

theorem mem_inForceAt {s : OpenImports} {i : OpenImport} {p : Point} :
    i ∈ s.inForceAt p ↔ i ∈ s.toList ∧ i.InForce p := by
  rw [inForceAt, List.mem_filter, OpenImport.appliesTo_iff]

theorem mem_of_mem_inForceAt {s : OpenImports} {p : Point} :
    ∀ i ∈ s.inForceAt p, i ∈ s.toList :=
  fun _ hi => (mem_inForceAt.1 hi).1

end OpenImports

end NameLookup
