/-!
# Association lists

Small keyed collections are lists of pairs, read with `List.lookup`; the first pair of a key counts.
-/

set_option autoImplicit false

namespace NameLookup.AssocList

variable {α β : Type} [BEq α] [LawfulBEq α]

theorem lookup_cons [DecidableEq α] (k : α) (e : α × β) (es : List (α × β)) :
    (e :: es).lookup k = if k = e.1 then some e.2 else es.lookup k := by
  obtain ⟨k', v⟩ := e
  rw [List.lookup_cons]
  by_cases h : k = k'
  · rw [beq_iff_eq.2 h, if_pos h]
  · rw [beq_false_of_ne h, if_neg h]

theorem mem_of_lookup {k : α} {v : β} {es : List (α × β)} (h : es.lookup k = some v) :
    (k, v) ∈ es := by
  induction es with
  | nil => cases h
  | cons e es ih =>
    obtain ⟨k', v'⟩ := e
    rw [List.lookup_cons] at h
    split at h
    · next hk =>
      obtain rfl : v' = v := Option.some.inj h
      rw [eq_of_beq hk]
      exact List.mem_cons_self
    · exact List.mem_cons_of_mem _ (ih h)

/-- Pairs of other keys do not matter. -/
theorem lookup_filter {k : α} {p : α × β → Bool} {es : List (α × β)}
    (h : ∀ v, p (k, v) = true) : (es.filter p).lookup k = es.lookup k := by
  induction es with
  | nil => rfl
  | cons e es ih =>
    obtain ⟨k', v⟩ := e
    by_cases hk : k = k'
    · subst hk
      rw [List.filter_cons_of_pos (h v), List.lookup_cons_self, List.lookup_cons_self]
    · have hbeq : (k == k') = false := beq_false_of_ne hk
      rw [List.lookup_cons, hbeq, List.filter_cons]
      split
      · rw [List.lookup_cons, hbeq]
        exact ih
      · exact ih

end NameLookup.AssocList
