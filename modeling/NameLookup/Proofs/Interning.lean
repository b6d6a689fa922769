import Mathlib.Data.List.Basic
import NameLookup.AssocList
import NameLookup.Interner

/-!
# Names and spellings

An interner keeps the number of each spelling, and the spelling of each number, apart from each
other. Whatever is asked of it, the two stay inverse to each other, and the spellings stand in order
of first occurrence (`Interner.Records`), as long as the numbers last. So numbers are equal just
when the spellings are, at any two times of a run (`Interner.interning_bijective`), and names can be
compared by their spelling.
-/

set_option autoImplicit false

namespace NameLookup

/-- What can be asked of an interner. -/
inductive NameRequest where
  | intern (spelling : String)
  | find (spelling : String)
  | lookup (n : NameId)
deriving DecidableEq

/-- What an interner answers. -/
inductive NameAnswer where
  | name (n : Option NameId)
  | spelling (s : Option String)
deriving DecidableEq

/-- What was asked, and the answer. -/
abbrev NameLog := List (NameRequest × NameAnswer)

namespace NameRequest

/-- The spelling whose number is asked for. -/
def spelling? : NameRequest → Option String
  | .intern s | .find s => some s
  | .lookup _ => none

/-- The spelling that is interned. -/
def interned? : NameRequest → Option String
  | .intern s => some s
  | .find _ | .lookup _ => none

/-- The spellings that are interned, in order and with repetitions. -/
def interned (requests : List NameRequest) : List String := requests.filterMap interned?

end NameRequest

/-- At some time the number of the spelling was asked for, and this was the answer. -/
def NameLog.Names (log : NameLog) (s : String) (n : NameId) : Prop :=
  ∃ request, request.spelling? = some s ∧ (request, .name (some n)) ∈ log

namespace Interner

/-- Answers a request. -/
def serve (i : Interner) : NameRequest → NameAnswer × Interner
  | .intern s =>
    let (n, i) := i.intern s
    (.name (some n), i)
  | .find s => (.name (i.find? s), i)
  | .lookup n => (.spelling (i.lookup? n), i)

/-- Answers requests, one after the other. -/
def serveAll (i : Interner) (requests : List NameRequest) : Interner :=
  requests.foldl (fun i request => (i.serve request).2) i

/-- The requests with their answers. -/
def log (i : Interner) : List NameRequest → NameLog
  | [] => []
  | request :: requests => (request, (i.serve request).1) :: log (i.serve request).2 requests

/-- The numbers and the spellings are inverse to each other, and the spellings are those of `met`,
each once, in order of first occurrence. -/
structure Records (i : Interner) (met : List String) : Prop where
  spellings : i.spellings = met.eraseDups
  inverse : ∀ s n, i.find? s = some n ↔ i.lookup? n = some s

variable {i : Interner} {met : List String} {s t : String} {n : NameId}

/-! ## Interning one spelling -/

theorem intern_known (h : i.find? s = some n) : i.intern s = (n, i) := by
  rw [intern, h]

theorem intern_new (h : i.find? s = none) :
    i.intern s = (.ofPosition i.spellings.length,
      ⟨(s, .ofPosition i.spellings.length) :: i.numbers, i.spellings ++ [s]⟩) := by
  rw [intern, h]

theorem find?_intern_self (i : Interner) (s : String) :
    (i.intern s).2.find? s = some (i.intern s).1 := by
  cases h : i.find? s with
  | some n => rw [intern_known h, h]
  | none => rw [intern_new h, find?, AssocList.lookup_cons, if_pos rfl]

/-- A number that was given out stays. -/
theorem find?_intern (h : i.find? s = some n) (t : String) : (i.intern t).2.find? s = some n := by
  cases ht : i.find? t with
  | some m => rw [intern_known ht, h]
  | none =>
    have hne : s ≠ t := by
      rintro rfl
      rw [ht] at h
      cases h
    rw [intern_new ht, find?, AssocList.lookup_cons, if_neg hne]
    exact h

theorem eraseDups_concat {α : Type} [DecidableEq α] (xs : List α) (x : α) :
    (xs ++ [x]).eraseDups = if x ∈ xs then xs.eraseDups else xs.eraseDups ++ [x] := by
  rw [List.eraseDups_append]
  split
  · next h => simp [List.removeAll, h]
  · next h => simp [List.removeAll, h, List.eraseDups_cons]

theorem getElem?_concat_eq_some {α : Type} {xs : List α} {x y : α} {k : Nat} :
    (xs ++ [x])[k]? = some y ↔ xs[k]? = some y ∨ k = xs.length ∧ x = y := by
  rcases Nat.lt_trichotomy k xs.length with hlt | rfl | hgt
  · rw [List.getElem?_append_left hlt]
    simp [Nat.ne_of_lt hlt]
  · simp
  · rw [List.getElem?_append_right (Nat.le_of_lt hgt), List.getElem?_eq_none (Nat.le_of_lt hgt),
      List.getElem?_eq_none (by rw [List.length_singleton]; omega)]
    simp [Nat.ne_of_gt hgt]

namespace Records

theorem empty : Interner.empty.Records [] where
  spellings := rfl
  inverse s n := by simp [Interner.empty, find?, lookup?]

variable (h : i.Records met)
include h

theorem mem_iff : s ∈ met ↔ ∃ n, i.lookup? n = some s := by
  rw [← List.mem_eraseDups, ← h.spellings, List.mem_iff_getElem?]
  exact ⟨fun ⟨k, hk⟩ => ⟨⟨k⟩, hk⟩, fun ⟨n, hn⟩ => ⟨n.index, hn⟩⟩

theorem find?_eq_none_iff : i.find? s = none ↔ s ∉ met := by
  rw [h.mem_iff, Option.eq_none_iff_forall_ne_some, not_exists]
  exact forall_congr' fun n => not_congr (h.inverse s n)

/-- A spelling has the number of its first occurrence. -/
theorem find?_eq (hs : s ∈ met) : i.find? s = some ⟨met.eraseDups.idxOf s⟩ := by
  rw [h.inverse, lookup?, h.spellings]
  exact List.getElem?_idxOf (List.mem_eraseDups.2 hs)

theorem intern (s : String) (hfew : (met ++ [s]).eraseDups.length ≤ UInt32.size) :
    (i.intern s).2.Records (met ++ [s]) := by
  rw [eraseDups_concat] at hfew
  cases hs : i.find? s with
  | some n =>
    have hmem : s ∈ met := h.mem_iff.2 ⟨n, (h.inverse s n).1 hs⟩
    rw [intern_known hs]
    exact ⟨by rw [eraseDups_concat, if_pos hmem, h.spellings], h.inverse⟩
  | none =>
    have hnew : s ∉ met := h.find?_eq_none_iff.1 hs
    have hroom : i.spellings.length < UInt32.size := by
      rw [if_neg hnew, List.length_append, ← h.spellings] at hfew
      exact hfew
    rw [intern_new hs, NameId.ofPosition_of_lt hroom]
    refine ⟨by rw [eraseDups_concat, if_neg hnew, h.spellings], fun t n => ?_⟩
    rw [find?, lookup?, AssocList.lookup_cons, getElem?_concat_eq_some]
    change _ ↔ i.lookup? n = some t ∨ _
    rw [← h.inverse]
    by_cases hts : t = s
    · -- the new spelling stands in the last place, and had no number before
      subst hts
      obtain ⟨k⟩ := n
      rw [if_pos rfl, hs]
      simp [eq_comm]
    · rw [if_neg hts]
      exact ⟨.inl, fun hor => hor.resolve_right fun hlast => hts hlast.2.symm⟩

end Records

/-! ## Requests -/

theorem find?_serve (h : i.find? s = some n) (request : NameRequest) :
    (i.serve request).2.find? s = some n := by
  cases request with
  | intern t => exact find?_intern h t
  | find | lookup => exact h

theorem find?_serveAll (h : i.find? s = some n) (requests : List NameRequest) :
    (i.serveAll requests).find? s = some n := by
  induction requests generalizing i with
  | nil => exact h
  | cons request requests ih => exact ih (find?_serve h request)

theorem Records.serveAll (h : i.Records met) (requests : List NameRequest)
    (hfew : (met ++ NameRequest.interned requests).eraseDups.length ≤ UInt32.size) :
    (i.serveAll requests).Records (met ++ NameRequest.interned requests) := by
  induction requests generalizing i met with
  | nil => rwa [show met ++ NameRequest.interned [] = met from List.append_nil met]
  | cons request requests ih =>
    cases request with
    | intern s =>
      have hcons : met ++ NameRequest.interned (.intern s :: requests) =
          met ++ [s] ++ NameRequest.interned requests := by
        rw [List.append_assoc]
        rfl
      rw [hcons] at hfew ⊢
      have hfirst : (met ++ [s]).eraseDups.length ≤ UInt32.size := by
        rw [List.eraseDups_append, List.length_append] at hfew
        omega
      exact ih (h.intern s hfirst) hfew
    | find | lookup => exact ih h hfew

/-- The answer is the number of the spelling from then on. -/
theorem find?_of_answer {request : NameRequest} (hs : request.spelling? = some s)
    (hn : (i.serve request).1 = .name (some n)) : (i.serve request).2.find? s = some n := by
  cases request with
  | intern t =>
    cases hs
    cases hn
    exact find?_intern_self i s
  | find t =>
    cases hs
    exact NameAnswer.name.inj hn
  | lookup m => cases hs

theorem find?_of_names {requests : List NameRequest} (h : (i.log requests).Names s n) :
    (i.serveAll requests).find? s = some n := by
  obtain ⟨asked, hs, hmem⟩ := h
  induction requests generalizing i with
  | nil => cases hmem
  | cons request requests ih =>
    rcases List.mem_cons.1 hmem with heq | hlater
    · obtain ⟨rfl, hn⟩ := Prod.mk.inj heq
      exact find?_serveAll (find?_of_answer hs hn.symm) requests
    · exact ih hlater

theorem names_of_mem_interned {requests : List NameRequest}
    (h : s ∈ NameRequest.interned requests) : ∃ n, (i.log requests).Names s n := by
  obtain ⟨request, hmem, hs⟩ := List.mem_filterMap.1 h
  cases request <;> cases hs
  clear h
  induction requests generalizing i with
  | nil => cases hmem
  | cons request requests ih =>
    rcases List.mem_cons.1 hmem with rfl | hlater
    · exact ⟨_, .intern s, rfl, List.mem_cons_self⟩
    · obtain ⟨n, asked, hasked, hlog⟩ := @ih (i.serve request).2 hlater
      exact ⟨n, asked, hasked, List.mem_cons_of_mem _ hlog⟩

/-- As long as fewer than `2 ^ 32` spellings are interned, names and spellings correspond. Two
answers of a run, at whatever times, are the same number just when they are about the same spelling.
Numbers are given out in order of first occurrence, and a spelling can be read back from its number
ever after. A spelling is found, under the number that it was given, if it was interned, and only
then; finding it changes nothing. -/
theorem interning_bijective (requests : List NameRequest)
    (hfew : (NameRequest.interned requests).eraseDups.length < UInt32.size) :
    let met := (NameRequest.interned requests).eraseDups
    let log := empty.log requests
    let i := empty.serveAll requests
    (∀ s t n m, log.Names s n → log.Names t m → (n = m ↔ s = t)) ∧
    (∀ s n, log.Names s n → n = ⟨met.idxOf s⟩ ∧ i.lookup? n = some s) ∧
    i.size = met.length ∧
    (∀ s n, i.find? s = some n ↔ log.Names s n) ∧
    (∀ s, i.find? s = none ↔ s ∉ NameRequest.interned requests) ∧
    ∀ s, i.serve (.find s) = (.name (i.find? s), i) := by
  intro met log i
  have h : i.Records (NameRequest.interned requests) :=
    Records.empty.serveAll requests (Nat.le_of_lt hfew)
  have hfound {s n} (hn : log.Names s n) : i.find? s = some n := find?_of_names hn
  have hread {s n} (hn : log.Names s n) : i.lookup? n = some s := (h.inverse s n).1 (hfound hn)
  refine ⟨fun s t n m hn hm => ⟨?_, ?_⟩, fun s n hn => ⟨?_, hread hn⟩, ?_, fun s n => ⟨?_, hfound⟩,
    fun s => h.find?_eq_none_iff, fun s => rfl⟩
  · rintro rfl
    exact Option.some.inj ((hread hn).symm.trans (hread hm))
  · rintro rfl
    exact Option.some.inj ((hfound hn).symm.trans (hfound hm))
  · have hmem := h.mem_iff.2 ⟨n, hread hn⟩
    exact Option.some.inj ((hfound hn).symm.trans (h.find?_eq hmem))
  · exact congrArg List.length h.spellings
  · intro hn
    obtain ⟨m, hm⟩ := names_of_mem_interned (i := empty) (h.mem_iff.2 ⟨n, (h.inverse s n).1 hn⟩)
    rwa [Option.some.inj (hn.symm.trans (hfound hm))]

/-- `pi` is interned twice, and found in between; `m_i` is looked for before it is interned. -/
def twoNames : List NameRequest :=
  [.intern "pi", .find "m_i", .intern "m_i", .find "pi", .lookup ⟨1⟩, .intern "pi"]

theorem interning_bijective_of_twoNames :
    (NameRequest.interned twoNames).eraseDups.length < UInt32.size ∧
      (empty.serveAll twoNames).size = 2 ∧
      (empty.serveAll twoNames).lookup? ⟨1⟩ = some "m_i" ∧
      (empty.serveAll twoNames).find? "pi" = some ⟨0⟩ ∧
      (empty.serveAll twoNames).find? "e" = none := by
  have hfew : (NameRequest.interned twoNames).eraseDups.length < UInt32.size := by decide
  have hm : (empty.log twoNames).Names "m_i" ⟨1⟩ := ⟨.intern "m_i", rfl, by decide⟩
  have hpi : (empty.log twoNames).Names "pi" ⟨0⟩ := ⟨.find "pi", rfl, by decide⟩
  obtain ⟨-, hnumber, hsize, hfind, hnone, -⟩ := interning_bijective twoNames hfew
  exact ⟨hfew, hsize, (hnumber _ _ hm).2, (hfind _ _).2 hpi, (hnone _).2 (by decide)⟩

end Interner

end NameLookup
