import NameLookup.AssocList
import NameLookup.Symbol

/-!
# Members

A `Members` value lists declarations in order, and indexes them by name. The index keeps the names
in the order in which they were first seen, and the declarations of one name in the order of the
list. Owners keep their declarations this way, and so do the sets that imports contribute.
-/

set_option autoImplicit false

namespace NameLookup

/-- Declarations in order, with an index by name. -/
structure Members where
  decls : List DeclId
  groups : List (Name × List DeclId)
deriving DecidableEq

/-- Adds a declaration to the group of its name, which is opened if it is missing. -/
def addToGroup (name : Name) (d : DeclId) : List (Name × List DeclId) → List (Name × List DeclId)
  | [] => [(name, [d])]
  | g :: gs => if name = g.1 then (g.1, g.2 ++ [d]) :: gs else g :: addToGroup name d gs

namespace Members

/-- No members. -/
def empty : Members := ⟨[], []⟩

/-- Adds a declaration of the given name at the end. -/
def push (m : Members) (name : Name) (d : DeclId) : Members :=
  ⟨m.decls ++ [d], addToGroup name d m.groups⟩

/-- The declarations of a name, in order. -/
def named (m : Members) (name : Name) : List DeclId := (m.groups.lookup name).getD []

/-- The declaration is in the list or in the index. -/
def Lists (m : Members) (d : DeclId) : Prop := d ∈ m.decls ∨ ∃ name, d ∈ m.named name

/-- How many declarations there are. -/
def size (m : Members) : Nat := m.decls.length

@[simp] theorem decls_push (m : Members) (name : Name) (d : DeclId) :
    (m.push name d).decls = m.decls ++ [d] := rfl

@[simp] theorem named_empty (name : Name) : empty.named name = [] := rfl

theorem lookup_addToGroup (name n : Name) (d : DeclId) (gs : List (Name × List DeclId)) :
    ((addToGroup name d gs).lookup n).getD [] =
      if n = name then (gs.lookup n).getD [] ++ [d] else (gs.lookup n).getD [] := by
  induction gs with
  | nil => by_cases h : n = name <;> simp [addToGroup, AssocList.lookup_cons, h]
  | cons g gs ih =>
    simp only [addToGroup]
    split <;> grind [AssocList.lookup_cons]

theorem named_push (m : Members) (name n : Name) (d : DeclId) :
    (m.push name d).named n = if n = name then m.named n ++ [d] else m.named n :=
  lookup_addToGroup name n d m.groups

theorem not_lists_empty (d : DeclId) : ¬ empty.Lists d := by
  rintro (h | ⟨name, h⟩)
  · exact List.not_mem_nil h
  · exact List.not_mem_nil h

theorem lists_push {m : Members} {name : Name} {d d' : DeclId} (h : (m.push name d).Lists d') :
    m.Lists d' ∨ d' = d := by
  rcases h with h | ⟨n, h⟩
  · rw [decls_push, List.mem_append, List.mem_singleton] at h
    exact h.imp_left .inl
  · rw [named_push] at h
    split at h
    · rw [List.mem_append, List.mem_singleton] at h
      exact h.imp_left fun h => .inr ⟨n, h⟩
    · exact .inl (.inr ⟨n, h⟩)

end Members

end NameLookup
