/-!
# Positions in source files

Offsets count bytes from the start of a file. A `Range` is half open and carries the proof that it
does not end before it starts, so a reversed pair of bounds has no range (`Range.ofBounds?`).
-/

set_option autoImplicit false

namespace NameLookup

/-- A source file, known by its number. -/
structure FileId where
  index : Nat
deriving DecidableEq

namespace FileId

/-- The number with its kind, for traces. -/
def tag (file : FileId) : String := s!"FileId({file.index})"

/-- The file as a reader of messages sees it. -/
def label (file : FileId) : String := s!"file#{file.index}"

end FileId

/-- A byte offset in a file. -/
structure Position where
  file : FileId
  offset : Nat
deriving DecidableEq

/-- The bytes of a file from `start` up to, and without, `stop`. -/
structure Range where
  file : FileId
  start : Nat
  stop : Nat
  start_le_stop : start ≤ stop := by decide
deriving DecidableEq

namespace Range

/-- The range between two bounds, if they are in order. -/
def ofBounds? (file : FileId) (start stop : Nat) : Option Range :=
  if h : start ≤ stop then some ⟨file, start, stop, h⟩ else none

/-- Where the range starts. -/
def first (r : Range) : Position := ⟨r.file, r.start⟩

/-- `p` is one of the positions of the range; its end is not. -/
def contains (r : Range) (p : Position) : Bool :=
  r.file = p.file ∧ r.start ≤ p.offset ∧ p.offset < r.stop

/-- `inner` lies within the range; an empty one may sit at either end. -/
def encloses (r inner : Range) : Bool :=
  r.file = inner.file ∧ r.start ≤ inner.start ∧ inner.stop ≤ r.stop

theorem contains_iff {r : Range} {p : Position} :
    r.contains p = true ↔ r.file = p.file ∧ r.start ≤ p.offset ∧ p.offset < r.stop := by
  simp [contains]

end Range

end NameLookup
