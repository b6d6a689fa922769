/-!
# Lines and columns

A `LineMap` remembers where the lines of a text break. `LineMap.locate` turns a byte offset into
the number of breaks before it and the distance from the last of them.
-/

set_option autoImplicit false

namespace NameLookup

/-- A line and a column, both counted from 0; columns count bytes. -/
structure LineCol where
  line : Nat
  column : Nat
deriving DecidableEq

/-- Lines and columns are shown counted from 1. -/
def LineCol.text (p : LineCol) : String := s!"{p.line + 1}:{p.column + 1}"

/-- The line structure of a text: the offset just after each line break, in order. -/
structure LineMap where
  breaks : List Nat

namespace LineMap

/-- The offsets just after the line breaks of `cs`, whose first byte is at `offset`. -/
def breaksFrom (offset : Nat) : List Char → List Nat
  | [] => []
  | c :: cs =>
    let next := offset + c.utf8Size
    if c = '\n' then next :: breaksFrom next cs else breaksFrom next cs

def ofText (text : String) : LineMap := ⟨breaksFrom 0 text.toList⟩

/-- A text has one line more than it has line breaks. -/
def lineCount (m : LineMap) : Nat := m.breaks.length + 1

/-- The line and column of a byte offset; one past the end counts on in the last line. -/
def locate (m : LineMap) (offset : Nat) : LineCol :=
  let passed := m.breaks.takeWhile (· ≤ offset)
  ⟨passed.length, offset - passed.getLastD 0⟩

end LineMap

end NameLookup
