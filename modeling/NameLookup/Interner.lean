/-!
# Interning

An `Interner` numbers spellings in the order in which it first met them. A `NameId` is the number
that some interner gave out; another interner may not know it, or know it for another spelling.
Numbers have 32 bits, so no more than `2 ^ 32` spellings can be told apart.
-/

set_option autoImplicit false

namespace NameLookup

/-- The number of an interned spelling. -/
structure NameId where
  index : Nat
deriving DecidableEq

namespace NameId

/-- The number of the spelling at a position. Beyond 32 bits numbers start over. -/
def ofPosition (position : Nat) : NameId := ⟨position % UInt32.size⟩

/-- The number with its kind, for traces. -/
def tag (n : NameId) : String := s!"Name({n.index})"

theorem ofPosition_of_lt {position : Nat} (h : position < UInt32.size) :
    ofPosition position = ⟨position⟩ :=
  congrArg mk (Nat.mod_eq_of_lt h)

end NameId

structure Interner where
  /-- The number of each spelling met so far. -/
  numbers : List (String × NameId)
  /-- The spellings met so far, in order of first occurrence. -/
  spellings : List String

namespace Interner

def empty : Interner := ⟨[], []⟩

/-- The number of a spelling met before. -/
def find? (i : Interner) (spelling : String) : Option NameId := i.numbers.lookup spelling

/-- The number of a spelling, which gets the next one if it is new. -/
def intern (i : Interner) (spelling : String) : NameId × Interner :=
  match i.find? spelling with
  | some n => (n, i)
  | none =>
    let n := NameId.ofPosition i.spellings.length
    (n, ⟨(spelling, n) :: i.numbers, i.spellings ++ [spelling]⟩)

/-- The spelling that has the number. -/
def lookup? (i : Interner) (n : NameId) : Option String := i.spellings[n.index]?

/-- The spelling to show for a number, known here or not. -/
def display (i : Interner) (n : NameId) : String := (i.lookup? n).getD "<?>"

/-- How many different spellings were met. -/
def size (i : Interner) : Nat := i.spellings.length

/-- The interner's size, for traces. -/
def summary (i : Interner) : String := s!"Interner \x7b count: {i.size} \x7d"

end Interner

end NameLookup
