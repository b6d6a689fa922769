import NameLookup.Source.Range
import NameLookup.Symbol

/-!
# Points and extents

A name is looked up at a `Point`; an import is in force over an `Extent`.
-/

set_option autoImplicit false

namespace NameLookup

/-- The syntactic place of a name. -/
inductive Site where
  | expression
  /-- A label of the `switch` whose body is the block. -/
  | caseLabel (body : BlockId)
deriving DecidableEq

/-- Where a name is looked up: in the text, in the blocks, and in what syntactic place. -/
structure Point where
  position : Position
  block : BlockId
  site : Site
deriving DecidableEq

/-- The point is a case label of some `switch`. -/
def Point.isCaseLabel (p : Point) : Bool :=
  match p.site with
  | .caseLabel _ => true
  | .expression => false

/-- Where an import is in force: a range of text, and the block that the import belongs to. -/
structure Extent where
  block : BlockId
  range : Range
deriving DecidableEq

end NameLookup
