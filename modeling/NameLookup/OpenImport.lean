import NameLookup.Exports
import NameLookup.Point

/-!
# Open imports

`OpenImports` lists the imports in force, in the order in which they were opened. Their numbers are
never used again, also not after an import is closed.

An import carries its number in a word of 32 bits, which starts over after so many imports. Here
numbers just go on. Nothing is lost by that as long as all numbers given out fit in a word
(`OpenImports.NumbersFit`); what may fail afterwards asks for it.
-/

set_option autoImplicit false

namespace NameLookup

/-- How the names of an import compete with ordinary lookup. -/
inductive ImportKind where
  /-- A `using` directive: its names always take part. -/
  | unconditional
  /-- The import that a `switch` over an enumeration makes for its case labels: its names count only
  where ordinary lookup finds nothing. -/
  | fallback
deriving DecidableEq

/-- The kind in words. -/
def ImportKind.text : ImportKind → String
  | unconditional => "using-directive"
  | fallback => "switch fallback import"

inductive ImportState where
  /-- The operand denotes a target, which exports this. -/
  | active (target : Target) (exports : Exports)
  /-- The operand waits for template arguments. -/
  | deferred (token : Deferral)
deriving DecidableEq

structure OpenImport where
  id : ImportId
  kind : ImportKind
  extent : Extent
  operand : Operand
  state : ImportState
  /-- Made by a `switch`, so that only an enumeration counts. -/
  fromSwitch : Bool
deriving DecidableEq

namespace OpenImport

/-- The import is in force at the point. A fallback import is so only at the case labels of its own
`switch`. -/
def appliesTo (i : OpenImport) (p : Point) : Bool :=
  i.extent.range.contains p.position &&
    match i.kind with
    | .unconditional => true
    | .fallback => p.site = .caseLabel i.extent.block

/-- What the import exports, unless it is deferred. -/
def exports? (i : OpenImport) : Option Exports :=
  match i.state with
  | .active _ exports => some exports
  | .deferred _ => none

/-- The operand of the import waits for template arguments. -/
def isDeferred (i : OpenImport) : Bool :=
  match i.state with
  | .active _ _ => false
  | .deferred _ => true

end OpenImport

structure OpenImports where
  /-- In the order of opening. -/
  toList : List OpenImport
  /-- The number of the next import. -/
  nextId : Nat
deriving DecidableEq

/-- The number as it is carried, in a word of 32 bits. -/
def ImportId.word (id : ImportId) : Nat := id.index % UInt32.size

namespace OpenImports

def empty : OpenImports := ⟨[], 0⟩

/-- There was a word of its own for each import that was opened so far. -/
def NumbersFit (s : OpenImports) : Prop := s.nextId ≤ UInt32.size

instance (s : OpenImports) : Decidable s.NumbersFit :=
  inferInstanceAs (Decidable (s.nextId ≤ UInt32.size))

/-- Opens an import under the next number, which goes on where the word starts over. -/
def insert (s : OpenImports) (kind : ImportKind) (extent : Extent) (operand : Operand)
    (state : ImportState) (fromSwitch : Bool) : OpenImport × OpenImports :=
  let i : OpenImport := ⟨⟨s.nextId⟩, kind, extent, operand, state, fromSwitch⟩
  (i, ⟨s.toList ++ [i], s.nextId + 1⟩)

def get? (s : OpenImports) (id : ImportId) : Option OpenImport := s.toList.find? (·.id = id)

/-- Closes an import; the others stay as they are. -/
def erase (s : OpenImports) (id : ImportId) : OpenImports :=
  { s with toList := s.toList.eraseP (·.id = id) }

/-- The imports in force at a point. -/
def inForceAt (s : OpenImports) (p : Point) : List OpenImport := s.toList.filter (·.appliesTo p)

end OpenImports

end NameLookup
