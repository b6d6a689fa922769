import NameLookup.Analysis.Lookup
import NameLookup.SymbolTable.History

/-!
# Histories of an analysis

An `Operation` is one of the analysis itself. In a `Reachable` history the symbol table may also be
changed in between.
-/

set_option autoImplicit false

namespace NameLookup.Analysis

/-- What can be asked of an analysis. -/
inductive Operation where
  | openImport (operand : Operand) (kind : ImportKind) (extent : Extent)
  | openSwitchImport (controlling : Operand) (extent : Extent)
  | closeImport (id : ImportId)
  | enterFrame (σ : Substitution)
  | leaveFrame
  | visibleImports (p : Point)
  | lookup (name : Name) (p : Point)

/-- The analysis after an operation. An import counts also when it is refused. -/
def Operation.apply (a : Analysis) : Operation → Analysis
  | .openImport operand kind extent => (Analysis.openImport operand kind extent a).2
  | .openSwitchImport controlling extent => (Analysis.openSwitchImport controlling extent a).2
  | .closeImport id => (Analysis.closeImport id a).2
  | .enterFrame σ => a.enterFrame σ
  | .leaveFrame => a.leaveFrame
  | .visibleImports p => (Analysis.visibleImports p a).2
  | .lookup name p => (Analysis.lookup name p a).2

/-- The analysis came about from a fresh one on a table that came about from a fresh one. -/
inductive Reachable : Analysis → Prop where
  | new {t : SymbolTable} (h : t.Reachable) (options : Options) (associated : AssociatedScopes) :
      Reachable (new t options associated)
  | operation {a : Analysis} (h : Reachable a) (op : Operation) : Reachable (op.apply a)
  | change {a : Analysis} {t : SymbolTable} (h : Reachable a) (hc : a.table.Change t) :
      Reachable { a with table := t }

end NameLookup.Analysis
