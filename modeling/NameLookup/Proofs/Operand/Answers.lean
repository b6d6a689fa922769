import NameLookup.Operand.Resolution
import NameLookup.Proofs.SymbolTable.Rendering

/-!
# Answers

An operand is spelled before it is resolved, for the text of a fault, and so is a type that waited
before it is asked for again. Where spelling does not end there is no answer. `ResolvesTo` and
`ResumesTo` are the runs that have one, with what they answer and the table that they leave. In an
ordered table that is every run (`Ordered.resolvesTo`).
-/

set_option autoImplicit false

namespace NameLookup.SymbolTable

/-- An operand in source form. -/
inductive OperandText (t : SymbolTable) : Operand → String → Prop
  | type {ty : TypeExpr} {text : String} (h : t.TypeText ty text) : OperandText t (.type ty) text
  | value (n : Name) : OperandText t (.value n) n

/-- Resolving the operand answers `r` and leaves the table `u`. -/
structure ResolvesTo (t : SymbolTable) (σ : Substitution) (steps : Nat) (operand : Operand)
    (chain : ScopeChain) (r : Except ImportFault Resolution) (u : SymbolTable) : Prop where
  spelled : ∃ text, t.OperandText operand text
  run : resolveOperand σ steps operand chain t = (r, u)

/-- Asking again for the type that waited answers `r` and leaves the table `u`. -/
structure ResumesTo (t : SymbolTable) (σ : Substitution) (steps : Nat) (token : Deferral)
    (r : Except ImportFault Resolution) (u : SymbolTable) : Prop where
  spelled : t.SpellingEnds token.type
  run : resumeDeferral σ steps token t = (r, u)

variable {t : SymbolTable} {σ : Substitution} {steps : Nat} {operand : Operand} {chain : ScopeChain}

theorem OperandText.spellOperand {text : String} (h : t.OperandText operand text) :
    t.spellOperand operand = text := by
  cases h with
  | type h => exact h.spellType
  | value n => rfl

/-- In an answer a fault carries the text of the operand. -/
theorem OperandText.resolvesTo {text : String} {r : Except ResolutionFault Resolution}
    {u : SymbolTable} (htext : t.OperandText operand text)
    (h : resolveOperand σ steps operand chain t =
      (r.mapError (ResolutionFault.toImportFault (t.spellOperand operand)), u)) :
    t.ResolvesTo σ steps operand chain (r.mapError (ResolutionFault.toImportFault text)) u :=
  ⟨⟨text, htext⟩, htext.spellOperand ▸ h⟩

theorem Ordered.exists_operandText (h : t.Ordered) (operand : Operand) :
    ∃ text, t.OperandText operand text := by
  cases operand with
  | type ty => exact (h.spellingEnds ty).imp fun _ => .type
  | value n => exact ⟨n, .value n⟩

theorem Ordered.resolvesTo (h : t.Ordered) {r : Except ImportFault Resolution}
    (hr : (resolveOperand σ steps operand chain t).1 = r) :
    t.ResolvesTo σ steps operand chain r (resolveOperand σ steps operand chain t).2 :=
  ⟨h.exists_operandText operand, Attempt.run_of_fst hr⟩

end NameLookup.SymbolTable
