import LawProof.Symbol

/-!
# Why a formula is refused

Each cause that keeps a text, a list of symbols or a list of clauses from becoming a formula, and
the sentence that reports it.
-/

namespace LawProof

/-- The room behind the end marker that a formula must at least have. -/
def minSlack : Nat := 7

inductive FormulaError where
  | empty
  | missingTerminator
  | extraTerminator (position : Nat)
  | missingOperand (symbol : Symbol) (position : Nat)
  | leftover (values : Nat)
  | clauseSize (clause literals : Nat)
  | variableGap (missing : Nat)
  | variableCount (declared found : Nat)
  | variableOutOfRange (index : Nat)
  | syntheticInput (index : Nat)
  | unknownToken (token : String) (offset : Nat)
  | insufficientSlack (slack : Nat)
  | noClauses
  | literalOutOfRange (clause : Nat) (literal : Int)
deriving DecidableEq, Repr

namespace FormulaError

def message : FormulaError → String
  | .empty => "formula is empty"
  | .missingTerminator => "formula is missing its end-of-formula marker"
  | .extraTerminator position =>
    s!"unexpected end-of-formula marker at position {position}"
  | .missingOperand symbol position =>
    s!"malformed prefix syntax: '{symbol.text}' at position {position} is missing an operand"
  | .leftover values => s!"malformed prefix syntax: {values} values remain instead of one"
  | .clauseSize clause literals =>
    s!"malformed prefix syntax: clause {clause} has {literals} literals instead of 3"
  | .variableGap missing => s!"variable numbering has a gap: x{missing} is never used"
  | .variableCount declared found =>
    s!"declared {declared} variables but the formula uses {found}"
  | .variableOutOfRange index =>
    s!"variable x{index} exceeds the supported maximum of {maxVariables} variables"
  | .syntheticInput index =>
    s!"synthetic variable s{index} cannot appear in an input formula"
  | .unknownToken token offset => s!"unknown token '{token}' at offset {offset}"
  | .insufficientSlack slack => s!"slack of {slack} is below the minimum of {minSlack}"
  | .noClauses => "a CNF formula must have at least one clause"
  | .literalOutOfRange clause literal =>
    s!"literal {literal} in clause {clause} is zero or out of range"

end FormulaError

end LawProof
