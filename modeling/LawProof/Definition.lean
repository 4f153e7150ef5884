import LawProof.Symbol

/-!
# Definitions

What a synthetic variable stands for: one connective over single symbols.
-/

namespace LawProof

inductive Definition where
  | neg (a : Symbol)
  | disj (a b : Symbol)
  | conj (a b : Symbol)
deriving DecidableEq, Repr

namespace Definition

/-- The definition `op a b`, where `op` must be a binary connective. -/
def binary? : Symbol → Symbol → Symbol → Option Definition
  | .disj, a, b => some (.disj a b)
  | .conj, a, b => some (.conj a b)
  | _, _, _ => none

def operator : Definition → Symbol
  | .neg _ => .neg
  | .disj _ _ => .disj
  | .conj _ _ => .conj

def operands : Definition → List Symbol
  | .neg a => [a]
  | .disj a b | .conj a b => [a, b]

/-- The defined part of a formula in prefix order. -/
def symbols (d : Definition) : List Symbol := d.operator :: d.operands

def text (d : Definition) : String := " ".intercalate (d.symbols.map Symbol.text)

end Definition

end LawProof
