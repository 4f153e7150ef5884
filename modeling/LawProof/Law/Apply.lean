import LawProof.Law.Rule

/-!
# Applying laws

The working state of a proof is a formula with its table. A law applies at a position when one of
its rules matches there and the result still fits on the tape.
-/

namespace LawProof

namespace Law

/-- The edit in which a definition gets a new name. -/
def collapse (t : Bindings) (d : Definition) : Edit :=
  let (v, t) := t.define d
  ⟨d.symbols.length, [.var v], t⟩

/-- Gives the part at the start of the window a name if its operands are single symbols, or spells
out the name that stands there. -/
def substitute? (t : Bindings) (room : Nat) (window : List Symbol) : Option Edit :=
  match window with
  | .neg :: a :: _ => if a.isOperand then some (collapse t (.neg a)) else none
  | .disj :: a :: b :: _ =>
    if a.isOperand && b.isOperand then some (collapse t (.disj a b)) else none
  | .conj :: a :: b :: _ =>
    if a.isOperand && b.isOperand then some (collapse t (.conj a b)) else none
  | .var v :: _ =>
    match t.definition? v with
    | none => none
    | some d =>
      if d.symbols.length ≤ 1 + room then some ⟨1, d.symbols, t.expand (.var v)⟩ else none
  | _ => none

/-- The edit a law makes at the start of a window: that of its first rule that can be used. -/
def edit? (law : Law) (t : Bindings) (room : Nat) (window : List Symbol) : Option Edit :=
  match law with
  | .substitution => substitute? t room window
  | law => law.rules.findSome? fun r => r.edit? t room window

end Law

/-- A formula in the course of a proof, with the table of its variables. -/
structure State where
  formula : Formula
  table : Bindings
deriving DecidableEq, Repr

namespace State

def ofFormula (f : Formula) : State := ⟨f, .ofFormula f⟩

def perform (s : State) (position : Nat) (e : Edit) : State :=
  ⟨s.formula.splice position e.width e.put, e.table⟩

/-- Applies a law at a position. No law applies at or behind the end marker. -/
def applyLaw? (s : State) (law : Law) (position : Nat) : Option State :=
  (law.edit? s.table s.formula.slack (s.formula.body.drop position)).map (s.perform position)

/-- The value of the working formula, synthetic variables read through their definitions. -/
def evaluate (s : State) (bits : Nat) : Option Bool := s.table.evaluate s.formula.body bits

end State

end LawProof
