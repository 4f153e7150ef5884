import LawProof.Assignment
import LawProof.Formula

/-!
# Classification

Whether a formula is a tautology, a contradiction or neither, by its truth table.
-/

namespace LawProof

inductive Classification where
  | tautology
  | contradiction
  /-- Comes with the first assignment whose value is not the goal's. -/
  | neither (witness : Assignment)
deriving DecidableEq, Repr

namespace Classification

def ofGoal : Goal → Classification
  | .tautology => .tautology
  | .contradiction => .contradiction

/-- The formula is of the kind that a proof of the goal needs. -/
def fits (c : Classification) (goal : Goal) : Bool := c == ofGoal goal

def text : Classification → String
  | .tautology => "tautology"
  | .contradiction => "contradiction"
  | .neither witness => "neither (" ++ witness.text ++ ")"

end Classification

/-- What the rows of a truth table have shown so far. -/
structure Evidence where
  seenTrue : Bool := false
  seenFalse : Bool := false
  /-- The first assignment whose value is not the goal's. -/
  witness : Option Assignment := none
deriving DecidableEq, Repr

namespace Evidence

/-- Both values have been seen. -/
def isMixed (e : Evidence) : Bool := e.seenTrue && e.seenFalse

/-- Takes down the value under one more assignment. -/
def note (goal : Goal) (a : Assignment) (value : Bool) (e : Evidence) : Evidence where
  seenTrue := e.seenTrue || value
  seenFalse := e.seenFalse || !value
  witness := e.witness.or (if value != goal.value then some a else none)

/-- What the evidence says of a formula with so many variables. -/
def verdict (vars : Nat) (e : Evidence) : Classification :=
  match e.seenTrue, e.seenFalse, e.witness with
  | true, false, _ => .tautology
  | false, true, _ => .contradiction
  | _, _, some a => .neither a
  -- A table has at least one row, so it does not come to this.
  | _, _, none => .neither ⟨0, vars⟩

end Evidence

namespace Formula

/-- Tries up to `count` assignments from `bits` on, until the formula has shown both values. -/
def gather (f : Formula) (goal : Goal) : Nat → Nat → Evidence → Evidence
  | 0, _, e => e
  | count + 1, bits, e =>
    let e := e.note goal ⟨bits, f.vars⟩ (f.holds bits)
    if e.isMixed then e else gather f goal count (bits + 1) e

/-- The evidence from the whole truth table, in counting order. -/
def evidence (f : Formula) (goal : Goal) : Evidence := f.gather goal (Nat.pow 2 f.vars) 0 {}

def classify (f : Formula) (goal : Goal) : Classification := (f.evidence goal).verdict f.vars

end Formula

end LawProof
