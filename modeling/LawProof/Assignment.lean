/-!
# Assignments

A truth assignment is a number whose bit `i` is the value of `xi`.
-/

namespace LawProof

structure Assignment where
  bits : Nat
  vars : Nat
deriving DecidableEq, Repr

namespace Assignment

def value (a : Assignment) (index : Nat) : Bool := a.bits.testBit index

def text (a : Assignment) : String :=
  if a.vars = 0 then "(no variables)"
  else ", ".intercalate ((List.range a.vars).map fun i => s!"x{i} = {a.value i}")

end Assignment

/-- The least number with a property among the `count` numbers from `i` on. -/
def leastFrom (p : Nat → Bool) : Nat → Nat → Option Nat
  | 0, _ => none
  | count + 1, i => if p i then some i else leastFrom p count (i + 1)

/-- The least number below `bound` with a property. -/
def leastBelow (bound : Nat) (p : Nat → Bool) : Option Nat := leastFrom p bound 0

end LawProof
