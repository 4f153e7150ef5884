/-!
# Symbols

The alphabet of prefix-order formulas: the end marker, three connectives, two constants and the
variables. `x0` to `x63` are the variables a formula may be written with; `s0`, `s1`, … are
synthetic variables that stand for a part of a formula.
-/

namespace LawProof

/-- How many input variables there are. -/
def maxVariables : Nat := 64

/-- A variable: the ids below `maxVariables` are the inputs, all others are synthetic. -/
structure Var where
  id : Nat
deriving DecidableEq, Repr

namespace Var

def isSynthetic (v : Var) : Bool := decide (maxVariables ≤ v.id)

/-- The bit of a truth assignment that holds the value of an input variable. -/
def bit? (v : Var) : Option Nat := if v.isSynthetic then none else some v.id

/-- The synthetic variable `s<index>`. -/
def synthetic (index : Nat) : Var := ⟨maxVariables + index⟩

def text (v : Var) : String :=
  if v.isSynthetic then "s" ++ toString (v.id - maxVariables) else "x" ++ toString v.id

end Var

inductive Symbol where
  | stop
  | neg
  | disj
  | conj
  | fls
  | tru
  | var (v : Var)
deriving DecidableEq, Repr

namespace Symbol

/-- The input variable `x<index>`. -/
def x (index : Nat) : Symbol := .var ⟨index⟩

def constant (value : Bool) : Symbol := if value then .tru else .fls

/-- A symbol that is a whole formula by itself: a constant or a variable. -/
def isOperand : Symbol → Bool
  | .fls | .tru | .var _ => true
  | _ => false

def isConstant : Symbol → Bool
  | .fls | .tru => true
  | _ => false

def isBinary : Symbol → Bool
  | .disj | .conj => true
  | _ => false

/-- The truth value a constant denotes. -/
def value? : Symbol → Option Bool
  | .fls => some false
  | .tru => some true
  | _ => none

/-- How many operands follow the symbol; the end marker takes no part in a formula. -/
def arity? : Symbol → Option Nat
  | .stop => none
  | .neg => some 1
  | .disj | .conj => some 2
  | .fls | .tru | .var _ => some 0

/-- Swaps the two binary connectives. -/
def dual : Symbol → Symbol
  | .disj => .conj
  | .conj => .disj
  | s => s

def var? : Symbol → Option Var
  | .var v => some v
  | _ => none

def code : Symbol → Nat
  | .stop => 0
  | .neg => 1
  | .disj => 2
  | .conj => 3
  | .fls => 4
  | .tru => 5
  | .var v => 6 + v.id

def ofCode : Nat → Symbol
  | 0 => .stop
  | 1 => .neg
  | 2 => .disj
  | 3 => .conj
  | 4 => .fls
  | 5 => .tru
  | n + 6 => .var ⟨n⟩

theorem ofCode_code (s : Symbol) : ofCode s.code = s := by
  cases s <;> simp [code, ofCode, Nat.add_comm]

theorem code_ofCode (n : Nat) : (ofCode n).code = n := by
  match n with
  | 0 | 1 | 2 | 3 | 4 | 5 => rfl
  | n + 6 => simp [code, ofCode, Nat.add_comm]

def text : Symbol → String
  | .stop => "STOP"
  | .neg => "-"
  | .disj => "+"
  | .conj => "*"
  | .fls => "F"
  | .tru => "T"
  | .var v => v.text

end Symbol

end LawProof
