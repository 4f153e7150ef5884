import LawProof.Formula.Error

/-!
# Bodies

A body is the list of symbols of a formula in prefix order, without the end marker. This module says
when a body is well formed, which variables it uses and what its value is. All three read the body
from right to left, as a stack machine does: an operand pushes a value, a connective takes its
operands off the stack and pushes its own value.
-/

namespace LawProof.Body

/-! ## Syntax -/

/-- How many values the stack holds once the body, which starts at `position`, has been read. The
fault furthest to the right is the one reported. -/
def depth : Nat → List Symbol → Except FormulaError Nat
  | _, [] => .ok 0
  | position, s :: rest =>
    match depth (position + 1) rest with
    | .error e => .error e
    | .ok d =>
      match s.arity? with
      | none => .error (.extraTerminator position)
      | some n => if d < n then .error (.missingOperand s position) else .ok (d - n + 1)

/-- A body is well formed when reading it leaves exactly one value. -/
def checkSyntax (body : List Symbol) : Except FormulaError Unit :=
  match depth 0 body with
  | .error e => .error e
  | .ok 0 => .error .empty
  | .ok 1 => .ok ()
  | .ok n => .error (.leftover n)

def isValid (body : List Symbol) : Bool := (checkSyntax body).isOk

/-! ## Variables -/

/-- The input variables of a body as a set of bits. -/
def inputMask : List Symbol → Nat
  | [] => 0
  | .var v :: rest =>
    if v.isSynthetic then inputMask rest else Nat.pow 2 v.id ||| inputMask rest
  | _ :: rest => inputMask rest

/-- How many ones a number has at its low end. -/
def trailingOnes (n : Nat) : Nat :=
  if n % 2 = 1 then trailingOnes (n / 2) + 1 else 0
termination_by n
decreasing_by omega

/-- The number of input variables, which must be `x0` up to the last one used with no gap. -/
def countVariables (body : List Symbol) : Except FormulaError Nat :=
  let mask := inputMask body
  let count := trailingOnes mask
  if mask = Nat.pow 2 count - 1 then .ok count else .error (.variableGap count)

/-! ## Values -/

/-- What one symbol does to the stack; `none` where operands are missing. -/
def push (lookup : Var → Option Bool) : Symbol → List Bool → Option (List Bool)
  | .neg, a :: stack => some ((!a) :: stack)
  | .disj, a :: b :: stack => some ((a || b) :: stack)
  | .conj, a :: b :: stack => some ((a && b) :: stack)
  | .fls, stack => some (false :: stack)
  | .tru, stack => some (true :: stack)
  | .var v, stack => (lookup v).map (· :: stack)
  | _, _ => none

/-- The stack once the whole body has been read. -/
def stack (lookup : Var → Option Bool) : List Symbol → Option (List Bool)
  | [] => some []
  | s :: rest => (stack lookup rest).bind (push lookup s)

/-- The value of a well-formed body whose variables all have a value. -/
def value? (lookup : Var → Option Bool) (body : List Symbol) : Option Bool :=
  match stack lookup body with
  | some [v] => some v
  | _ => none

/-- The value where bit `i` of `bits` is the value of `xi`. Synthetic variables have none. -/
def evaluate (body : List Symbol) (bits : Nat) : Option Bool :=
  value? (fun v => v.bit?.map bits.testBit) body

end LawProof.Body
