import LawProof.Formula
import LawProof.Text.Blank
import LawProof.Text.Decimal

/-!
# Clauses of three literals

A conjunction of clauses can be given as numbers: `k` is the variable `x` with index `k - 1`, and
`-k` its negation.
-/

namespace LawProof

/-- A disjunction of three literals. -/
structure Clause where
  first : Int
  second : Int
  third : Int
deriving DecidableEq, Repr

namespace Clause

def literals (c : Clause) : List Int := [c.first, c.second, c.third]

def ofLiterals? : List Int → Option Clause
  | [a, b, c] => some ⟨a, b, c⟩
  | _ => none

/-- The symbols of one literal. -/
def literal (l : Int) : List Symbol :=
  if l < 0 then [.neg, .x (l.natAbs - 1)] else [.x (l.natAbs - 1)]

/-- The clause in prefix order. -/
def body (c : Clause) : List Symbol :=
  .disj :: literal c.first ++ .disj :: literal c.second ++ literal c.third

/-- The conjunction of the clauses in prefix order, nested to the right. -/
def conjunction : List Clause → List Symbol
  | [] => []
  | [c] => c.body
  | c :: rest => .conj :: c.body ++ conjunction rest

/-! ## Checking -/

/-- What is wrong with a literal of a clause. The names run up to `bound`, the number of all
literals. -/
def literalFault? (bound clause : Nat) (l : Int) : Option FormulaError :=
  if l = 0 ∨ bound < l.natAbs then some (.literalOutOfRange clause l)
  else if maxVariables < l.natAbs then some (.variableOutOfRange (l.natAbs - 1))
  else none

/-- The first fault among the literals, clause by clause. -/
def fault? (bound : Nat) : Nat → List Clause → Option FormulaError
  | _, [] => none
  | i, c :: rest => (c.literals.findSome? (literalFault? bound i)).or (fault? bound (i + 1) rest)

/-! ## Reading -/

def isGroupEnd (c : Char) : Bool := c == ';' || c == '\n'

def isGap (c : Char) : Bool := Text.isBlank c || c == ','

/-- Literals are numbers of 32 bits. -/
def literalBound : Nat := Nat.pow 2 31

/-- Reads the literals of the clause with index `i`. -/
def readLiterals (i : Nat) : List (List Char) → Except FormulaError (List Int)
  | [] => .ok []
  | token :: rest =>
    match Text.integer? literalBound token with
    | none => .error (.unknownToken (String.ofList token) i)
    | some l =>
      match readLiterals i rest with
      | .error e => .error e
      | .ok ls => .ok (l :: ls)

/-- Reads the clause with index `i`. -/
def readGroup (i : Nat) (group : List Char) : Except FormulaError Clause :=
  match readLiterals i (Text.fields isGap group) with
  | .error e => .error e
  | .ok ls =>
    match ofLiterals? ls with
    | none => .error (.clauseSize i ls.length)
    | some c => .ok c

/-- Reads one clause from each group that is not blank, counting the clauses from `i`. -/
def readGroups : Nat → List (List Char) → Except FormulaError (List Clause)
  | _, [] => .ok []
  | i, group :: rest =>
    let group := Text.trim group
    if group.isEmpty then readGroups i rest
    else
      match readGroup i group with
      | .error e => .error e
      | .ok c =>
        match readGroups (i + 1) rest with
        | .error e => .error e
        | .ok cs => .ok (c :: cs)

/-- Reads clauses that end at a semicolon or at the end of a line. -/
def readAll (text : String) : Except FormulaError (List Clause) :=
  readGroups 0 (Text.split isGroupEnd text.toList)

end Clause

/-- The formula that says that all the clauses hold. -/
def Formula.ofClauses (clauses : List Clause) (slack : Nat) : Except FormulaError Formula :=
  if clauses.isEmpty then .error .noClauses
  else
    match Clause.fault? (3 * clauses.length) 0 clauses with
    | some e => .error e
    | none => ofBody (Clause.conjunction clauses) slack

end LawProof
