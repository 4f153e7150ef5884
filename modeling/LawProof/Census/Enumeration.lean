import LawProof.Formula
import LawProof.Proof.Candidate

/-!
# All formulas of one size

The words of `n` symbols that start with an operator and use only the first `n` variables, numbered
in the order of their codes. A word is read off its number in base `n + 5`, the first symbol being
the most significant digit. The formulas of size `n` are the words that are formulas.
-/

namespace LawProof

/-- Why the formulas of a size are not listed. -/
inductive CensusError where
  | tooFewSymbols (symbols : Nat)
  | tooManySymbols (symbols : Nat)
  | formula (e : FormulaError)
deriving DecidableEq, Repr

/-- The size of the smallest formula that starts with an operator. -/
def minSymbols : Nat := 2

namespace CensusError

def message : CensusError → String
  | .tooFewSymbols symbols =>
    s!"census formulas need at least {minSymbols} symbols, got {symbols}"
  | .tooManySymbols symbols =>
    s!"census formulas need at most {maxVariables} symbols, got {symbols}"
  | .formula e => e.message

end CensusError

structure Enumeration where
  /-- The size of the formulas. -/
  symbols : Nat
  slack : Nat
deriving DecidableEq, Repr

namespace Enumeration

def new (symbols slack : Nat) : Except CensusError Enumeration :=
  if symbols < minSymbols then .error (.tooFewSymbols symbols)
  else if maxVariables < symbols then .error (.tooManySymbols symbols)
  else if slack < minSlack then .error (.formula (.insufficientSlack slack))
  else .ok ⟨symbols, slack⟩

/-- The symbols of a word are the operators, the constants and one variable for each place. -/
def letters (e : Enumeration) : Nat := e.symbols + 5

/-- A word starts with one of so many operators. -/
def operators : Nat := 3

/-- How many words there are. -/
def space (e : Enumeration) : Nat := operators * Nat.pow e.letters (e.symbols - 1)

def reportedSpace (e : Enumeration) : Nat := min e.space countCap

/-- The digits of a number, `places` of them. -/
def digits (base : Nat) : Nat → Nat → List Nat
  | 0, _ => []
  | places + 1, n =>
    let unit := Nat.pow base places
    n / unit :: digits base places (n % unit)

/-- The word with a given number; the end marker, with code 0, is no letter. -/
def word (e : Enumeration) (n : Nat) : List Symbol :=
  (digits e.letters e.symbols n).map fun d => Symbol.ofCode (d + 1)

/-- The word with a given number, if it is a formula. -/
def formula? (e : Enumeration) (n : Nat) : Option Formula :=
  (Formula.ofBody (e.word n) e.slack).toOption

/-- The formulas among the `count` words from number `n` on, until `take` of them are found, and the
number of the first word that was not looked at. -/
def drawFrom (e : Enumeration) : Nat → Nat → Nat → List Formula × Nat
  | 0, n, _ => ([], n)
  | _ + 1, n, 0 => ([], n)
  | count + 1, n, take + 1 =>
    match e.formula? n with
    | none => drawFrom e count (n + 1) (take + 1)
    | some f =>
      let (rest, next) := drawFrom e count (n + 1) take
      (f :: rest, next)

/-- The first `take` formulas, and the number of the word behind them. -/
def draw (e : Enumeration) (take : Nat) : List Formula × Nat := e.drawFrom e.space 0 take

/-- Adds up, over the formulas among the `count` words from number `n` on. -/
def foldFrom {α : Type} (e : Enumeration) (step : α → Formula → α) : Nat → Nat → α → α
  | 0, _, acc => acc
  | count + 1, n, acc =>
    match e.formula? n with
    | none => foldFrom e step count (n + 1) acc
    | some f => foldFrom e step count (n + 1) (step acc f)

/-- How many formulas there are among the words from number `n` on. -/
def countFrom (e : Enumeration) (n : Nat) : Nat :=
  e.foldFrom (fun count _ => count + 1) (e.space - n) n 0

end Enumeration

end LawProof
