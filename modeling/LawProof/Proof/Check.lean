import LawProof.Assignment
import LawProof.Proof.Replay

/-!
# Checking proofs

The checker replays a proof and looks at the formula after every step: it must be well formed and
have the value it had at the start under every assignment. The last step, and only the last, must
leave the goal's constant.
-/

namespace LawProof

/-- Why a proof is refused; steps are numbered from 1. -/
inductive CheckError where
  | empty
  | lawMismatch (number : Nat) (step : Step)
  | malformed (number : Nat)
  | meaningChanged (number : Nat) (witness : Assignment)
  | finishedEarly (number : Nat) (goal : Goal)
  | incomplete (formula : Formula) (goal : Goal)
deriving DecidableEq, Repr

namespace CheckError

def message : CheckError → String
  | .empty => "proof has no steps"
  | .lawMismatch number step =>
    s!"step {number} ({step.law.name} at {step.position}) does not apply"
  | .malformed number => s!"step {number} left a malformed formula"
  | .meaningChanged number witness =>
    s!"step {number} changed the value of the formula under {witness.text}"
  | .finishedEarly number goal =>
    s!"the formula reached the {goal.text} constant after step {number}, before the last step"
  | .incomplete formula goal => s!"proof ends at {formula.text} instead of the {goal.text} constant"

end CheckError

/-- A checked proof: the formula it starts with and the one after each step. -/
structure Trace where
  start : Formula
  goal : Goal
  steps : List (Step × Formula)
deriving DecidableEq, Repr

namespace Trace

/-- The start and the formula after every step. -/
def formulas (t : Trace) : List Formula := t.start :: t.steps.map (·.2)

/-- A text with blanks in front up to a width. -/
def padLeft (width : Nat) (text : String) : String :=
  String.ofList (List.replicate (width - text.length) ' ') ++ text

/-- A text with blanks behind it up to a width. -/
def padRight (width : Nat) (text : String) : String :=
  text ++ String.ofList (List.replicate (width - text.length) ' ')

def line (number : Nat) (step : Step) (f : Formula) : String :=
  padLeft 2 (toString number) ++ ". " ++ padRight 16 step.text ++ " " ++ f.text ++ "\n"

def text (t : Trace) : String :=
  "    " ++ t.start.text ++ "\n" ++
    String.join (t.steps.zipIdx.map fun ((step, f), i) => line (i + 1) step f)

end Trace

namespace Check

/-- The first assignment under which the working formula has no value or not the value of `f`. -/
def firstChange? (f : Formula) (s : State) : Option Nat :=
  leastBelow (Nat.pow 2 f.vars) fun bits => s.evaluate bits != some (f.holds bits)

/-- What is wrong with the working formula after a step, if anything. -/
def fault? (f : Formula) (number : Nat) (s : State) : Option CheckError :=
  if !Body.isValid s.formula.body then some (.malformed number)
  else
    match firstChange? f s with
    | none => none
    | some bits =>
      match s.evaluate bits with
      | none => some (.malformed number)
      | some _ => some (.meaningChanged number ⟨bits, f.vars⟩)

/-- Checks the steps from the one with the given number on. -/
def runBy (e : Engine) (f : Formula) (goal : Goal) :
    Nat → State → Proof → Except CheckError (List (Step × Formula))
  | _, s, [] => if s.formula.isGoal goal then .ok [] else .error (.incomplete s.formula goal)
  | number, s, step :: rest =>
    match e.take s step with
    | (false, _) => .error (.lawMismatch number step)
    | (true, t) =>
      match fault? f number t with
      | some e => .error e
      | none =>
        if t.formula.isGoal goal && !rest.isEmpty then .error (.finishedEarly number goal)
        else (runBy e f goal (number + 1) t rest).map ((step, t.formula) :: ·)

end Check

/-- Checks that a proof leads from a formula to the goal's constant, with the steps taken by an
engine. -/
def verifyBy (e : Engine) (f : Formula) (p : Proof) (goal : Goal) : Except CheckError Trace :=
  if p.isEmpty then .error .empty
  else (Check.runBy e f goal 1 (e.seed f) p).map fun steps => ⟨f, goal, steps⟩

def verify (f : Formula) (p : Proof) (goal : Goal) : Except CheckError Trace :=
  verifyBy .exact f p goal

/-- No list of values is longer than this many variables make it. -/
def maxListed : Nat := 62

/-- The check with counts in words. The values of the formula under all assignments are listed
before the first step. Where there cannot be so long a list, there is no answer. -/
def verifyListed (f : Formula) (p : Proof) (goal : Goal) : Option (Except CheckError Trace) :=
  if !p.isEmpty && maxListed < f.vars then none else some (verifyBy .word f p goal)

end LawProof
