import LawProof.Proof.Replay
import LawProof.Search.Config

/-!
# Search results
-/

namespace LawProof

inductive Outcome where
  /-- The shortest proof, and the first of that length in counting order. -/
  | proved (p : Proof)
  /-- No candidate up to the greatest length is a proof. -/
  | notFound
  /-- The deadline passed first. -/
  | timedOut
deriving DecidableEq, Repr

namespace Outcome

def proof? : Outcome → Option Proof
  | .proved p => some p
  | _ => none

def isProved (o : Outcome) : Bool := o.proof?.isSome

end Outcome

structure SearchResult where
  formula : Formula
  goal : Goal
  outcome : Outcome
  maxLength : Nat
  statistics : Statistics

namespace SearchResult

def proofLength? (r : SearchResult) : Option Nat := r.outcome.proof?.map List.length

def text (r : SearchResult) : String :=
  match r.outcome with
  | .proved p =>
    s!"Proof of length {p.length} for {r.formula.text}:\n" ++
    "  " ++ p.text ++ "\n" ++
    "  " ++ p.codes ++ " = [" ++ p.describe ++ "]\n"
  | .notFound =>
    s!"No proof of length {r.maxLength} or less that {r.formula.text} is a {r.goal.text}.\n"
  | .timedOut => s!"Search timed out for {r.formula.text}.\n"

end SearchResult

end LawProof
