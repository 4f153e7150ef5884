import LawProof.Goal
import LawProof.Text.Span

/-!
# Search statistics

What a search counts while it runs, and the summary of it.
-/

namespace LawProof

inductive Algorithm where
  /-- Candidates are tried one after another. -/
  | enumerative
  /-- The candidates of each length are shared out to workers. -/
  | parallel
deriving DecidableEq, Repr

namespace Algorithm

def text : Algorithm → String
  | .enumerative => "enumerative"
  | .parallel => "parallel"

/-- Reads an algorithm by name, in any case. -/
def read (name : String) : Except NameError Algorithm :=
  match String.ofList (Text.lower name.toList) with
  | "enumerative" | "enum" | "sequential" => .ok .enumerative
  | "parallel" | "par" => .ok .parallel
  | _ => .error (.algorithm name)

end Algorithm

/-- How many candidates were replayed, and how many of them had a step that did not apply. -/
structure Tally where
  evaluated : Nat := 0
  rejected : Nat := 0
deriving DecidableEq, Repr

structure Statistics where
  algorithm : Algorithm
  elapsed : Span := .zero
  tally : Tally := {}
  /-- The last length that was searched at least in part. -/
  lengths : Nat := 0
  /-- Chunks that a worker searched. -/
  dispatched : Nat := 0
  /-- Chunks that a worker put aside unsearched. -/
  skipped : Nat := 0
deriving DecidableEq, Repr

namespace Statistics

def new (algorithm : Algorithm) : Statistics := { algorithm }

/-- Adds the counts of another worker. -/
def merge (s other : Statistics) : Statistics :=
  { s with
    tally :=
      { evaluated := s.tally.evaluated + other.tally.evaluated
        rejected := s.tally.rejected + other.tally.rejected }
    lengths := max s.lengths other.lengths
    dispatched := s.dispatched + other.dispatched
    skipped := s.skipped + other.skipped }

/-- The share of candidates that were rejected. -/
def rejectionRate (s : Statistics) : Float :=
  if s.tally.evaluated = 0 then 0.0
  else s.tally.rejected.toUInt64.toFloat / s.tally.evaluated.toUInt64.toFloat

/-- Candidates per second. -/
def throughput (s : Statistics) : Float :=
  if s.elapsed = .zero then 0.0 else s.tally.evaluated.toUInt64.toFloat / s.elapsed.toSeconds

def summary (s : Statistics) : String :=
  "Algorithm: " ++ s.algorithm.text ++ "\n" ++
  "Time: " ++ s.elapsed.text ++ "\n" ++
  "Candidates evaluated: " ++ toString s.tally.evaluated ++ "\n" ++
  "Rejected early: " ++ Text.fixedFloat (s.rejectionRate * 100.0) 2 ++ "%\n" ++
  "Throughput: " ++ Text.fixedFloat s.throughput 0 ++ " candidates/sec\n" ++
  "Lengths searched: " ++ toString s.lengths ++ "\n" ++
  match s.algorithm with
  | .enumerative => ""
  | .parallel =>
    "Chunks dispatched: " ++ toString s.dispatched ++ "\n" ++
    "Chunks skipped: " ++ toString s.skipped ++ "\n"

end Statistics

end LawProof
