import LawProof.Proof.Step

/-!
# Candidates

The proofs that a search tries, numbered in the order in which it tries them. A candidate of length
`m` is read off its number digit by digit: the law and the position of the first step are the most
significant digits, the law of the last step the least. The last step is always at position 0, where
the whole formula starts, and is never a substitution, which cannot leave a constant.
-/

namespace LawProof

/-- How many laws there are for the last step. -/
def lastLaws : Nat := lawCount - 1

/-- Counts of candidates and of words are reported no higher than this. -/
def countCap : Nat := Nat.pow 2 128 - 1

namespace Candidate

/-- How many candidates of a length there are. -/
def count (positions : Nat) : Nat → Nat
  | 0 => 0
  | 1 => lastLaws
  | m + 2 => lawCount * positions * count positions (m + 1)

/-- The law that a digit stands for. -/
def lawAt (digit : Nat) : Law := (Law.ofIndex? digit).getD .identityOr

/-- The candidate of a length with a given number. -/
def nth (positions : Nat) : Nat → Nat → Proof
  | 0, _ => []
  | 1, n => [⟨lawAt n, 0⟩]
  | m + 2, n =>
    let block := count positions (m + 1)
    let first := n / block
    ⟨lawAt (first / positions), first % positions⟩ :: nth positions (m + 1) (n % block)

def cappedMul (a b : Nat) : Nat := min (a * b) countCap

/-- The number of candidates as it is reported. No product on the way to it exceeds the cap. -/
def reportedCount (positions : Nat) : Nat → Nat
  | 0 => 0
  | 1 => lastLaws
  | m + 2 => cappedMul (reportedCount positions (m + 1)) (cappedMul positions lawCount)

/-- How many values the most significant digit takes. -/
def chunkCount : Nat → Nat
  | 0 => 0
  | 1 => lastLaws
  | _ + 2 => lawCount

/-- How many candidates share one value of the most significant digit. -/
def chunkSize (positions : Nat) : Nat → Nat
  | 0 => 0
  | 1 => 1
  | m + 2 => positions * count positions (m + 1)

end Candidate

/-- A run of candidates of one length with consecutive numbers. -/
structure Candidates where
  length : Nat
  positions : Nat
  first : Nat
  size : Nat
deriving DecidableEq, Repr

namespace Candidates

/-- All candidates of a length whose positions are below `positions`. -/
def all (length positions : Nat) : Candidates :=
  ⟨length, positions, 0, Candidate.count positions length⟩

/-- Those whose most significant digit is `leading`. -/
def chunk (length positions leading : Nat) : Candidates :=
  let size :=
    if leading < Candidate.chunkCount length then Candidate.chunkSize positions length else 0
  ⟨length, positions, leading * size, size⟩

def get (c : Candidates) (i : Nat) : Proof := Candidate.nth c.positions c.length (c.first + i)

/-- Up to `take` candidates of the run, after the first `skip`. -/
def slice (c : Candidates) (skip take : Nat) : List Proof :=
  (List.range' skip (min take (c.size - skip))).map c.get

def toList (c : Candidates) : List Proof := c.slice 0 c.size

end Candidates

end LawProof
