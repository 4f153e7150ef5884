import LawProof.Search.Result
import LawProof.Search.Scan

/-!
# Searching alone

Lengths are tried from 1 upward, and the candidates of each length in counting order. So the proof
that is found is the shortest, and the first of its length.
-/

namespace LawProof

namespace Sequential

/-- Searches `count` lengths from `length` on. -/
def searchFrom (expired : Deadline) (start : State) (goal : Goal) (positions : Nat) :
    Nat → Nat → Statistics → Outcome × Statistics
  | 0, _, s => (.notFound, s)
  | count + 1, length, s =>
    let (ending, tally) := Scan.run expired start goal (.all length positions) s.tally
    let s := { s with tally, lengths := length }
    match ending with
    | .found p => (.proved p, s)
    | .interrupted => (.timedOut, s)
    | .exhausted => searchFrom expired start goal positions count (length + 1) s

def search (expired : Deadline) (config : Config) (f : Formula) (goal : Goal) : SearchResult :=
  let (outcome, statistics) :=
    searchFrom expired (.ofFormula f) goal (config.positionsFor f) config.maxLength 1
      (.new .enumerative)
  ⟨f, goal, outcome, config.maxLength, statistics⟩

end Sequential

/-- The first proof of exactly the given length in counting order. -/
def searchFixedLength (f : Formula) (goal : Goal) (length positions : Nat) : Option Proof :=
  match (Scan.run .never (.ofFormula f) goal (.all length positions) {}).1 with
  | .found p => some p
  | _ => none

/-- The shortest proof of at most the given length. -/
def searchUpTo (f : Formula) (goal : Goal) (maxLength : Nat) : Outcome :=
  (Sequential.search .never { maxLength } f goal).outcome

end LawProof
