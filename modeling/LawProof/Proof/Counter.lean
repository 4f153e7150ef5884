import LawProof.Proof.Candidate

/-!
# Counters

A counter gives the candidates of a length one after another without their numbers: it turns the
wheels of an odometer. The least significant wheel is the law of the last step. Above it come, for
each earlier step from the last but one to the first, its position and then its law. A counter of
one chunk holds the most significant digit and turns the wheels below it.
-/

namespace LawProof

/-- A digit and how many values it takes. -/
structure Wheel where
  digit : Nat
  size : Nat
deriving DecidableEq, Repr

/-- Turns the first wheel by one. A wheel that comes round to zero turns the next; if all of them
come round, there is nothing more to count. -/
def Wheel.turn : List Wheel → Option (List Wheel)
  | [] => none
  | w :: ws =>
    if w.digit + 1 < w.size then some (⟨w.digit + 1, w.size⟩ :: ws)
    else (turn ws).map (⟨0, w.size⟩ :: ·)

structure Counter where
  /-- The wheels that turn, the least significant first. -/
  free : List Wheel
  /-- The digits above them. -/
  held : List Nat
  started : Bool
  done : Bool
deriving DecidableEq, Repr

namespace Counter

/-- The sizes of the wheels for a length. -/
def sizes (positions : Nat) : Nat → List Nat
  | 0 => []
  | 1 => [lastLaws]
  | m + 2 => sizes positions (m + 1) ++ [positions, lawCount]

/-- Over all candidates of a length. -/
def new (length positions : Nat) : Counter where
  free := (sizes positions length).map fun size => ⟨0, size⟩
  held := []
  started := false
  done := (sizes positions length).isEmpty || (sizes positions length).contains 0

/-- Over the candidates whose most significant digit is `leading`. -/
def chunk (length positions leading : Nat) : Counter :=
  let whole := new length positions
  if whole.done then whole
  else
    match whole.free.getLast? with
    | none => whole
    | some top =>
      if leading < top.size then { whole with free := whole.free.dropLast, held := [leading] }
      else { whole with done := true }

/-- Puts the steps of the digits, position and law by turns, before those that come later. -/
def stepsBefore : List Nat → Proof → Proof
  | position :: law :: digits, later =>
    stepsBefore digits (⟨Candidate.lawAt law, position⟩ :: later)
  | _, later => later

/-- The candidate that the digits show, the least significant first. -/
def ofDigits : List Nat → Proof
  | [] => []
  | law :: digits => stepsBefore digits [⟨Candidate.lawAt law, 0⟩]

def current (c : Counter) : Proof := ofDigits (c.free.map Wheel.digit ++ c.held)

def advance (c : Counter) : Counter :=
  if c.done then c
  else
    match Wheel.turn c.free with
    | some wheels => { c with free := wheels }
    | none => { c with done := true }

/-- The next candidate, if there is one. The first is the one that a new counter shows. -/
def next (c : Counter) : Option Proof × Counter :=
  let c := if c.started then c.advance else { c with started := true }
  (if c.done then none else some c.current, c)

end Counter

end LawProof
