import LawProof.Formula
import LawProof.Search.Statistics

/-!
# Search settings
-/

namespace LawProof

/-- The settings of a search. -/
structure Config where
  algorithm : Algorithm := .enumerative
  /-- The longest proof to look for. -/
  maxLength : Nat := 5
  /-- The slack of formulas that are read for the search. -/
  slack : Nat := Formula.defaultSlack
  /-- Steps are tried at positions below this; below the capacity of the formula if not set. -/
  positionLimit : Option Nat := none
  timeout : Option Span := none
  verbose : Bool := false
deriving DecidableEq, Repr

namespace Config

def positionsFor (c : Config) (f : Formula) : Nat := c.positionLimit.getD f.capacity

end Config

/-- The settings of a search by several workers. -/
structure PoolConfig where
  workers : Nat := 1
  /-- Takes the place of the search's own timeout if set. -/
  timeout : Option Span := none
deriving DecidableEq, Repr

namespace PoolConfig

/-- At least one worker is used, however few are asked for. -/
def withWorkers (c : PoolConfig) (workers : Nat) : PoolConfig :=
  { c with workers := max workers 1 }

/-- The workers that are worth having for so many chunks. -/
def workersFor (c : PoolConfig) (chunks : Nat) : Nat := max (min c.workers chunks) 1

end PoolConfig

/-- Tells whether the deadline has passed by the time so many candidates have been evaluated. -/
abbrev Deadline := Nat → Bool

namespace Deadline

def never : Deadline := fun _ => false

/-- The deadline by a clock that stands still: a timeout of zero has passed from the start, any
other never passes. -/
def still (timeout : Option Span) : Deadline := fun _ => timeout == some .zero

/-- The deadline that passes once a number of candidates have been evaluated. -/
def after (count : Nat) : Deadline := fun evaluated => decide (count ≤ evaluated)

end Deadline

end LawProof
