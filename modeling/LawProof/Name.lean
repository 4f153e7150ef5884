/-!
# Unknown names

Goals, algorithms and laws are given by name. These are the ways in which a name can be wrong.
-/

namespace LawProof

/-- How many laws there are. -/
def lawCount : Nat := 11

inductive NameError where
  | goal (name : String)
  | algorithm (name : String)
  | law (name : String)
  | lawIndex (index : Nat)
deriving DecidableEq, Repr

namespace NameError

def message : NameError → String
  | .goal name => s!"Unknown goal: '{name}'. Valid options: tautology, contradiction"
  | .algorithm name => s!"Unknown algorithm: '{name}'. Valid options: enumerative, parallel"
  | .law name => s!"Unknown law: '{name}'. Use an index 0..{lawCount} or a law name"
  | .lawIndex index => s!"Law index {index} is out of range 0..{lawCount}"

end NameError

end LawProof
