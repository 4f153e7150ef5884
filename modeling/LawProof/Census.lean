import LawProof.Census.Enumeration
import LawProof.Census.Report
import LawProof.Classification
import LawProof.Search.Parallel

/-!
# The census of a size

Among all formulas of one size those that match the goal are kept, and a shortest proof of each is
looked for.
-/

namespace LawProof

/-- The formulas of one size: how many there are, and those that match the goal. -/
structure Survey where
  valid : Nat
  found : Array Formula

namespace Survey

def add (goal : Goal) (s : Survey) (f : Formula) : Survey where
  valid := s.valid + 1
  found := if (f.classify goal).fits goal then s.found.push f else s.found

/-- All formulas of the enumeration. -/
def take (e : Enumeration) (goal : Goal) : Survey := e.foldFrom (add goal) e.space 0 ⟨0, #[]⟩

end Survey

namespace Census

/-- How many positions the report has a bin for from the start. -/
def positions (config : Config) (symbols : Nat) : Nat :=
  let capacity := symbols + 1 + config.slack
  min (config.positionLimit.getD capacity) capacity

/-- The report on the formulas found, given the outcome of the search for each. -/
def report (config : Config) (symbols : Nat) (goal : Goal) (valid : Nat)
    (outcomes : List (Formula × Outcome)) : Report :=
  outcomes.foldl (fun r (f, outcome) => r.record f outcome)
    { Report.new symbols goal config.maxLength (positions config symbols) with valid }

/-- The census with the searches that are given. -/
def runWith (search : Formula → Outcome) (config : Config) (symbols : Nat) (goal : Goal) :
    Except CensusError Report :=
  match Enumeration.new symbols config.slack with
  | .error e => .error e
  | .ok e =>
    let survey := Survey.take e goal
    .ok (report config symbols goal survey.valid
      (survey.found.toList.map fun f => (f, search f)))

/-- The census by a clock that stands still. -/
def run (config : Config) (pool : PoolConfig) (symbols : Nat) (goal : Goal) :
    Except CensusError Report :=
  runWith (fun f => (Search.runStill config pool f goal).outcome) config symbols goal

end Census

end LawProof
