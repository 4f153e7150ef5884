import LawProof.Search.Pool
import LawProof.Search.Sequential

/-!
# Searching with a pool

Each length is searched by a pool of its own, and the counts of the workers add up over the lengths.
-/

namespace LawProof

namespace Pool

/-- The outcome of a search by a pool, with the counts of each worker. -/
structure Report where
  outcome : Outcome
  /-- The last length that was searched at least in part. -/
  lengths : Nat
  workers : List Statistics

def evaluatedIn (totals : List Statistics) : Nat := sumOf (·.tally.evaluated) totals

/-- Searches `count` lengths after `length`. -/
def searchAfter (expired : Deadline) (start : State) (goal : Goal) (positions : Nat)
    (config : PoolConfig) : Nat → Nat → List Statistics → Report
  | 0, length, totals => ⟨.notFound, length, totals⟩
  | count + 1, length, totals =>
    let length := length + 1
    let chunks := Candidate.chunkCount length
    let pool := new length chunks (config.workersFor chunks) totals
    let pool := pool.run ⟨start, goal, length, positions⟩ (next? expired (evaluatedIn totals))
    match verdict pool.endings with
    | .found p => ⟨.proved p, length, pool.totals⟩
    | .interrupted => ⟨.timedOut, length, pool.totals⟩
    | .exhausted => searchAfter expired start goal positions config count length pool.totals

def report (expired : Deadline) (config : Config) (pool : PoolConfig) (f : Formula) (goal : Goal) :
    Report :=
  searchAfter expired (.ofFormula f) goal (config.positionsFor f) pool config.maxLength 0
    (List.replicate (max pool.workers 1) (.new .parallel))

namespace Report

/-- The counts of all workers together. -/
def total (r : Report) : Statistics :=
  { r.workers.foldl Statistics.merge (.new .parallel) with lengths := r.lengths }

end Report

def search (expired : Deadline) (config : Config) (pool : PoolConfig) (f : Formula) (goal : Goal) :
    SearchResult :=
  let r := report expired config pool f goal
  ⟨f, goal, r.outcome, config.maxLength, r.total⟩

end Pool

namespace Search

/-- The timeout that holds for a search: that of the pool comes before that of the search. -/
def timeout? (config : Config) (pool : PoolConfig) : Option Span :=
  match config.algorithm with
  | .enumerative => config.timeout
  | .parallel => pool.timeout.or config.timeout

/-- Searches with the algorithm that the settings name. -/
def run (expired : Deadline) (config : Config) (pool : PoolConfig) (f : Formula) (goal : Goal) :
    SearchResult :=
  match config.algorithm with
  | .enumerative => Sequential.search expired config f goal
  | .parallel => Pool.search expired config pool f goal

/-- Searches by a clock that stands still. -/
def runStill (config : Config) (pool : PoolConfig) (f : Formula) (goal : Goal) : SearchResult :=
  run (.still (timeout? config pool)) config pool f goal

end Search

end LawProof
