import LawProof.CommandLine.Plan

/-!
# The program
-/

namespace LawProof.CommandLine

/-- Searches at this moment: not inlined, so that the clock is read before and after it. -/
@[noinline]
def searchNow (expired : Deadline) (config : Config) (pool : PoolConfig) (goal : Goal)
    (f : Formula) : IO SearchResult :=
  pure (Search.run expired config pool f goal)

/-- Searches within more and more candidates until the search ends or its time is over. The number
grows at most twofold, and no further than what the rest of the time is enough for. -/
def searchWithin (limit start : Nat) (search : Deadline → IO SearchResult) :
    Nat → Nat → IO SearchResult
  | 0, count => search (.after count)
  | rounds + 1, count => do
    let before ← IO.monoNanosNow
    let r ← search (.after count)
    let now ← IO.monoNanosNow
    let rest := limit - (now - start)
    let more := min (2 * count + 1024) ((count + 1024) * rest / (now - before + 1))
    if r.outcome == .timedOut && count < more then searchWithin limit start search rounds more
    else return r

/-- Searches by the clock of the machine. -/
def searchTimed (config : Config) (pool : PoolConfig) (goal : Goal) (f : Formula) :
    IO SearchResult := do
  let search := fun expired => searchNow expired config pool goal f
  let start ← IO.monoNanosNow
  let r ← match Search.timeout? config pool with
    | none => search .never
    | some limit => searchWithin limit.nanos start search 64 0
  let now ← IO.monoNanosNow
  return { r with statistics := { r.statistics with elapsed := ⟨now - start⟩ } }

def answer (args : List String) : IO Response :=
  match Request.read args with
  | .error e => pure e.response
  | .ok request => do
    let plan := request.plan
    return plan.finish (← plan.formulas.mapM (searchTimed plan.config plan.pool plan.goal))

end LawProof.CommandLine

def main (args : List String) : IO UInt32 := do
  let r ← LawProof.CommandLine.answer args
  IO.print r.output
  match r.fault? with
  | none => pure ()
  | some line => IO.eprintln line
  return r.exit.toUInt32
