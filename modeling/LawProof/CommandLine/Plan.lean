import LawProof.Census
import LawProof.Clause
import LawProof.CommandLine.Request
import LawProof.Formula.Parser
import LawProof.Proof.Check

/-!
# Answering requests

A request comes down to some searches and to a response that is made from their results. The
searches are all that takes time, so whoever runs them decides by which clock.
-/

namespace LawProof.CommandLine

/-- What the program writes and how it exits. -/
structure Response where
  exit : Nat
  output : String
  /-- The line that says what went wrong. -/
  fault? : Option String
deriving DecidableEq, Repr

namespace Response

def done (output : String) : Response := ⟨0, output, none⟩

def failed (message : String) : Response := ⟨1, "", some ("Error: " ++ message)⟩

/-- The program comes to an end in the middle of its work. -/
def aborted : Response := ⟨134, "", none⟩

end Response

structure Plan where
  goal : Goal
  config : Config
  pool : PoolConfig
  /-- The formulas to search proofs of. -/
  formulas : List Formula
  /-- The response once they have been searched. -/
  finish : List SearchResult → Response

namespace Plan

/-- Nothing to search. -/
def ready (goal : Goal) (settings : Settings) (response : Response) : Plan :=
  ⟨goal, settings.config, settings.pool, [], fun _ => response⟩

/-- The response, with the results of a given search. -/
def run (plan : Plan) (search : Config → PoolConfig → Formula → Goal → SearchResult) : Response :=
  plan.finish (plan.formulas.map fun f => search plan.config plan.pool f plan.goal)

end Plan

def describe (f : Formula) : String := f.codes ++ " = " ++ f.text

def classifyText (f : Formula) (goal : Goal) : String :=
  match f.classify goal with
  | .neither witness =>
    describe f ++ " is neither a tautology nor a contradiction. Counterexample: " ++ witness.text ++
      "\n"
  | c => describe f ++ " is a " ++ c.text ++ ".\n"

def resultText (verbose : Bool) (r : SearchResult) : String :=
  if verbose then r.text ++ "\n" ++ r.statistics.summary else r.text

namespace Plan

/-- Proves a formula, unless an assignment shows that this cannot be done. -/
def prove (f : Formula) (goal : Goal) (settings : Settings) (heading : String) : Plan :=
  match f.classify goal with
  | .neither witness =>
    ready goal settings (.done (heading ++
      s!"{describe f} is not a {goal.text}. Counterexample: {witness.text}\n"))
  | c =>
    if c.fits goal then
      { goal
        config := settings.config
        pool := settings.pool
        formulas := [f]
        finish := fun rs =>
          .done (heading ++ String.join (rs.map (resultText settings.config.verbose))) }
    else
      ready goal settings (.done (heading ++
        s!"{describe f} is not a {goal.text}, it is a {c.text}.\n"))

def census (symbols : Nat) (goal : Goal) (settings : Settings) : Plan :=
  let config := settings.config
  match Enumeration.new symbols config.slack with
  | .error e => ready goal settings (.failed e.message)
  | .ok e =>
    let survey := Survey.take e goal
    { goal
      config
      pool := settings.pool
      formulas := survey.found.toList
      finish := fun rs =>
        .done (Census.report config symbols goal survey.valid
          (rs.map fun r => (r.formula, r.outcome))).text }

end Plan

def check (source proofText : String) (goal : Goal) (slack : Nat) : Response :=
  match Formula.parse source slack with
  | .error e => .failed e.message
  | .ok f =>
    match Proof.read proofText with
    | .error e => .failed e.message
    | .ok p =>
      match verifyListed f p goal with
      | none => .aborted
      | some (.error e) => .failed e.message
      | some (.ok t) =>
        .done (t.text ++
          s!"Valid proof of length {t.steps.length} that {f.text} is a {goal.text}.\n")

namespace Request

def plan (r : Request) : Plan :=
  let settings := r.settings
  let slack := settings.config.slack
  let goal := settings.goal?.getD .tautology
  match r.command with
  | .classify source =>
    .ready goal settings
      (match Formula.parse source Formula.defaultSlack with
        | .error e => .failed e.message
        | .ok f => .done (classifyText f goal))
  | .prove source =>
    match Formula.parse source slack with
    | .error e => .ready goal settings (.failed e.message)
    | .ok f => .prove f goal settings ""
  | .check source proofText => .ready goal settings (check source proofText goal slack)
  | .census symbols => .census symbols goal settings
  | .cnf source =>
    let goal := settings.goal?.getD .contradiction
    match Clause.readAll source with
    | .error e => .ready goal settings (.failed e.message)
    | .ok clauses =>
      match Formula.ofClauses clauses slack with
      | .error e => .ready goal settings (.failed e.message)
      | .ok f =>
        let heading := describe f ++ "\n"
        if settings.prove then .prove f goal settings heading
        else .ready goal settings (.done (heading ++ (f.classify goal).text ++ "\n"))

end Request

/-! ## Without a request -/

def versionText : String := "boolproof 0.1.0\n"

def usageText : String := "Usage: boolproof [OPTIONS] <COMMAND>"

def helpText : String :=
  usageText ++ "\n\n" ++
  "Commands:\n" ++
  "  classify <FORMULA>          Evaluate a formula under every assignment\n" ++
  "  prove <FORMULA>             Search for a shortest proof that a formula is constant\n" ++
  "  check <FORMULA> <PROOF>     Check a proof written as law@position steps\n" ++
  "  census <SYMBOLS>            Prove every formula of a given size and report on them\n" ++
  "  cnf <CLAUSES>               Convert clauses of three literals to a formula\n" ++
  "\n" ++
  "Options:\n" ++
  "      --goal <GOAL>           tautology or contradiction\n" ++
  "      --slack <N>             Room behind the formula\n" ++
  "  -m, --max-length <N>        Longest proof to look for\n" ++
  "      --algorithm <NAME>      enumerative or parallel\n" ++
  "  -j, --workers <N>           Number of workers of the parallel search\n" ++
  "      --timeout <SECONDS>     Time for each search\n" ++
  "      --position-limit <N>    Exclusive upper bound on step positions\n" ++
  "      --prove                 Search for a proof of the clauses\n" ++
  "  -v, --verbose               Print statistics\n" ++
  "  -h, --help                  Print help\n" ++
  "  -V, --version               Print version\n"

def Stop.response : Stop → Response
  | .usage => ⟨2, "", some usageText⟩
  | .help => .done helpText
  | .version => .done versionText

/-- The response to a command line by a clock that stands still. -/
def respond (args : List String) : Response :=
  match Request.read args with
  | .error e => e.response
  | .ok request => request.plan.run Search.runStill

end LawProof.CommandLine
