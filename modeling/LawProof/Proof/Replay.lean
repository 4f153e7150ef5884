import LawProof.Law.Work
import LawProof.Proof.Step

/-!
# Replaying proofs

A proof is replayed step by step from the formula it starts with. The replay ends at the first step
that does not apply or that leaves the goal's constant.
-/

namespace LawProof

inductive ReplayEnd where
  /-- The goal's constant stood there after this many steps. -/
  | proved (steps : Nat)
  /-- The step with this number, from 0, did not apply. -/
  | rejected (step : Nat)
  | unfinished
deriving DecidableEq, Repr

/-- What takes the steps of a proof: the state that a formula starts with, and a step, which tells
whether it applied and what it has left. -/
structure Engine where
  seed : Formula → State
  take : State → Step → Bool × State

/-- Runs the steps, the first of which has the number `i`; also gives the state at the end. -/
def Engine.replay (e : Engine) (goal : Goal) : Nat → State → Proof → ReplayEnd × State
  | _, s, [] => (.unfinished, s)
  | i, s, step :: rest =>
    match e.take s step with
    | (false, t) => (.rejected i, t)
    | (true, t) =>
      if t.formula.isGoal goal then (.proved (i + 1), t) else e.replay goal (i + 1) t rest

namespace State

def step? (s : State) (step : Step) : Option State := s.applyLaw? step.law step.position

def take (s : State) (step : Step) : Bool × State :=
  match s.step? step with
  | none => (false, s)
  | some t => (true, t)

end State

namespace Engine

/-- Each step is one edit, with counts that have no bound. -/
def exact : Engine := ⟨.ofFormula, State.take⟩

/-- Each step is worked in place, with counts in words. -/
def word : Engine where
  seed f := ⟨f, Bindings.ofBodyBy .word f.body⟩
  take s step := s.applyBy .word step.law step.position

end Engine

/-- Runs the steps, the first of which has the number `i`; also gives the state at the end. -/
def State.replay (goal : Goal) (i : Nat) (s : State) (p : Proof) : ReplayEnd × State :=
  Engine.exact.replay goal i s p

/-- How the replay of a proof of a formula ends. -/
def replay (f : Formula) (goal : Goal) (p : Proof) : ReplayEnd :=
  (State.replay goal 0 (.ofFormula f) p).1

/-- The proof, or a first part of it, leads to the goal's constant. -/
def isProof (f : Formula) (goal : Goal) (p : Proof) : Bool :=
  match replay f goal p with
  | .proved _ => true
  | _ => false

/-- The last step, and none before it, leaves the goal's constant. -/
def provesExactly (f : Formula) (goal : Goal) (p : Proof) : Bool :=
  replay f goal p == .proved p.length

/-- A proof attempt that can be taken step by step and started over. -/
structure Session where
  start : Formula
  goal : Goal
  state : State

namespace Session

def new (f : Formula) (goal : Goal) : Session := ⟨f, goal, Engine.word.seed f⟩

def reseed (s : Session) : Session := new s.start s.goal

def isFinished (s : Session) : Bool := s.state.formula.isGoal s.goal

/-- Takes one step if it applies. -/
def step (s : Session) (step : Step) : Bool × Session :=
  let (applied, state) := Engine.word.take s.state step
  (applied, { s with state })

/-- Starts over and replays a proof. -/
def replay (s : Session) (p : Proof) : ReplayEnd × Session :=
  let (ending, state) := Engine.word.replay s.goal 0 (Engine.word.seed s.start) p
  (ending, { s with state })

end Session

end LawProof
