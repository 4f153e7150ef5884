import LawProof.Proof.Candidate
import LawProof.Proof.Replay
import LawProof.Search.Config

/-!
# Scanning candidates

Candidates are replayed in the order of their numbers until one proves the goal with its last step.
Whether to go on is asked before the 1024th candidate of a run and after every 1024 more.
-/

namespace LawProof

namespace Scan

/-- Replays `count` candidates of a run from the `i`-th on, up to the first that is a proof. -/
def sweep (start : State) (goal : Goal) (c : Candidates) : Nat → Nat → Tally → Option Proof × Tally
  | 0, _, t => (none, t)
  | count + 1, i, t =>
    let p := c.get i
    let t := { t with evaluated := t.evaluated + 1 }
    match (State.replay goal 0 start p).1 with
    | .proved n => if n = p.length then (some p, t) else sweep start goal c count (i + 1) t
    | .rejected _ => sweep start goal c count (i + 1) { t with rejected := t.rejected + 1 }
    | .unfinished => sweep start goal c count (i + 1) t

/-- How many candidates are replayed from the `i`-th on before the question whether to go on. -/
def quota (i : Nat) : Nat := if i = 0 then 1023 else 1024

/-- How far one sweep came. -/
inductive Pause where
  | found (p : Proof)
  | exhausted
  /-- Before the `i`-th candidate it must be asked whether to go on. -/
  | before (i : Nat)
deriving DecidableEq, Repr

/-- Replays the candidates from the `i`-th on, up to the next question. -/
def advance (start : State) (goal : Goal) (c : Candidates) (i : Nat) (t : Tally) : Pause × Tally :=
  match sweep start goal c (min (quota i) (c.size - i)) i t with
  | (some p, t) => (.found p, t)
  | (none, t) => if i + quota i < c.size then (.before (i + quota i), t) else (.exhausted, t)

theorem advance_before {start : State} {goal : Goal} {c : Candidates} {i j : Nat} {t : Tally}
    (h : (advance start goal c i t).1 = .before j) : i < j ∧ j < c.size := by
  unfold advance at h
  split at h
  · simp at h
  · split at h
    · simp only [Pause.before.injEq] at h
      have : 0 < quota i := by unfold quota; split <;> omega
      omega
    · simp at h

end Scan

inductive ScanEnd where
  | found (p : Proof)
  | exhausted
  | interrupted
deriving DecidableEq, Repr

namespace Scan

/-- Goes through a run from the `i`-th candidate on, unless the deadline passes. -/
def runFrom (expired : Deadline) (start : State) (goal : Goal) (c : Candidates) (i : Nat)
    (t : Tally) : ScanEnd × Tally :=
  match _h : advance start goal c i t with
  | (.found p, t) => (.found p, t)
  | (.exhausted, t) => (.exhausted, t)
  | (.before j, t) =>
    if expired t.evaluated then (.interrupted, t) else runFrom expired start goal c j t
termination_by c.size - i
decreasing_by
  have := advance_before (congrArg Prod.fst _h)
  omega

/-- Goes through a whole run. -/
def run (expired : Deadline) (start : State) (goal : Goal) (c : Candidates) (t : Tally) :
    ScanEnd × Tally :=
  runFrom expired start goal c 0 t

end Scan

end LawProof
