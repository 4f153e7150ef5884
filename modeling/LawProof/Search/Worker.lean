import LawProof.Search.Result
import LawProof.Search.Scan
import LawProof.Sum

/-!
# Workers

A worker takes chunks of candidates off a queue and scans them. Two marks are visible to all
workers: the lowest chunk that has produced a proof, above which no chunk is worth scanning, and
whether the search was stopped. A worker reads or writes only one of them at a time.
-/

namespace LawProof

namespace Pool

/-! ## The shared marks -/

/-- No chunk has this number. -/
def noChunk : Nat := Nat.pow 2 64 - 1

structure Shared where
  /-- The lowest chunk that has produced a proof. -/
  lowest : Nat := noChunk
  stopped : Bool := false
deriving DecidableEq, Repr

namespace Shared

/-- Notes a proof in a chunk, and tells whether the chunk is the lowest so far. -/
def record (s : Shared) (chunk : Nat) : Bool × Shared :=
  (decide (chunk < s.lowest), { s with lowest := min s.lowest chunk })

/-- A lower chunk has produced a proof. -/
def isSuperseded (s : Shared) (chunk : Nat) : Bool := decide (s.lowest < chunk)

def best? (s : Shared) : Option Nat := if s.lowest = noChunk then none else some s.lowest

def stop (s : Shared) : Shared := { s with stopped := true }

end Shared

/-! ## Workers -/

/-- What all workers of a pool work on. -/
structure Job where
  start : State
  goal : Goal
  length : Nat
  positions : Nat

namespace Job

def chunk (job : Job) (leading : Nat) : Candidates := .chunk job.length job.positions leading

end Job

/-- How a worker left a chunk. -/
inductive ChunkEnd where
  | found (p : Proof)
  | exhausted
  /-- A lower chunk had produced a proof. -/
  | abandoned
  /-- The search was stopped. -/
  | interrupted
deriving DecidableEq, Repr

inductive Message where
  | chunkDone (chunk : Nat) (ending : ChunkEnd)
  /-- The queue is empty; these are the worker's counts. -/
  | finished (statistics : Statistics)
deriving DecidableEq, Repr

/-- What a worker does next. -/
inductive Phase where
  /-- Take a chunk. -/
  | seeking
  /-- See whether the chunk is superseded before any of it is scanned. -/
  | taken (chunk : Nat)
  /-- See whether the search was stopped before any of it is scanned. -/
  | cleared (chunk : Nat)
  /-- Scan from the `i`-th candidate on. -/
  | scanning (chunk i : Nat)
  /-- Before the `i`-th candidate, see whether the search was stopped. -/
  | polling (chunk i : Nat)
  /-- Before the `i`-th candidate, see whether the chunk is superseded. -/
  | comparing (chunk i : Nat)
  /-- Note the proof. -/
  | proved (chunk : Nat) (p : Proof)
  /-- The scan was broken off; see what for. -/
  | broken (chunk : Nat)
  /-- Send word of the chunk. -/
  | reporting (chunk : Nat) (ending : ChunkEnd)
  | done
deriving DecidableEq, Repr

structure Worker where
  phase : Phase := .seeking
  statistics : Statistics
  /-- Messages sent and not yet received, oldest first. -/
  outbox : List Message := []
deriving DecidableEq, Repr

namespace Worker

def new (length : Nat) : Worker where
  statistics := { Statistics.new .parallel with lengths := length }

def skip (w : Worker) (chunk : Nat) (ending : ChunkEnd) : Worker :=
  { w with
    phase := .reporting chunk ending
    statistics := { w.statistics with skipped := w.statistics.skipped + 1 } }

/-- Scans from the `i`-th candidate of a chunk on, up to the next question whether to go on. -/
def scan (w : Worker) (job : Job) (chunk i : Nat) : Worker :=
  let (pause, tally) := Scan.advance job.start job.goal (job.chunk chunk) i w.statistics.tally
  { w with
    statistics := { w.statistics with tally }
    phase :=
      match pause with
      | .found p => .proved chunk p
      | .exhausted => .reporting chunk .exhausted
      | .before j => .polling chunk j }

/-- The next thing a worker does, with the queue and the marks before and after. -/
def move (w : Worker) (job : Job) (queue : List Nat) (shared : Shared) :
    Option (List Nat × Shared × Worker) :=
  match w.phase with
  | .seeking =>
    match queue with
    | [] =>
      some ([], shared, { w with phase := .done, outbox := w.outbox ++ [.finished w.statistics] })
    | chunk :: rest => some (rest, shared, { w with phase := .taken chunk })
  | .taken chunk =>
    if shared.isSuperseded chunk then some (queue, shared, w.skip chunk .abandoned)
    else some (queue, shared, { w with phase := .cleared chunk })
  | .cleared chunk =>
    if shared.stopped then some (queue, shared, w.skip chunk .interrupted)
    else
      some (queue, shared,
        { w with
          phase := .scanning chunk 0
          statistics := { w.statistics with dispatched := w.statistics.dispatched + 1 } })
  | .scanning chunk i => some (queue, shared, w.scan job chunk i)
  | .polling chunk i =>
    some (queue, shared,
      { w with phase := if shared.stopped then .broken chunk else .comparing chunk i })
  | .comparing chunk i =>
    some (queue, shared,
      { w with phase := if shared.isSuperseded chunk then .broken chunk else .scanning chunk i })
  | .proved chunk p =>
    some (queue, (shared.record chunk).2, { w with phase := .reporting chunk (.found p) })
  | .broken chunk =>
    let ending := if shared.isSuperseded chunk then .abandoned else .interrupted
    some (queue, shared, { w with phase := .reporting chunk ending })
  | .reporting chunk ending =>
    some (queue, shared,
      { w with phase := .seeking, outbox := w.outbox ++ [.chunkDone chunk ending] })
  | .done => none

end Worker

/-! ## What is still to be done -/

/-- An upper bound on what a chunk in the queue still takes. -/
def chunkWeight (job : Job) (chunk : Nat) : Nat := 7 + 3 * (job.chunk chunk).size

def Phase.weight (job : Job) : Phase → Nat
  | .seeking => 2
  | .taken chunk => 8 + 3 * (job.chunk chunk).size
  | .cleared chunk => 7 + 3 * (job.chunk chunk).size
  | .scanning chunk i => 6 + 3 * ((job.chunk chunk).size - i)
  | .polling chunk i => 8 + 3 * ((job.chunk chunk).size - i)
  | .comparing chunk i => 7 + 3 * ((job.chunk chunk).size - i)
  | .proved _ _ => 5
  | .broken _ => 5
  | .reporting _ _ => 4
  | .done => 0

namespace Worker

/-- An upper bound on what a worker still does, and on what it has sent. -/
def weight (job : Job) (w : Worker) : Nat := w.phase.weight job + w.outbox.length

theorem scan_weight_lt (w : Worker) (job : Job) (chunk i : Nat)
    (h : w.phase = .scanning chunk i) : (w.scan job chunk i).weight job < w.weight job := by
  simp only [weight, scan, h, Phase.weight]
  cases hp : Scan.advance job.start job.goal (job.chunk chunk) i w.statistics.tally with
  | mk pause tally =>
    cases pause with
    | found p => simp only; omega
    | exhausted => simp only; omega
    | before j =>
      have := Scan.advance_before (congrArg Prod.fst hp)
      simp only
      omega

/-- Whatever a worker does, less is left to do for it and the queue together. -/
theorem move_weight_lt {w v : Worker} {job : Job} {queue rest : List Nat} {shared marks : Shared}
    (h : w.move job queue shared = some (rest, marks, v)) :
    sumOf (chunkWeight job) rest + v.weight job <
      sumOf (chunkWeight job) queue + w.weight job := by
  cases hphase : w.phase with
  | seeking =>
    cases queue with
    | nil =>
      simp only [move, hphase, Option.some.injEq, Prod.mk.injEq] at h
      obtain ⟨rfl, -, rfl⟩ := h
      simp [weight, hphase, Phase.weight]
      omega
    | cons chunk queue =>
      simp only [move, hphase, Option.some.injEq, Prod.mk.injEq] at h
      obtain ⟨rfl, -, rfl⟩ := h
      simp [weight, hphase, Phase.weight, chunkWeight]
      omega
  | taken chunk | cleared chunk =>
    simp only [move, hphase] at h
    split at h
    all_goals
      simp only [Option.some.injEq, Prod.mk.injEq] at h
      obtain ⟨rfl, -, rfl⟩ := h
      simp [weight, hphase, Phase.weight, skip]
    all_goals omega
  | scanning chunk i =>
    simp only [move, hphase, Option.some.injEq, Prod.mk.injEq] at h
    obtain ⟨rfl, -, rfl⟩ := h
    exact Nat.add_lt_add_left (w.scan_weight_lt job _ _ hphase) _
  | polling chunk i | comparing chunk i =>
    simp only [move, hphase, Option.some.injEq, Prod.mk.injEq] at h
    obtain ⟨rfl, -, rfl⟩ := h
    simp only [weight, hphase]
    split
    all_goals
      simp [Phase.weight]
    all_goals omega
  | proved chunk p | broken chunk | reporting chunk ending =>
    simp only [move, hphase, Option.some.injEq, Prod.mk.injEq] at h
    obtain ⟨rfl, -, rfl⟩ := h
    simp [weight, hphase, Phase.weight]
    try omega
  | done => simp [move, hphase] at h

theorem move_stopped {w v : Worker} {job : Job} {queue rest : List Nat} {shared marks : Shared}
    (h : w.move job queue shared = some (rest, marks, v)) : marks.stopped = shared.stopped := by
  unfold move at h
  split at h
  all_goals
    try split at h
  all_goals
    simp only [Option.some.injEq, Prod.mk.injEq, reduceCtorEq] at h
  all_goals
    obtain ⟨-, rfl, -⟩ := h
    rfl

end Worker

end Pool

end LawProof
