import LawProof.Search.Worker

/-!
# A pool of workers

The candidates of one length are split into chunks, one for each value of the most significant
digit, and workers take the chunks off a queue, lowest first. A coordinator receives what they
report; the messages of one worker arrive in the order in which they were sent.

A pool moves by events: a worker does the next thing on its own, the coordinator receives a message,
or it stops the search. Which event comes next is up to a schedule. The weight of a pool goes down
with every event, so every schedule comes to an end.
-/

namespace LawProof

structure Pool where
  /-- The chunks that no worker has taken yet. -/
  queue : List Nat
  shared : Pool.Shared
  workers : List Pool.Worker
  /-- What the coordinator has heard of each chunk. -/
  endings : List (Option Pool.ChunkEnd)
  /-- The counts of each worker, as far as reported. -/
  totals : List Statistics
  /-- How many workers have reported that they are finished. -/
  finished : Nat

namespace Pool

inductive Event where
  | work (worker : Nat)
  | receive (worker : Nat)
  | signal
deriving DecidableEq, Repr

def new (length chunks workers : Nat) (totals : List Statistics) : Pool where
  queue := List.range chunks
  shared := {}
  workers := List.replicate workers (.new length)
  endings := List.replicate chunks none
  totals := totals
  finished := 0

/-- Takes a message of a worker into account. -/
def accept (p : Pool) (worker : Nat) : Message → Pool
  | .chunkDone chunk ending => { p with endings := p.endings.set chunk (some ending) }
  | .finished statistics =>
    { p with
      totals := p.totals.modify worker (·.merge statistics)
      finished := p.finished + 1 }

/-- What an event does; `none` where it cannot happen. -/
def move (job : Job) (p : Pool) : Event → Option Pool
  | .work id =>
    match p.workers[id]? with
    | none => none
    | some w =>
      match w.move job p.queue p.shared with
      | none => none
      | some (queue, shared, w) => some { p with queue, shared, workers := p.workers.set id w }
  | .receive id =>
    match p.workers[id]? with
    | none => none
    | some w =>
      match w.outbox with
      | [] => none
      | m :: rest =>
        some ({ p with workers := p.workers.set id { w with outbox := rest } }.accept id m)
  | .signal => if p.shared.stopped then none else some { p with shared := p.shared.stop }

/-! ## Every schedule ends -/

def weight (job : Job) (p : Pool) : Nat :=
  sumOf (chunkWeight job) p.queue + sumOf (Worker.weight job) p.workers +
    if p.shared.stopped then 0 else 1

theorem weight_accept (job : Job) (p : Pool) (id : Nat) (m : Message) :
    (p.accept id m).weight job = p.weight job := by
  cases m <;> rfl

theorem move_weight_lt {job : Job} {p q : Pool} {e : Event} (h : p.move job e = some q) :
    q.weight job < p.weight job := by
  cases e with
  | work id =>
    simp only [move] at h
    split at h
    · simp at h
    · rename_i w hw
      split at h
      · simp at h
      · rename_i queue shared v hv
        have hlt := Worker.move_weight_lt hv
        have hstop := Worker.move_stopped hv
        have := sumOf_set (Worker.weight job) v hw
        simp only [Option.some.injEq] at h
        subst h
        simp only [weight, hstop]
        omega
  | receive id =>
    simp only [move] at h
    split at h
    · simp at h
    · rename_i w hw
      split at h
      · simp at h
      · rename_i m rest hm
        simp only [Option.some.injEq] at h
        subst h
        have := sumOf_set (Worker.weight job) { w with outbox := rest } hw
        simp only [Worker.weight, hm, List.length_cons] at this
        rw [weight_accept]
        simp only [weight]
        omega
  | signal =>
    simp only [move] at h
    split at h
    · simp at h
    · rename_i hs
      simp only [Option.some.injEq] at h
      subst h
      simp [weight, Shared.stop, hs]

/-! ## Running a pool -/

/-- How many candidates the workers have evaluated. -/
def evaluated (p : Pool) : Nat := sumOf (·.statistics.tally.evaluated) p.workers

/-- The schedule in which the search is stopped as soon as the deadline has passed, the first worker
that is not done does the work, and messages are received when all are done. Before this length,
`earlier` candidates were evaluated. -/
def next? (expired : Deadline) (earlier : Nat) (p : Pool) : Option Event :=
  if !p.shared.stopped && expired (earlier + p.evaluated) then some .signal
  else
    match p.workers.findIdx? (fun w => w.phase != .done) with
    | some id => some (.work id)
    | none => (p.workers.findIdx? fun w => !w.outbox.isEmpty).map .receive

/-- Runs a pool by a schedule until nothing is left to do. -/
def run (job : Job) (schedule : Pool → Option Event) (p : Pool) : Pool :=
  match schedule p with
  | none => p
  | some e =>
    match _h : p.move job e with
    | none => p
    | some q => run job schedule q
termination_by p.weight job
decreasing_by exact move_weight_lt _h

/-- The first chunk that was not exhausted decides: a proof found there is the first in counting
order, anything else means that the search was cut short. -/
def verdict : List (Option ChunkEnd) → ScanEnd
  | [] => .exhausted
  | some .exhausted :: rest => verdict rest
  | some (.found p) :: _ => .found p
  | _ :: _ => .interrupted

end Pool

end LawProof
