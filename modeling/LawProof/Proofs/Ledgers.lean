import LawProof.Proofs.Agreement
import LawProof.Proofs.Tallies

/-!
# What workers count under every schedule

Every chunk is either searched or put aside by the worker that takes it. What the workers count and
what is left of the chunks in the queue and in their hands make up a balance. It only goes down
when a chunk is dropped and only goes up when one is scanned that is not due: one that comes after
a chunk with a proof.
-/

namespace LawProof

namespace Pool

/-! ## One move of a worker -/

/-- The counts of a worker that has gone from one phase to another. -/
def Phase.book (job : Job) (p q : Phase) (s : Statistics) : Statistics :=
  match p, q with
  | .taken _, .reporting _ _ | .cleared _, .reporting _ _ => { s with skipped := s.skipped + 1 }
  | .cleared _, .scanning _ _ => { s with dispatched := s.dispatched + 1 }
  | .scanning chunk i, _ =>
    { s with tally := (Scan.advance job.start job.goal (job.chunk chunk) i s.tally).2 }
  | _, _ => s

/-- A move of a worker, with what it counts. -/
structure Worker.Turn (job : Job) (shared : Shared) (w v : Worker) (queue rest : List Nat)
    (marks : Shared) : Prop where
  moves : w.Moves job shared v queue rest marks
  statistics : v.statistics = w.phase.book job v.phase w.statistics

theorem Worker.move_statistics {w v : Worker} {job : Job} {queue rest : List Nat}
    {shared marks : Shared} (h : w.move job queue shared = some (rest, marks, v)) :
    v.statistics = w.phase.book job v.phase w.statistics := by
  unfold move at h
  split at h
  all_goals
    rename_i hphase
    try split at h
  all_goals
    simp only [Option.some.injEq, Prod.mk.injEq, reduceCtorEq] at h
  all_goals
    obtain ⟨-, -, rfl⟩ := h
    rw [hphase]
    rfl

/-- What an event does to a pool. -/
inductive Steps (job : Job) (p q : Pool) (e : Event) : Prop where
  | work {id : Nat} {w v : Worker} : p.workers[id]? = some w →
      w.Turn job p.shared v p.queue q.queue q.shared → q.workers = p.workers.set id v →
      q.totals = p.totals → Steps job p q e
  | receive {id : Nat} {w : Worker} {m : Message} {rest : List Message} :
      p.workers[id]? = some w → w.outbox = m :: rest → q.queue = p.queue → q.shared = p.shared →
      q.workers = p.workers.set id { w with outbox := rest } →
      q.totals = (accept p id m).totals → Steps job p q e
  | signal : e = .signal → q.queue = p.queue → q.workers = p.workers → q.totals = p.totals →
      Steps job p q e

theorem steps_of_move {job : Job} {p q : Pool} {e : Event} (h : p.move job e = some q) :
    Steps job p q e := by
  cases e with
  | work id =>
    simp only [move] at h
    split at h
    · simp at h
    · rename_i w hw
      split at h
      · simp at h
      · rename_i queue shared v hv
        rw [Option.some.injEq] at h
        subst h
        exact .work hw ⟨Worker.move_eq_some hv, Worker.move_statistics hv⟩ rfl rfl
  | receive id =>
    obtain ⟨w, m, rest, hw, hout, rfl⟩ := move_receive h
    cases m <;> exact .receive hw hout rfl rfl rfl rfl
  | signal =>
    obtain rfl := move_signal h
    exact .signal rfl rfl rfl rfl

/-! ## Balances -/

section

variable {job : Job} {timed : Bool} {p q : Pool}

theorem forall_workers_of_reaches {P : Worker → Prop} (h : ∀ w ∈ p.workers, P w)
    (hturn : ∀ {shared marks : Shared} {w v : Worker} {queue rest : List Nat},
      w.Turn job shared v queue rest marks → P w → P v)
    (hreceive : ∀ {w : Worker} {m : Message} {rest : List Message},
      w.outbox = m :: rest → P w → P { w with outbox := rest })
    (hr : Reaches job timed p q) : ∀ w ∈ q.workers, P w := by
  induction hr with
  | refl => exact h
  | step _ _ hm ih =>
    cases steps_of_move hm with
    | work hw ht hworkers _ =>
      intro u hu
      rw [hworkers] at hu
      rcases List.mem_or_eq_of_mem_set hu with hu | rfl
      · exact ih u hu
      · exact hturn ht (ih _ (List.mem_of_getElem? hw))
    | receive hw hout _ _ hworkers _ =>
      intro u hu
      rw [hworkers] at hu
      rcases List.mem_or_eq_of_mem_set hu with hu | rfl
      · exact ih u hu
      · exact hreceive hout (ih _ (List.mem_of_getElem? hw))
    | signal _ _ hworkers _ => rwa [hworkers]

/-- What the chunks in the queue and the workers measure together. -/
def balance (g : Nat → Nat) (f : Worker → Nat) (p : Pool) : Nat :=
  sumOf g p.queue + sumOf f p.workers

variable {g : Nat → Nat} {f : Worker → Nat}

theorem balance_of_move (hf : ∀ w rest, f { w with outbox := rest } = f w) {e : Event}
    (hm : p.move job e = some q) :
    q.balance g f = p.balance g f ∨ ∃ w ∈ p.workers, ∃ v,
      w.Turn job p.shared v p.queue q.queue q.shared ∧
      q.balance g f + (sumOf g p.queue + f w) = p.balance g f + (sumOf g q.queue + f v) := by
  unfold balance
  cases steps_of_move hm with
  | @work id w v hw ht hworkers _ =>
    right
    refine ⟨w, List.mem_of_getElem? hw, v, ht, ?_⟩
    have := sumOf_set f v hw
    rw [hworkers]
    omega
  | @receive id w m rest hw hout hqueue _ hworkers _ =>
    left
    have := sumOf_set f { w with outbox := rest } hw
    have := hf w rest
    rw [hworkers, hqueue]
    omega
  | signal _ hqueue hworkers _ =>
    left
    rw [hworkers, hqueue]

theorem balance_le_of_reaches (hf : ∀ w rest, f { w with outbox := rest } = f w)
    (hturn : ∀ q, Reaches job timed p q → ∀ w ∈ q.workers, ∀ v rest marks,
      w.Turn job q.shared v q.queue rest marks → sumOf g rest + f v ≤ sumOf g q.queue + f w)
    (hr : Reaches job timed p q) : q.balance g f ≤ p.balance g f := by
  induction hr with
  | refl => exact Nat.le_refl _
  | @step q r e hr _ hm ih =>
    rcases balance_of_move (g := g) hf hm with heq | ⟨w, hw, v, ht, hsum⟩
    · omega
    · have := hturn q hr w hw v _ _ ht
      omega

theorem le_balance_of_reaches (hf : ∀ w rest, f { w with outbox := rest } = f w)
    (hturn : ∀ q, Reaches job timed p q → ∀ w ∈ q.workers, ∀ v rest marks,
      w.Turn job q.shared v q.queue rest marks → sumOf g q.queue + f w ≤ sumOf g rest + f v)
    (hr : Reaches job timed p q) : p.balance g f ≤ q.balance g f := by
  induction hr with
  | refl => exact Nat.le_refl _
  | @step q r e hr _ hm ih =>
    rcases balance_of_move (g := g) hf hm with heq | ⟨w, hw, v, ht, hsum⟩
    · omega
    · have := hturn q hr w hw v _ _ ht
      omega

end

section

variable {job : Job} {timed : Bool} {config : PoolConfig} {totals : List Statistics} {p : Pool}
  {g : Nat → Nat} {f : Worker → Nat}

theorem balance_ofJob (config : PoolConfig) (totals : List Statistics)
    (hf : f (.new job.length) = 0) :
    (ofJob job config totals).balance g f =
      sumOf g (List.range (Candidate.chunkCount job.length)) := by
  show sumOf g (List.range _) + sumOf f (List.replicate _ _) = _
  rw [sumOf_replicate, hf]
  rfl

theorem Ends.isWhole (h : Ends job timed config totals p) :
    p.IsWhole (Candidate.chunkCount job.length) :=
  (isWhole_ofJob job config totals).reaches h.1

theorem Ends.idle (h : Ends job timed config totals p) :
    ∀ w ∈ p.workers, w.phase = .done ∧ w.outbox = [] :=
  h.isWhole.complete_iff.mp h.2

theorem Ends.balance_eq (h : Ends job timed config totals p) :
    p.balance g f = sumOf f p.workers := by
  obtain ⟨w, hw⟩ := List.exists_mem_of_length_pos h.isWhole.manned
  unfold balance
  rw [h.isWhole.emptied w hw (h.idle w hw).1, sumOf_nil, Nat.zero_add]

end

/-- What the workers of a pool have counted. -/
def reports (p : Pool) : List Statistics := p.workers.map (·.statistics)

/-! ## Chunks that are searched or put aside -/

/-- How many chunks a worker has of which it is not yet decided whether they are searched. -/
def Phase.undecided : Phase → Nat
  | .taken _ | .cleared _ => 1
  | _ => 0

def Worker.handled (w : Worker) : Nat :=
  w.statistics.dispatched + w.statistics.skipped + w.phase.undecided

section

variable {job : Job} {shared marks : Shared} {chunk : Nat} {p q : Phase} {w v : Worker}
  {queue rest : List Nat}

theorem Phase.Advances.handled (h : p.Advances job shared chunk marks q) (s : Statistics) :
    (p.book job q s).dispatched + (p.book job q s).skipped + q.undecided =
      s.dispatched + s.skipped + p.undecided := by
  cases h <;> simp only [Phase.book, Phase.undecided] <;> omega

theorem Worker.Turn.handled (h : w.Turn job shared v queue rest marks) :
    sumOf (fun _ => 1) rest + v.handled = sumOf (fun _ => 1) queue + w.handled := by
  obtain ⟨hmoves, hs⟩ := h
  unfold Worker.handled
  rw [hs]
  cases hmoves with
  | finish hp hv _ =>
    rw [hp, hv]
    rfl
  | take hp hv _ =>
    rw [hp, hv]
    simp only [Phase.book, Phase.undecided, sumOf_cons]
    omega
  | work hp ha _ =>
    rw [hp]
    have := ha.handled w.statistics
    omega
  | report hp hv _ =>
    rw [hp, hv]
    rfl

end

/-- Whatever the interleaving, each chunk is searched or put aside once. -/
theorem Ends.handled {job : Job} {timed : Bool} {config : PoolConfig} {totals : List Statistics}
    {p : Pool} (h : Ends job timed config totals p) :
    sumOf (fun s => s.dispatched + s.skipped) p.reports = Candidate.chunkCount job.length := by
  have hf : ∀ (w : Worker) rest, ({ w with outbox := rest } : Worker).handled = w.handled :=
    fun _ _ => rfl
  have hle := balance_le_of_reaches hf
    (fun q _ w _ v rest marks ht => Nat.le_of_eq ht.handled) h.1
  have hge := le_balance_of_reaches hf
    (fun q _ w _ v rest marks ht => Nat.le_of_eq ht.handled.symm) h.1
  have heq := Nat.le_antisymm hle hge
  rw [h.balance_eq, balance_ofJob _ _ rfl] at heq
  have hdone : sumOf (fun s => s.dispatched + s.skipped) p.reports =
      sumOf Worker.handled p.workers := by
    unfold reports
    rw [sumOf_map]
    apply sumOf_congr
    intro w hw
    unfold Worker.handled
    rw [(h.idle w hw).1]
    rfl
  rw [hdone, heq, sumOf_one, List.length_range]

/-! ## Candidates that are counted -/

/-- No earlier chunk has a proof, so a search alone would come to this one. -/
def Job.isDue (job : Job) (chunk : Nat) : Bool := ((List.range chunk).findSome? job.first?).isNone

theorem Job.isDue_iff {job : Job} {chunk : Nat} :
    job.isDue chunk = true ↔ ∀ lower, lower < chunk → job.first? lower = none := by
  unfold isDue
  rw [Option.isNone_iff_eq_none, List.findSome?_eq_none_iff]
  simp only [List.mem_range]

/-- What the chunk adds to a count of a search alone. -/
def Job.share (job : Job) (k : Count) (chunk : Nat) : Nat :=
  if job.isDue chunk then k.due job.start job.goal (job.chunk chunk).toList else 0

theorem Job.due_all (job : Job) (k : Count) :
    k.due job.start job.goal (Candidates.all job.length job.positions).toList =
      sumOf (job.share k) (List.range (Candidate.chunkCount job.length)) := by
  rw [Candidates.toList_all]
  induction Candidate.chunkCount job.length with
  | zero => rfl
  | succ n ih =>
    rw [List.range_succ, List.flatMap_append, Count.due_append, ih, sumOf_append,
      List.find?_flatMap]
    simp only [List.flatMap_singleton, sumOf_cons, sumOf_nil, Nat.add_zero]
    rfl

/-- What is left of the chunk that a worker has in its hands. -/
def Phase.left (job : Job) (k : Count) : Phase → Nat
  | .taken chunk | .cleared chunk => k.left job.start job.goal (job.chunk chunk) 0
  | .scanning chunk i | .polling chunk i | .comparing chunk i =>
    k.left job.start job.goal (job.chunk chunk) i
  | _ => 0

/-- The same, as far as a search alone would have come to it. -/
def Phase.share (job : Job) (k : Count) (p : Phase) : Nat :=
  match p.chunk? with
  | some chunk => if job.isDue chunk then p.left job k else 0
  | none => 0

/-- What the worker has counted, and what is to come of the chunk in its hands. -/
def Worker.share (job : Job) (k : Count) (w : Worker) : Nat :=
  w.statistics.tally.get k + w.phase.share job k

section

variable {job : Job} {shared marks : Shared} {chunk : Nat} {p q : Phase} {w v : Worker}
  {queue rest : List Nat}

theorem Phase.Advances.spends (h : p.Advances job shared chunk marks q) (k : Count)
    (s : Statistics) :
    (p.book job q s).tally.get k + q.left job k = s.tally.get k + p.left job k ∨
      (p.book job q s).tally = s.tally ∧ q.left job k = 0 ∧
        (shared.stopped = true ∨ shared.isSuperseded chunk = true) := by
  cases h with
  | abandon hs | yield hs => exact Or.inr ⟨rfl, rfl, Or.inr hs⟩
  | skip hs | obey hs => exact Or.inr ⟨rfl, rfl, Or.inl hs⟩
  | @find i t _ ha | @exhaust i t ha | @pause i _ t ha =>
    left
    have := Scan.advance_get job.start job.goal (job.chunk chunk) k i s.tally
    rw [Scan.advance_fst _ _ _ i s.tally t, ha] at this
    exact this
  | _ => exact Or.inl rfl

theorem Phase.Advances.tally_eq (h : p.Advances job shared chunk marks q) (s : Statistics)
    (hp : ∀ i, p ≠ .scanning chunk i) : (p.book job q s).tally = s.tally := by
  cases h with
  | @find i | @exhaust i | @pause i => exact absurd rfl (hp i)
  | _ => rfl

theorem Phase.Advances.le_tally (h : p.Advances job shared chunk marks q) (k : Count)
    (s : Statistics) : s.tally.get k ≤ (p.book job q s).tally.get k := by
  by_cases hp : ∃ i, p = .scanning chunk i
  · obtain ⟨i, rfl⟩ := hp
    show _ ≤ (Scan.advance job.start job.goal (job.chunk chunk) i s.tally).2.get k
    rw [Scan.advance_snd, Scan.sweep_get]
    exact Nat.le_add_right _ _
  · have hsame := h.tally_eq s fun i hi => hp ⟨i, hi⟩
    exact Nat.le_of_eq (congrArg (·.get k) hsame.symm)

theorem Phase.Advances.lt_noChunk (h : p.Advances job shared chunk marks q)
    (hp : p.IsTrue job shared) : chunk < noChunk := by
  cases h with
  | abandon | clear | skip | enter => exact hp
  | _ => exact hp.1

theorem Worker.Turn.share_eq_or (h : w.Turn job shared v queue rest marks) (k : Count) :
    sumOf (job.share k) rest + v.share job k = sumOf (job.share k) queue + w.share job k ∨
      rest = queue ∧ ∃ chunk, w.phase.Advances job shared chunk marks v.phase := by
  obtain ⟨hmoves, hs⟩ := h
  unfold Worker.share
  rw [hs]
  cases hmoves with
  | finish hp hv _ | report hp hv _ =>
    left
    simp [hp, hv, Phase.book, Phase.share, Phase.chunk?, Phase.left]
  | take hp hv _ =>
    left
    simp only [hp, hv, Phase.book, Phase.share, Phase.chunk?, Phase.left, sumOf_cons, Job.share,
      Count.left_zero]
    omega
  | work hp ha _ =>
    rw [← hp] at ha
    exact Or.inr ⟨rfl, _, ha⟩

theorem Worker.Turn.share_le (h : w.Turn job shared v queue rest marks) (k : Count)
    (hdue : ∀ chunk i, w.phase = .scanning chunk i → job.isDue chunk = true) :
    sumOf (job.share k) rest + v.share job k ≤ sumOf (job.share k) queue + w.share job k := by
  rcases h.share_eq_or k with heq | ⟨rfl, chunk, ha⟩
  · exact Nat.le_of_eq heq
  · unfold Worker.share
    rw [h.statistics]
    simp only [Phase.share, ha.chunk?_eq]
    split
    · rcases ha.spends k w.statistics with heq | ⟨htally, hleft, -⟩
      · omega
      · rw [htally, hleft]
        omega
    · rename_i hlate
      have hsame := ha.tally_eq w.statistics fun i hi => hlate (hdue chunk i hi)
      exact Nat.le_of_eq (by rw [hsame])

theorem Worker.Turn.le_share (h : w.Turn job shared v queue rest marks) (k : Count)
    (hshared : shared.IsTrue job) (hstop : shared.stopped = false) (hw : w.IsTrue job shared) :
    sumOf (job.share k) queue + w.share job k ≤ sumOf (job.share k) rest + v.share job k := by
  rcases h.share_eq_or k with heq | ⟨rfl, chunk, ha⟩
  · exact Nat.le_of_eq heq.symm
  · unfold Worker.share
    rw [h.statistics]
    simp only [Phase.share, ha.chunk?_eq]
    split
    · rename_i hdue
      rcases ha.spends k w.statistics with heq | ⟨-, -, hstopped | hlow⟩
      · omega
      · rw [hstop] at hstopped
        simp at hstopped
      · -- A chunk that is superseded comes after one with a proof, so it is not due.
        obtain ⟨lower, r, hlt, hr⟩ :=
          hshared.abandoned (ha.lt_noChunk hw.phase) (Shared.isSuperseded_iff.mp hlow)
        rw [Job.isDue_iff.mp hdue lower hlt] at hr
        simp at hr
    · exact Nat.add_le_add_left (ha.le_tally k w.statistics) _

end

section

variable {job : Job} {config : PoolConfig} {totals : List Statistics} {p : Pool} (k : Count)

theorem Ends.sumOf_share {timed : Bool} (h : Ends job timed config totals p) :
    sumOf (Worker.share job k) p.workers = sumOf (·.tally.get k) p.reports := by
  unfold reports
  rw [sumOf_map]
  apply sumOf_congr
  intro w hw
  unfold Worker.share
  rw [(h.idle w hw).1]
  rfl

theorem balance_share_ofJob (job : Job) (config : PoolConfig) (totals : List Statistics) :
    (ofJob job config totals).balance (job.share k) (Worker.share job k) =
      k.due job.start job.goal (Candidates.all job.length job.positions).toList := by
  rw [balance_ofJob, Job.due_all]
  cases k <;> rfl

theorem stopped_eq_false (hr : Reaches job false (ofJob job config totals) p) :
    p.shared.stopped = false := by
  cases hs : p.shared.stopped with
  | false => rfl
  | true =>
    have := ((isTrue_ofJob job false config totals).reaches hr).stopped hs
    simp at this

theorem Ends.due_le (h : Ends job false config totals p) :
    k.due job.start job.goal (Candidates.all job.length job.positions).toList ≤
      sumOf (·.tally.get k) p.reports := by
  rw [← h.sumOf_share, ← h.balance_eq, ← balance_share_ofJob k job config totals]
  apply le_balance_of_reaches (fun _ _ => rfl) _ h.1
  intro q hr w hw v rest marks ht
  have htrue := (isTrue_ofJob job false config totals).reaches hr
  exact ht.le_share k htrue.marks (stopped_eq_false hr) (htrue.workers w hw)

theorem Ends.le_due {timed : Bool} (h : Ends job timed config totals p)
    (hdue : ∀ q, Reaches job timed (ofJob job config totals) q → ∀ w ∈ q.workers, ∀ chunk i,
      w.phase = .scanning chunk i → job.isDue chunk = true) :
    sumOf (·.tally.get k) p.reports ≤
      k.due job.start job.goal (Candidates.all job.length job.positions).toList := by
  rw [← h.sumOf_share, ← h.balance_eq, ← balance_share_ofJob k job config totals]
  apply balance_le_of_reaches (fun _ _ => rfl) _ h.1
  intro q hr w hw v rest marks ht
  exact ht.share_le k (hdue q hr w hw)

end

/-! ## One worker -/

/-- Every proof in a chunk before the `n`-th is on record. -/
def Shared.Settled (job : Job) (shared : Shared) (n : Nat) : Prop :=
  ∀ chunk p, chunk < n → job.first? chunk = some p → shared.lowest ≤ chunk

/-- How far a worker that has taken all chunks before the `n`-th has come with them. -/
def Phase.InOrder (job : Job) (shared : Shared) (n : Nat) : Phase → Prop
  | .seeking | .done => shared.Settled job n
  | .taken chunk => chunk + 1 = n ∧ shared.Settled job chunk
  | .cleared chunk | .scanning chunk _ | .polling chunk _ | .comparing chunk _ | .proved chunk _ =>
    chunk + 1 = n ∧ job.isDue chunk = true
  | .broken chunk | .reporting chunk _ => chunk + 1 = n ∧ shared.Settled job n

section

variable {job : Job} {shared marks : Shared} {chunk n : Nat}

theorem settled_of_isDue (h : job.isDue chunk = true) (shared : Shared) :
    shared.Settled job chunk := by
  intro c p hc hp
  rw [Job.isDue_iff.mp h c hc] at hp
  simp at hp

theorem Shared.Settled.isDue (h : shared.Settled job chunk) (hlow : chunk ≤ shared.lowest) :
    job.isDue chunk = true := by
  rw [Job.isDue_iff]
  intro c hc
  cases hp : job.first? c with
  | none => rfl
  | some p =>
    have := h c p hc hp
    omega

theorem Shared.Settled.succ (h : shared.Settled job chunk)
    (hlow : job.first? chunk = none ∨ shared.lowest ≤ chunk) : shared.Settled job (chunk + 1) := by
  intro c p hc hp
  rcases Nat.lt_succ_iff_lt_or_eq.mp hc with hlt | rfl
  · exact h c p hlt hp
  · rcases hlow with hnone | hle
    · rw [hnone] at hp
      simp at hp
    · exact hle

theorem Phase.Advances.inOrder {p q : Phase} (h : p.Advances job shared chunk marks q)
    (hstop : shared.stopped = false) (hq : q.IsTrue job marks) (hp : p.InOrder job shared n) :
    q.InOrder job marks n := by
  have hn : chunk + 1 = n := by cases h <;> exact hp.1
  subst hn
  cases h with
  | abandon hs => exact ⟨rfl, hp.2.succ (Or.inr (Nat.le_of_lt (Shared.isSuperseded_iff.mp hs)))⟩
  | clear hs =>
    have hlow : ¬ shared.lowest < chunk := by
      rw [← Shared.isSuperseded_iff, hs]
      simp
    exact ⟨rfl, hp.2.isDue (Nat.not_lt.mp hlow)⟩
  | skip hs | obey hs =>
    rw [hstop] at hs
    simp at hs
  -- From here on the chunk is due, so only a proof in the chunk itself has to be on record.
  | exhaust _ => exact ⟨rfl, (settled_of_isDue hp.2 _).succ (Or.inl hq)⟩
  | yield hs =>
    have hlow := Shared.isSuperseded_iff.mp hs
    exact ⟨rfl, (settled_of_isDue hp.2 _).succ (Or.inr (Nat.le_of_lt hlow))⟩
  | note => exact ⟨rfl, (settled_of_isDue hp.2 _).succ (Or.inr (Nat.min_le_right ..))⟩
  | _ => exact hp

theorem Worker.Moves.inOrder {chunks : Nat} {w v : Worker} {queue rest : List Nat}
    (h : w.Moves job shared v queue rest marks) (hstop : shared.stopped = false)
    (hv : v.phase.IsTrue job marks) (hqueue : queue = List.range' n (chunks - n))
    (hw : w.phase.InOrder job shared n) :
    ∃ m, rest = List.range' m (chunks - m) ∧ v.phase.InOrder job marks m := by
  cases h with
  | finish hp hphase _ =>
    rw [hp] at hw
    exact ⟨n, hqueue, by rwa [hphase]⟩
  | @take chunk rest hp hphase _ =>
    rw [hp] at hw
    have hlen := congrArg List.length hqueue
    rw [List.length_cons, List.length_range'] at hlen
    rw [show chunks - n = (chunks - (n + 1)) + 1 by omega, List.range'_succ] at hqueue
    obtain ⟨rfl, rfl⟩ := List.cons.inj hqueue
    exact ⟨chunk + 1, rfl, by rw [hphase]; exact ⟨rfl, hw⟩⟩
  | work hp ha _ =>
    rw [hp] at hw
    exact ⟨n, hqueue, ha.inOrder hstop hv hw⟩
  | report hp hphase _ =>
    rw [hp] at hw
    exact ⟨n, hqueue, by rw [hphase]; exact hw.2⟩

end

section

variable {job : Job} {config : PoolConfig} {totals : List Statistics} {p : Pool}

theorem inOrder_of_reaches (hone : config.workers ≤ 1)
    (hr : Reaches job false (ofJob job config totals) p) :
    ∃ n w, p.workers = [w] ∧ p.queue = List.range' n (Candidate.chunkCount job.length - n) ∧
      w.phase.InOrder job p.shared n := by
  induction hr with
  | refl =>
    refine ⟨0, .new job.length, ?_, List.range_eq_range', fun c r hc => absurd hc (by simp)⟩
    show List.replicate (config.workersFor _) _ = _
    rw [show config.workersFor (Candidate.chunkCount job.length) = 1 by
      unfold PoolConfig.workersFor
      omega]
    rfl
  | @step q r e hr htimed hm ih =>
    obtain ⟨n, u, hone, hqueue, hphase⟩ := ih
    have htrue := (isTrue_ofJob job false config totals).reaches (hr.step htimed hm)
    cases steps_of_move hm with
    | @work id w v hw ht hworkers _ =>
      obtain ⟨rfl, rfl⟩ : id = 0 ∧ u = w := by simpa [hone, List.getElem?_singleton] using hw
      rw [hone] at hworkers
      have hv := htrue.workers v (by rw [hworkers]; exact List.mem_singleton_self v)
      obtain ⟨m, hrest, hnext⟩ :=
        ht.moves.inOrder (stopped_eq_false hr) hv.phase hqueue hphase
      exact ⟨m, v, hworkers, hrest, hnext⟩
    | @receive id w m rest hw _ hq hshared hworkers _ =>
      obtain ⟨rfl, rfl⟩ : id = 0 ∧ u = w := by simpa [hone, List.getElem?_singleton] using hw
      rw [hone] at hworkers
      exact ⟨n, _, hworkers, hq.trans hqueue, by rwa [hshared]⟩
    | signal he _ _ _ => exact absurd (htimed he) (by simp)

theorem Job.first?_eq_none
    (h : (Candidates.all job.length job.positions).first? job.start job.goal = none) (chunk : Nat) :
    job.first? chunk = none := by
  by_cases hchunk : chunk < Candidate.chunkCount job.length
  · rw [first?_all, List.findSome?_eq_none_iff] at h
    exact h chunk (List.mem_range.mpr hchunk)
  · have hsize : (job.chunk chunk).size = 0 := if_neg hchunk
    unfold first? Candidates.first?
    rw [Candidates.toList_eq, hsize]
    rfl

theorem Ends.eq_due (h : Ends job false config totals p)
    (hcase : (Candidates.all job.length job.positions).first? job.start job.goal = none ∨
      config.workers ≤ 1) (k : Count) :
    sumOf (·.tally.get k) p.reports =
      k.due job.start job.goal (Candidates.all job.length job.positions).toList := by
  apply Nat.le_antisymm _ (h.due_le k)
  apply h.le_due k
  intro q hr w hw chunk i hscan
  rcases hcase with hnone | hone
  · exact Job.isDue_iff.mpr fun lower _ => Job.first?_eq_none hnone lower
  · obtain ⟨n, u, hworkers, -, hphase⟩ := inOrder_of_reaches hone hr
    rw [hworkers, List.mem_singleton] at hw
    rw [← hw, hscan] at hphase
    exact hphase.2

end

end Pool

end LawProof
