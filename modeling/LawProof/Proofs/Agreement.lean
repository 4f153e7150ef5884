import LawProof.Proofs.Schedules

/-!
# Searching with a pool and searching alone

`Yields` says which outcomes a search with pools can have: for each length in turn, any interleaving
that is complete. Without a deadline that is the outcome of a search alone, and no other. With a
deadline, both searches have that outcome or time out.
-/

namespace LawProof

namespace Pool

/-! ## One length -/

/-- The pool that searches one length, before anything has happened. -/
def ofJob (job : Job) (config : PoolConfig) (totals : List Statistics) : Pool :=
  new job.length (Candidate.chunkCount job.length)
    (config.workersFor (Candidate.chunkCount job.length)) totals

theorem chunkCount_lt_noChunk (length : Nat) : Candidate.chunkCount length < noChunk := by
  match length with
  | 0 | 1 => decide
  | n + 2 =>
    show lawCount < noChunk
    decide

theorem isTrue_ofJob (job : Job) (timed : Bool) (config : PoolConfig) (totals : List Statistics) :
    (ofJob job config totals).IsTrue job timed where
  marks h := absurd h (Nat.lt_irrefl _)
  stopped h := by simp [ofJob, new] at h
  queue := by
    intro chunk hchunk
    exact Nat.lt_trans (List.mem_range.mp hchunk) (chunkCount_lt_noChunk job.length)
  workers := by
    intro w hw
    obtain rfl := List.eq_of_mem_replicate hw
    exact ⟨trivial, by simp [Worker.new]⟩
  endings := by
    intro chunk ending he
    simp [ofJob, new, List.getElem?_replicate] at he

theorem isWhole_ofJob (job : Job) (config : PoolConfig) (totals : List Statistics) :
    (ofJob job config totals).IsWhole (Candidate.chunkCount job.length) where
  length := List.length_replicate
  manned := by
    show 0 < (List.replicate _ _).length
    rw [List.length_replicate]
    exact Nat.lt_of_lt_of_le Nat.one_pos (Nat.le_max_right ..)
  placed chunk hchunk := Or.inl (List.mem_range.mpr hchunk)
  emptied := by
    intro w hw hdone
    obtain rfl := List.eq_of_mem_replicate hw
    simp [Worker.new] at hdone
  closed := by
    intro w hw _
    obtain rfl := List.eq_of_mem_replicate hw
    exact Or.inl rfl
  owed := by
    show 0 + sumOf Worker.owed (List.replicate _ _) = (List.replicate _ _).length
    rw [sumOf_replicate, List.length_replicate]
    simp [Worker.owed, Worker.new]

theorem first?_all (job : Job) :
    (Candidates.all job.length job.positions).first? job.start job.goal =
      (List.range (Candidate.chunkCount job.length)).findSome? job.first? := by
  unfold Candidates.first?
  rw [Candidates.toList_all, List.find?_flatMap]
  rfl

variable {job : Job} {timed : Bool} {config : PoolConfig} {totals : List Statistics}

/-- `Ends job timed config totals p`: some interleaving leads the pool of a job to its end, and `p`
is what it leaves. -/
def Ends (job : Job) (timed : Bool) (config : PoolConfig) (totals : List Statistics) (p : Pool) :
    Prop :=
  Reaches job timed (ofJob job config totals) p ∧ p.Complete

theorem Ends.verdict_tells {p : Pool} (h : Ends job timed config totals p) :
    (verdict p.endings).Tells job.start job.goal (fun _ => timed)
      (.all job.length job.positions) := by
  obtain ⟨hr, hc⟩ := h
  have htrue := (isTrue_ofJob job timed config totals).reaches hr
  have hwhole := (isWhole_ofJob job config totals).reaches hr
  have hendings : ∀ i, i < p.endings.length →
      ∃ ending, p.endings[i]? = some (some ending) ∧ ending.IsTrue job p.shared (0 + i) := by
    intro i hi
    obtain ⟨ending, he⟩ := hwhole.ending hc (hwhole.length ▸ hi)
    rw [Nat.zero_add]
    exact ⟨ending, he, htrue.endings i ending he⟩
  have hfirst : ∀ chunk, chunk < 0 → job.first? chunk = none :=
    fun chunk hchunk => absurd hchunk (Nat.not_lt_zero chunk)
  have htells := Pool.verdict_tells hfirst hendings
  rw [hwhole.length, ← List.range_eq_range', ← first?_all] at htells
  split at htells
  · rename_i hv
    rw [hv]
    exact htells
  · rename_i hv
    rw [hv]
    exact htells
  · rename_i hv
    rw [hv]
    exact ⟨0, htrue.stopped htells⟩

/-! ## All lengths -/

/-- `Yields timed start goal positions config count length totals o`: a search of `count` lengths
after `length`, each by any complete interleaving of a pool, can have the outcome `o`. -/
inductive Yields (timed : Bool) (start : State) (goal : Goal) (positions : Nat)
    (config : PoolConfig) : Nat → Nat → List Statistics → Outcome → Prop where
  | nothing {length : Nat} {totals : List Statistics} :
      Yields timed start goal positions config 0 length totals .notFound
  | proved {count length : Nat} {totals : List Statistics} {p : Pool} {proof : Proof} :
      Ends ⟨start, goal, length + 1, positions⟩ timed config totals p →
      verdict p.endings = .found proof →
      Yields timed start goal positions config (count + 1) length totals (.proved proof)
  | stopped {count length : Nat} {totals : List Statistics} {p : Pool} :
      Ends ⟨start, goal, length + 1, positions⟩ timed config totals p →
      verdict p.endings = .interrupted →
      Yields timed start goal positions config (count + 1) length totals .timedOut
  | longer {count length : Nat} {totals : List Statistics} {p : Pool} {o : Outcome} :
      Ends ⟨start, goal, length + 1, positions⟩ timed config totals p →
      verdict p.endings = .exhausted →
      Yields timed start goal positions config count (length + 1) p.totals o →
      Yields timed start goal positions config (count + 1) length totals o

section

variable {start : State} {goal : Goal} {positions count length : Nat}

theorem Yields.eq_answer {o : Outcome}
    (h : Yields timed start goal positions config count length totals o) :
    o = Search.answer start goal positions count (length + 1) ∨ o = .timedOut ∧ timed = true := by
  induction h with
  | nothing => exact Or.inl rfl
  | @proved count length totals p proof hends hv =>
    have htells := hends.verdict_tells
    rw [hv] at htells
    have hfirst : (Candidates.all (length + 1) positions).first? start goal = some proof := htells
    exact Or.inl (by simp only [Search.answer, hfirst])
  | @stopped count length totals p hends hv =>
    have htells := hends.verdict_tells
    rw [hv] at htells
    obtain ⟨_, htimed⟩ := htells
    exact Or.inr ⟨rfl, htimed⟩
  | @longer count length totals p o hends hv _ ih =>
    have htells := hends.verdict_tells
    rw [hv] at htells
    have hfirst : (Candidates.all (length + 1) positions).first? start goal = none := htells
    simp only [Search.answer, hfirst]
    exact ih

/-! ## The pool that is run -/

theorem Reaches.head {p q r : Pool} {e : Event} (he : e = .signal → timed = true)
    (hm : p.move job e = some q) (h : Reaches job timed q r) : Reaches job timed p r := by
  induction h with
  | refl => exact .step .refl he hm
  | step _ he' hm' ih => exact .step ih he' hm'

theorem reaches_run {schedule : Pool → Option Event}
    (hs : ∀ p, schedule p = some .signal → timed = true) (p : Pool) :
    Reaches job timed p (p.run job schedule) := by
  fun_induction run job schedule p with
  | case1 p _ => exact .refl
  | case2 p e _ _ => exact .refl
  | case3 p e he q hm ih => exact .head (fun h => hs p (h ▸ he)) hm ih

theorem run_idle (schedule : Pool → Option Event) (p : Pool) :
    schedule (p.run job schedule) = none ∨
      ∃ e, schedule (p.run job schedule) = some e ∧ (p.run job schedule).move job e = none := by
  fun_induction run job schedule p with
  | case1 p h => exact Or.inl h
  | case2 p e he hm => exact Or.inr ⟨e, he, hm⟩
  | case3 p e _ q _ ih => exact ih

/-- No interleaving goes on for ever. -/
theorem not_forall_move (job : Job) (run : Nat → Pool) :
    ¬ ∀ i, ∃ e, (run i).move job e = some (run (i + 1)) := by
  intro hmoves
  -- The weight goes down with every event, so after `i` of them it has lost at least `i`.
  have hweight : ∀ i, (run i).weight job + i ≤ (run 0).weight job := by
    intro i
    induction i with
    | zero => exact Nat.le_refl _
    | succ i ih =>
      obtain ⟨e, he⟩ := hmoves i
      have := move_weight_lt he
      omega
  have := hweight ((run 0).weight job + 1)
  omega

theorem expired_of_next?_eq_signal {expired : Deadline} {earlier : Nat} {p : Pool}
    (h : next? expired earlier p = some .signal) :
    p.shared.stopped = false ∧ ∃ n, expired n = true := by
  unfold next? at h
  split at h
  · rename_i hcond
    rw [Bool.and_eq_true, Bool.not_eq_true'] at hcond
    exact ⟨hcond.1, _, hcond.2⟩
  · split at h
    · simp at h
    · simp at h

theorem getElem?_of_findIdx? {α : Type} {f : α → Bool} {l : List α} {i : Nat}
    (h : l.findIdx? f = some i) : ∃ a, l[i]? = some a ∧ f a = true := by
  obtain ⟨hi, hf, -⟩ := List.findIdx?_eq_some_iff_getElem.mp h
  exact ⟨l[i], List.getElem?_eq_getElem hi, hf⟩

theorem move_isSome_of_next? (job : Job) {expired : Deadline} {earlier : Nat} {p : Pool} {e : Event}
    (h : next? expired earlier p = some e) : (p.move job e).isSome = true := by
  cases e with
  | signal => simp [move, (expired_of_next?_eq_signal h).1]
  | work id =>
    unfold next? at h
    split at h
    · simp at h
    · split at h
      · rename_i hidx
        obtain rfl := Event.work.inj (Option.some.inj h)
        obtain ⟨w, hw, hbusy⟩ := getElem?_of_findIdx? hidx
        exact move_work_isSome hw (by simpa using hbusy) job
      · simp at h
  | receive id =>
    unfold next? at h
    split at h
    · simp at h
    · split at h
      · simp at h
      · obtain ⟨k, hidx, hk⟩ := Option.map_eq_some_iff.mp h
        obtain rfl := Event.receive.inj hk
        obtain ⟨w, hw, hfull⟩ := getElem?_of_findIdx? hidx
        exact move_receive_isSome hw (by simpa using hfull) job

theorem idle_of_next?_eq_none {expired : Deadline} {earlier : Nat} {p : Pool}
    (h : next? expired earlier p = none) : ∀ w ∈ p.workers, w.phase = .done ∧ w.outbox = [] := by
  unfold next? at h
  split at h
  · simp at h
  · split at h
    · simp at h
    · rename_i hdone
      rw [Option.map_eq_none_iff, List.findIdx?_eq_none_iff] at h
      rw [List.findIdx?_eq_none_iff] at hdone
      intro w hw
      exact ⟨by simpa using hdone w hw, by simpa using h w hw⟩

theorem complete_run (job : Job) {chunks : Nat} {p : Pool} (h : p.IsWhole chunks)
    (expired : Deadline) (earlier : Nat) : (p.run job (next? expired earlier)).Complete := by
  have hreach : Reaches job true p (p.run job (next? expired earlier)) :=
    reaches_run (fun _ _ => rfl) p
  rw [(h.reaches hreach).complete_iff]
  -- What the schedule has next can always happen, so the run ends only where nothing is left to do.
  rcases run_idle (next? expired earlier) p with hnone | ⟨e, he, hm⟩
  · exact idle_of_next?_eq_none hnone
  · have hsome := move_isSome_of_next? job he
    rw [hm] at hsome
    simp at hsome

theorem ends_run (job : Job) (config : PoolConfig) (totals : List Statistics) {expired : Deadline}
    (hexpired : ∀ n, expired n = true → timed = true) :
    Ends job timed config totals
      ((ofJob job config totals).run job (next? expired (evaluatedIn totals))) := by
  refine ⟨?_, complete_run job (isWhole_ofJob job config totals) expired _⟩
  apply reaches_run
  intro p hp
  obtain ⟨-, n, hn⟩ := expired_of_next?_eq_signal hp
  exact hexpired n hn

theorem yields_searchAfter {expired : Deadline} (hexpired : ∀ n, expired n = true → timed = true)
    (start : State) (goal : Goal) (positions : Nat) (config : PoolConfig) (count length : Nat)
    (totals : List Statistics) :
    Yields timed start goal positions config count length totals
      (searchAfter expired start goal positions config count length totals).outcome := by
  induction count generalizing length totals with
  | zero => exact .nothing
  | succ count ih =>
    have hends := ends_run ⟨start, goal, length + 1, positions⟩ config totals hexpired
    simp only [searchAfter]
    split
    · rename_i hv
      exact .proved hends hv
    · rename_i hv
      exact .stopped hends hv
    · rename_i hv
      exact .longer hends hv (ih ..)

end

/-- The search with pools can have this outcome under some interleaving, with a deadline that may
pass at any time or without one. -/
def CanEnd (timed : Bool) (config : Config) (pool : PoolConfig) (f : Formula) (goal : Goal)
    (o : Outcome) : Prop :=
  Yields timed (.ofFormula f) goal (config.positionsFor f) pool config.maxLength 0
    (List.replicate (max pool.workers 1) (.new .parallel)) o

/-- Whatever the interleaving, a search with pools has the outcome of a search alone, or times out
if there is a deadline. Every interleaving comes to an end. -/
theorem canEnd_iff (config : Config) (pool : PoolConfig) (f : Formula) (goal : Goal) :
    let alone := (Sequential.search .never config f goal).outcome
    (∀ o, CanEnd false config pool f goal o ↔ o = alone) ∧
      (∀ o, CanEnd true config pool f goal o → o = .timedOut ∨ o = alone) ∧
      (∀ expired, (Sequential.search expired config f goal).outcome = .timedOut ∨
        (Sequential.search expired config f goal).outcome = alone) ∧
      (∀ job timed totals p, Reaches job timed (ofJob job pool totals) p →
        p.Complete ∨ ∃ e q, e ≠ .signal ∧ p.move job e = some q) ∧
      (∀ job (run : Nat → Pool), ¬ ∀ i, ∃ e, (run i).move job e = some (run (i + 1))) ∧
      (search .never config pool f goal).outcome = alone ∧
      ∀ expired, CanEnd true config pool f goal (search expired config pool f goal).outcome := by
  intro alone
  have halone : alone = _ := Sequential.outcome_never config f goal
  have honly : ∀ o, CanEnd false config pool f goal o → o = alone := by
    intro o ho
    rcases Yields.eq_answer ho with heq | ⟨-, hfalse⟩
    · rw [halone]
      exact heq
    · simp at hfalse
  have hnever : CanEnd false config pool f goal (search .never config pool f goal).outcome :=
    yields_searchAfter (fun n hn => by simp [Deadline.never] at hn) ..
  refine ⟨?_, ?_, ?_, ?_, fun job run => not_forall_move job run, honly _ hnever,
    fun expired => yields_searchAfter (fun _ _ => rfl) ..⟩
  · intro o
    constructor
    · exact honly o
    · rintro rfl
      rw [← honly _ hnever]
      exact hnever
  · intro o ho
    rcases Yields.eq_answer ho with heq | ⟨hout, -⟩
    · right
      rw [halone]
      exact heq
    · exact Or.inl hout
  · intro expired
    rcases Sequential.outcome_eq expired config f goal with heq | ⟨hout, -⟩
    · right
      rw [halone]
      exact heq
    · exact Or.inl hout
  · intro job timed totals p hr
    by_cases hc : p.Complete
    · exact Or.inl hc
    · exact Or.inr (((isWhole_ofJob job pool totals).reaches hr).exists_move job hc)

end Pool

end LawProof
