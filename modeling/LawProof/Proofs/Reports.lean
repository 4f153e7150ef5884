import LawProof.Proofs.Ledgers

/-!
# What workers report

A worker sends its counts once, as the last thing it does, and they are added to its total when the
message is received. So at the end of a pool the total of each worker has grown by what the worker
has counted, in whatever order the messages came.
-/

namespace LawProof

namespace Statistics

/-! ## Merging -/

/-- A count that adds up when statistics are merged. -/
structure IsCount (f : Statistics → Nat) : Prop where
  zero : f (.new .parallel) = 0
  lengths : ∀ s n, f { s with lengths := n } = f s
  merge : ∀ s t, f (s.merge t) = f s + f t

theorem isCount_get (k : Count) : IsCount (·.tally.get k) := by
  cases k <;> exact ⟨rfl, fun _ _ => rfl, fun _ _ => rfl⟩

theorem isCount_dispatched : IsCount (·.dispatched) := ⟨rfl, fun _ _ => rfl, fun _ _ => rfl⟩

theorem isCount_skipped : IsCount (·.skipped) := ⟨rfl, fun _ _ => rfl, fun _ _ => rfl⟩

theorem IsCount.add {f g : Statistics → Nat} (hf : IsCount f) (hg : IsCount g) :
    IsCount fun s => f s + g s := by
  refine ⟨?_, fun s n => ?_, fun s t => ?_⟩
  · rw [hf.zero, hg.zero]
  · rw [hf.lengths, hg.lengths]
  · rw [hf.merge, hg.merge]
    omega

theorem IsCount.foldl_merge {f : Statistics → Nat} (hf : IsCount f) (s : Statistics)
    (l : List Statistics) : f (l.foldl Statistics.merge s) = f s + sumOf f l := by
  induction l generalizing s with
  | nil => rfl
  | cons t l ih => rw [List.foldl_cons, ih, hf.merge, sumOf_cons, Nat.add_assoc]

/-- Merges each total with the report that stands in its place. -/
def mergeEach : List Statistics → List Statistics → List Statistics
  | [], _ => []
  | totals, [] => totals
  | t :: totals, s :: reports => t.merge s :: mergeEach totals reports

theorem length_mergeEach (totals reports : List Statistics) :
    (mergeEach totals reports).length = totals.length := by
  fun_induction mergeEach totals reports with
  | case1 | case2 => rfl
  | case3 t totals s reports ih => rw [List.length_cons, List.length_cons, ih]

theorem getElem?_mergeEach (totals reports : List Statistics) (id : Nat) :
    (mergeEach totals reports)[id]? =
      totals[id]?.map fun t => reports[id]?.elim t t.merge := by
  fun_induction mergeEach totals reports generalizing id with
  | case1 => rfl
  | case2 => simp
  | case3 t totals s reports ih =>
    cases id with
    | zero => rfl
    | succ id => simpa using ih id

theorem IsCount.sumOf_mergeEach {f : Statistics → Nat} (hf : IsCount f)
    {totals reports : List Statistics} (h : reports.length ≤ totals.length) :
    sumOf f (mergeEach totals reports) = sumOf f totals + sumOf f reports := by
  fun_induction mergeEach totals reports with
  | case1 reports =>
    rw [List.eq_nil_of_length_eq_zero (Nat.le_zero.mp h)]
    rfl
  | case2 => rfl
  | case3 t totals s reports ih =>
    have := ih (Nat.le_of_succ_le_succ h)
    simp only [sumOf_cons, hf.merge]
    omega

end Statistics

namespace Pool

/-! ## What a worker reports -/

/-- A worker sends its counts once, when it is done, and they do not change after that. -/
def Worker.Tidy (w : Worker) : Prop :=
  w.outbox.filter Message.isFinished = [] ∨
    w.phase = .done ∧ w.outbox.filter Message.isFinished = [.finished w.statistics]

/-- The coordinator has the counts of the worker. -/
def Worker.isHeard (w : Worker) : Bool :=
  w.phase == .done && (w.outbox.filter Message.isFinished).isEmpty

section

variable {job : Job} {shared marks : Shared} {w v : Worker} {queue rest : List Nat}

theorem Worker.Moves.phase_ne_done (h : w.Moves job shared v queue rest marks) :
    w.phase ≠ .done := by
  intro hdone
  cases h with
  | finish hp | take hp | report hp =>
    rw [hdone] at hp
    simp at hp
  | work hp ha =>
    have := ha.chunk?_eq.1
    rw [← hp, hdone] at this
    simp [Phase.chunk?] at this

theorem Worker.Turn.tidy (h : w.Turn job shared v queue rest marks) (hw : w.Tidy) : v.Tidy := by
  have hnone : w.outbox.filter Message.isFinished = [] := by
    rcases hw with hnone | ⟨hdone, -⟩
    · exact hnone
    · exact absurd hdone h.moves.phase_ne_done
  obtain ⟨hmoves, hs⟩ := h
  unfold Tidy
  cases hmoves with
  | finish hp hv hout =>
    rw [hp, hv] at hs
    refine Or.inr ⟨hv, ?_⟩
    rw [hout, List.filter_append, hnone, hs]
    rfl
  | take _ _ hout | work _ _ hout =>
    left
    rw [hout, hnone]
  | report _ _ hout =>
    left
    rw [hout, List.filter_append, hnone]
    rfl

theorem Worker.Turn.not_isHeard (h : w.Turn job shared v queue rest marks) :
    w.isHeard = false ∧ v.isHeard = false := by
  unfold isHeard
  refine ⟨by simp [h.moves.phase_ne_done], ?_⟩
  by_cases hdone : v.phase = .done
  · obtain ⟨-, front, s, hout⟩ := h.moves.done hdone
    simp [hout, Message.isFinished]
  · simp [hdone]

theorem Worker.Tidy.received {m : Message} {rest : List Message} (hout : w.outbox = m :: rest)
    (h : w.Tidy) : ({ w with outbox := rest } : Worker).Tidy := by
  unfold Tidy at h ⊢
  rw [hout] at h
  cases m with
  | chunkDone chunk ending => exact h
  | finished s =>
    rcases h with hnone | ⟨-, hlast⟩
    · simp [Message.isFinished] at hnone
    · rw [List.filter_cons_of_pos rfl] at hlast
      exact Or.inl (List.cons.inj hlast).2

theorem Worker.Tidy.finished {s : Statistics} {rest : List Message}
    (hout : w.outbox = .finished s :: rest) (h : w.Tidy) :
    s = w.statistics ∧ w.isHeard = false ∧
      ({ w with outbox := rest } : Worker).isHeard = true := by
  unfold Tidy at h
  unfold isHeard
  rw [hout, List.filter_cons_of_pos rfl] at h ⊢
  rcases h with hnone | ⟨hdone, hlast⟩
  · simp at hnone
  · obtain ⟨hs, hrest⟩ := List.cons.inj hlast
    refine ⟨Message.finished.inj hs, by simp, ?_⟩
    rw [hdone, hrest]
    rfl

end

/-! ## The totals of a pool -/

/-- The total of a worker, with its counts if they have been received. -/
def Worker.credit (w : Worker) (t : Statistics) : Statistics :=
  if w.isHeard then t.merge w.statistics else t

/-- The total of each worker has its counts if they have been received, and nothing else. -/
def IsBooked (totals : List Statistics) (p : Pool) : Prop :=
  ∀ id : Nat, p.totals[id]? = totals[id]?.map fun t => p.workers[id]?.elim t (·.credit t)

section

variable {job : Job} {timed : Bool} {config : PoolConfig} {totals : List Statistics} {p q : Pool}

theorem credit_set {workers : List Worker} {id : Nat} {w v : Worker} (hw : workers[id]? = some w)
    (hv : ∀ t, v.credit t = w.credit t) (j : Nat) (t : Statistics) :
    (workers.set id v)[j]?.elim t (·.credit t) = workers[j]?.elim t (·.credit t) := by
  by_cases hj : id = j
  · subst hj
    rw [List.getElem?_set_self (List.getElem?_eq_some_iff.mp hw).1, hw]
    exact hv t
  · rw [List.getElem?_set_ne hj]

theorem IsBooked.step {e : Event} (h : p.IsBooked totals) (htidy : ∀ w ∈ p.workers, w.Tidy)
    (hs : Steps job p q e) : q.IsBooked totals := by
  intro j
  cases hs with
  | @work id w v hw ht hworkers htotals =>
    obtain ⟨hbefore, hafter⟩ := ht.not_isHeard
    have hsame : ∀ t, v.credit t = w.credit t := by
      intro t
      unfold Worker.credit
      rw [hbefore, hafter]
      rfl
    simp only [htotals, hworkers, h j, credit_set hw hsame]
  | @receive id w m rest hw hout _ _ hworkers htotals =>
    cases m with
    | chunkDone chunk ending =>
      have hsame : ∀ t, ({ w with outbox := rest } : Worker).credit t = w.credit t := by
        intro t
        unfold Worker.credit Worker.isHeard
        rw [hout]
        rfl
      have htotals : q.totals = p.totals := htotals
      simp only [htotals, hworkers, h j, credit_set hw hsame]
    | finished s =>
      -- Only here a total changes, and this is when its worker comes to be heard.
      obtain ⟨rfl, hbefore, hafter⟩ :=
        (htidy w (List.mem_of_getElem? hw)).finished hout
      have htotals : q.totals = p.totals.modify id (·.merge w.statistics) := htotals
      rw [htotals, hworkers, List.getElem?_modify, h j]
      by_cases hj : id = j
      · subst hj
        rw [List.getElem?_set_self (List.getElem?_eq_some_iff.mp hw).1, hw]
        cases totals[id]? with
        | none => rfl
        | some t => simp [Worker.credit, hbefore, hafter]
      · rw [List.getElem?_set_ne hj]
        simp [hj]
  | signal _ _ hworkers htotals => rw [htotals, hworkers, h j]

theorem tidy_of_reaches (hr : Reaches job timed (ofJob job config totals) p) :
    ∀ w ∈ p.workers, w.Tidy := by
  apply forall_workers_of_reaches _ Worker.Turn.tidy (fun hout => Worker.Tidy.received hout) hr
  intro w hw
  rw [List.eq_of_mem_replicate hw]
  exact Or.inl rfl

theorem isBooked_of_reaches (hr : Reaches job timed (ofJob job config totals) p) :
    p.IsBooked totals := by
  induction hr with
  | refl =>
    intro id
    show totals[id]? = totals[id]?.map fun t =>
      (List.replicate _ (Worker.new job.length))[id]?.elim t (·.credit t)
    rw [List.getElem?_replicate]
    split <;> exact Option.map_id'.symm
  | step hr _ hm ih => exact ih.step (tidy_of_reaches hr) (steps_of_move hm)

theorem Ends.totals_eq (h : Ends job timed config totals p) :
    p.totals = Statistics.mergeEach totals p.reports := by
  apply List.ext_getElem?
  intro id
  rw [isBooked_of_reaches h.1 id, Statistics.getElem?_mergeEach]
  unfold reports
  rw [List.getElem?_map]
  cases hw : p.workers[id]? with
  | none => rfl
  | some w =>
    obtain ⟨hdone, hout⟩ := h.idle w (List.mem_of_getElem? hw)
    simp [Worker.credit, Worker.isHeard, hdone, hout]

theorem Ends.length_reports (h : Ends job timed config totals p) :
    p.reports.length ≤ max config.workers 1 := by
  have hlen : ∀ q, Reaches job timed (ofJob job config totals) q →
      q.workers.length = config.workersFor (Candidate.chunkCount job.length) := by
    intro q hr
    induction hr with
    | refl => exact List.length_replicate
    | step _ _ hm ih =>
      cases steps_of_move hm with
      | work _ _ hworkers _ | receive _ _ _ _ hworkers _ => rw [hworkers, List.length_set, ih]
      | signal _ _ hworkers _ => rw [hworkers, ih]
  unfold reports
  rw [List.length_map, hlen p h.1]
  unfold PoolConfig.workersFor
  omega

theorem Ends.rejected_le (h : Ends job timed config totals p) :
    ∀ s ∈ p.reports, s.tally.rejected ≤ s.tally.evaluated := by
  have hall : ∀ w ∈ p.workers, w.statistics.tally.rejected ≤ w.statistics.tally.evaluated := by
    apply forall_workers_of_reaches
      (P := fun w => w.statistics.tally.rejected ≤ w.statistics.tally.evaluated) _ _
      (fun _ => id) h.1
    · intro w hw
      rw [List.eq_of_mem_replicate hw]
      exact Nat.le_refl _
    · intro shared marks w v queue rest ht hw
      rw [ht.statistics]
      unfold Phase.book
      split
      any_goals exact hw
      exact Scan.advance_rejected_le _ _ _ hw _
  intro s hs
  obtain ⟨w, hw, rfl⟩ := List.mem_map.mp hs
  exact hall w hw

end

end Pool

end LawProof
