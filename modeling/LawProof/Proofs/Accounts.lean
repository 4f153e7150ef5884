import LawProof.Proofs.Reports

/-!
# The accounts of a search with pools

The totals of a search are what all workers of all its pools have counted, whatever the
interleaving. Each chunk of each length is in them once. Without a deadline the candidates are no
fewer than in a search alone, and the same if there is no proof or only one worker.
-/

namespace LawProof

open Statistics (IsCount mergeEach)

/-! ## A search alone -/

theorem Sequential.searchFrom_never (start : State) (goal : Goal) (positions count length : Nat)
    (s : Statistics) :
    searchFrom .never start goal positions (count + 1) length s =
      let tally := (Scan.run .never start goal (.all length positions) s.tally).2
      match (Candidates.all length positions).first? start goal with
      | some p => (.proved p, { s with tally, lengths := length })
      | none =>
        searchFrom .never start goal positions count (length + 1)
          { s with tally, lengths := length } := by
  have hfst := Scan.run_never_fst start goal (.all length positions) s.tally
  simp only [searchFrom]
  revert hfst
  generalize Scan.run .never start goal (.all length positions) s.tally = result
  cases (Candidates.all length positions).first? start goal with
  | some p | none =>
    intro hfst
    obtain ⟨ending, tally⟩ := result
    subst hfst
    rfl

namespace Pool

/-! ## A search with pools -/

/-- `Reports timed start goal positions config count length totals pools r`: a search of `count`
lengths after `length`, each by any complete interleaving of a pool, can give the report `r`, and
`pools` are its pools as they were at the end. -/
inductive Reports (timed : Bool) (start : State) (goal : Goal) (positions : Nat)
    (config : PoolConfig) : Nat → Nat → List Statistics → List Pool → Report → Prop where
  | nothing {length : Nat} {totals : List Statistics} :
      Reports timed start goal positions config 0 length totals [] ⟨.notFound, length, totals⟩
  | proved {count length : Nat} {totals : List Statistics} {p : Pool} {proof : Proof} :
      Ends ⟨start, goal, length + 1, positions⟩ timed config totals p →
      verdict p.endings = .found proof →
      Reports timed start goal positions config (count + 1) length totals [p]
        ⟨.proved proof, length + 1, p.totals⟩
  | stopped {count length : Nat} {totals : List Statistics} {p : Pool} :
      Ends ⟨start, goal, length + 1, positions⟩ timed config totals p →
      verdict p.endings = .interrupted →
      Reports timed start goal positions config (count + 1) length totals [p]
        ⟨.timedOut, length + 1, p.totals⟩
  | longer {count length : Nat} {totals : List Statistics} {p : Pool} {pools : List Pool}
      {r : Report} :
      Ends ⟨start, goal, length + 1, positions⟩ timed config totals p →
      verdict p.endings = .exhausted →
      Reports timed start goal positions config count (length + 1) p.totals pools r →
      Reports timed start goal positions config (count + 1) length totals (p :: pools) r

theorem Ends.first?_of_found {job : Job} {timed : Bool} {config : PoolConfig}
    {totals : List Statistics} {p : Pool} {proof : Proof} (h : Ends job timed config totals p)
    (hv : verdict p.endings = .found proof) :
    (Candidates.all job.length job.positions).first? job.start job.goal = some proof := by
  have htells := h.verdict_tells
  rwa [hv] at htells

theorem Ends.first?_of_exhausted {job : Job} {timed : Bool} {config : PoolConfig}
    {totals : List Statistics} {p : Pool} (h : Ends job timed config totals p)
    (hv : verdict p.endings = .exhausted) :
    (Candidates.all job.length job.positions).first? job.start job.goal = none := by
  have htells := h.verdict_tells
  rwa [hv] at htells

section

variable {timed : Bool} {start : State} {goal : Goal} {positions : Nat} {config : PoolConfig}
  {count length : Nat} {totals : List Statistics} {pools : List Pool} {r : Report}

theorem Reports.lengths_eq
    (h : Reports timed start goal positions config count length totals pools r) :
    r.lengths = length + pools.length := by
  induction h with
  | nothing | proved | stopped => rfl
  | longer _ _ _ ih =>
    rw [ih, List.length_cons]
    omega

theorem Reports.workers_eq
    (h : Reports timed start goal positions config count length totals pools r) :
    r.workers = pools.foldl (fun totals p => mergeEach totals p.reports) totals := by
  induction h with
  | nothing => rfl
  | proved hends | stopped hends => exact hends.totals_eq
  | longer hends _ _ ih => rw [ih, List.foldl_cons, hends.totals_eq]

theorem Reports.sumOf_workers {f : Statistics → Nat} (hf : IsCount f)
    (h : Reports timed start goal positions config count length totals pools r)
    (hlen : max config.workers 1 ≤ totals.length) :
    sumOf f r.workers = sumOf f totals + sumOf f (pools.flatMap reports) := by
  induction h with
  | nothing => rfl
  | proved hends | stopped hends =>
    rw [List.flatMap_singleton, hends.totals_eq,
      hf.sumOf_mergeEach (Nat.le_trans hends.length_reports hlen)]
  | longer hends _ _ ih =>
    rw [hends.totals_eq, Statistics.length_mergeEach,
      hf.sumOf_mergeEach (Nat.le_trans hends.length_reports hlen)] at ih
    rw [ih hlen, List.flatMap_cons, sumOf_append, Nat.add_assoc]

theorem Reports.handled
    (h : Reports timed start goal positions config count length totals pools r) :
    sumOf (fun s => s.dispatched + s.skipped) (pools.flatMap reports) =
      sumOf Candidate.chunkCount (List.range' (length + 1) pools.length) := by
  induction h with
  | nothing => rfl
  | proved hends | stopped hends =>
    rw [List.flatMap_singleton, hends.handled]
    rfl
  | longer hends _ _ ih =>
    rw [List.flatMap_cons, sumOf_append, hends.handled, ih, List.length_cons, List.range'_succ,
      sumOf_cons]

theorem Reports.rejected_le
    (h : Reports timed start goal positions config count length totals pools r) :
    ∀ s ∈ pools.flatMap reports, s.tally.rejected ≤ s.tally.evaluated := by
  induction h with
  | nothing => simp
  | proved hends | stopped hends =>
    rw [List.flatMap_singleton]
    exact hends.rejected_le
  | longer hends _ _ ih =>
    intro s hs
    rw [List.flatMap_cons, List.mem_append] at hs
    rcases hs with hs | hs
    · exact hends.rejected_le s hs
    · exact ih s hs

theorem Reports.alone
    (h : Reports false start goal positions config count length totals pools r) {s : Statistics}
    (hs : s.lengths = length) :
    let alone := (Sequential.searchFrom .never start goal positions count (length + 1) s).2
    r.lengths = alone.lengths ∧ ∀ k,
      alone.tally.get k ≤ s.tally.get k + sumOf (·.tally.get k) (pools.flatMap reports) ∧
      (r.outcome = .notFound ∨ config.workers ≤ 1 →
        alone.tally.get k =
          s.tally.get k + sumOf (·.tally.get k) (pools.flatMap reports)) := by
  induction h generalizing s with
  | nothing => exact ⟨hs.symm, fun k => ⟨Nat.le_refl _, fun _ => rfl⟩⟩
  | @proved count length totals p proof hends hv =>
    have hfirst : (Candidates.all (length + 1) positions).first? start goal = some proof :=
      hends.first?_of_found hv
    rw [Sequential.searchFrom_never, hfirst, List.flatMap_singleton]
    refine ⟨rfl, fun k => ?_⟩
    dsimp only
    rw [Scan.run_never_get]
    refine ⟨Nat.add_le_add_left (hends.due_le k) _, ?_⟩
    rintro (hnone | hone)
    · simp at hnone
    · rw [hends.eq_due (Or.inr hone) k]
  | stopped hends hv =>
    have htells := hends.verdict_tells
    rw [hv] at htells
    obtain ⟨_, hfalse⟩ := htells
    simp at hfalse
  | @longer count length totals p pools r hends hv _ ih =>
    have hfirst : (Candidates.all (length + 1) positions).first? start goal = none :=
      hends.first?_of_exhausted hv
    rw [Sequential.searchFrom_never, hfirst, List.flatMap_cons]
    dsimp only
    obtain ⟨hlengths, hcounts⟩ := @ih { s with
      tally := (Scan.run .never start goal (.all (length + 1) positions) s.tally).2
      lengths := length + 1 } rfl
    refine ⟨hlengths, fun k => ?_⟩
    have hhere := hends.eq_due (Or.inl hfirst) k
    have hcount := hcounts k
    simp only [Scan.run_never_get] at hcount
    rw [sumOf_append, hhere, ← Nat.add_assoc]
    exact hcount

theorem Reports.evaluated_eq
    (h : Reports false start goal positions config count length totals pools r)
    (hout : r.outcome = .notFound) :
    sumOf (·.tally.evaluated) (pools.flatMap reports) =
      sumOf (Candidate.count positions) (List.range' (length + 1) count) := by
  induction h with
  | nothing => rfl
  | proved | stopped => simp at hout
  | @longer count length totals p pools r hends hv _ ih =>
    have hfirst := hends.first?_of_exhausted hv
    have hhere := hends.eq_due (Or.inl hfirst) .evaluated
    rw [Count.due_evaluated _ _ hfirst, Candidates.length_toList] at hhere
    rw [List.flatMap_cons, sumOf_append, ih hout, List.range'_succ, sumOf_cons]
    exact congrArg (· + _) hhere

theorem exists_reports_searchAfter {expired : Deadline}
    (hexpired : ∀ n, expired n = true → timed = true) (start : State) (goal : Goal)
    (positions : Nat) (config : PoolConfig) (count length : Nat) (totals : List Statistics) :
    ∃ pools, Reports timed start goal positions config count length totals pools
      (searchAfter expired start goal positions config count length totals) := by
  induction count generalizing length totals with
  | zero => exact ⟨_, .nothing⟩
  | succ count ih =>
    have hends := ends_run ⟨start, goal, length + 1, positions⟩ config totals hexpired
    simp only [searchAfter]
    split
    · rename_i hv
      exact ⟨_, .proved hends hv⟩
    · rename_i hv
      exact ⟨_, .stopped hends hv⟩
    · rename_i hv
      obtain ⟨pools, hpools⟩ := ih (length + 1) _
      exact ⟨_, .longer hends hv hpools⟩

end

/-! ## The accounts -/

/-- The search with pools can give this report under some interleaving, with a deadline that may
pass at any time or without one, and these are its pools as they were at the end. -/
def CanReport (timed : Bool) (config : Config) (pool : PoolConfig) (f : Formula) (goal : Goal)
    (pools : List Pool) (r : Report) : Prop :=
  Reports timed (.ofFormula f) goal (config.positionsFor f) pool config.maxLength 0
    (List.replicate (max pool.workers 1) (.new .parallel)) pools r

/-- A count of the report is the sum over its workers, and the sum over what the workers of all the
pools have counted. -/
def Report.Adds (r : Report) (pools : List Pool) (f : Statistics → Nat) : Prop :=
  f r.total = sumOf f r.workers ∧ sumOf f r.workers = sumOf f (pools.flatMap reports)

theorem Report.Adds.total_eq {r : Report} {pools : List Pool} {f : Statistics → Nat}
    (h : r.Adds pools f) : f r.total = sumOf f (pools.flatMap reports) :=
  h.1.trans h.2

theorem CanReport.adds {timed : Bool} {config : Config} {pool : PoolConfig} {f : Formula}
    {goal : Goal} {pools : List Pool} {r : Report} (h : CanReport timed config pool f goal pools r)
    {g : Statistics → Nat} (hg : IsCount g) : r.Adds pools g := by
  constructor
  · unfold Report.total
    rw [hg.lengths, hg.foldl_merge, hg.zero, Nat.zero_add]
  · rw [h.sumOf_workers hg (Nat.le_of_eq List.length_replicate.symm), sumOf_replicate, hg.zero,
      Nat.mul_zero, Nat.zero_add]

theorem sumOf_rejected_le {l : List Statistics}
    (h : ∀ s ∈ l, s.tally.rejected ≤ s.tally.evaluated) :
    sumOf (·.tally.rejected) l ≤ sumOf (·.tally.evaluated) l := by
  induction l with
  | nil => exact Nat.le_refl _
  | cons s l ih =>
    have hs := h s List.mem_cons_self
    have hl := ih fun t ht => h t (List.mem_cons_of_mem s ht)
    simp only [sumOf_cons]
    omega

/-- Whatever the interleaving, each chunk is searched or put aside once, and all that the workers
count is in the totals once. Without a deadline the lengths are those of a search alone. -/
theorem canReport_accounts (config : Config) (pool : PoolConfig) (f : Formula) (goal : Goal) :
    let alone := (Sequential.search .never config f goal).statistics
    let positions := config.positionsFor f
    let lengths := List.range' 1 config.maxLength
    (∀ timed pools r, CanReport timed config pool f goal pools r →
      r.total.dispatched + r.total.skipped =
          sumOf Candidate.chunkCount (List.range' 1 r.total.lengths) ∧
        r.Adds pools (·.tally.evaluated) ∧ r.Adds pools (·.tally.rejected) ∧
        r.Adds pools (·.dispatched) ∧ r.Adds pools (·.skipped) ∧
        r.workers = pools.foldl (fun totals p => mergeEach totals p.reports)
          (List.replicate (max pool.workers 1) (.new .parallel)) ∧
        r.total.tally.rejected ≤ r.total.tally.evaluated) ∧
      (∀ pools r, CanReport false config pool f goal pools r →
        r.total.lengths = alone.lengths ∧
          alone.tally.evaluated ≤ r.total.tally.evaluated ∧
          alone.tally.rejected ≤ r.total.tally.rejected ∧
          (r.outcome = .notFound ∨ pool.workers ≤ 1 → r.total.tally = alone.tally) ∧
          (r.outcome = .notFound →
            r.total.tally.evaluated = sumOf (Candidate.count positions) lengths) ∧
          (r.outcome = .notFound →
            (∀ length ∈ lengths, Candidate.reportedCount positions length < countCap) →
            r.total.tally.evaluated = sumOf (Candidate.reportedCount positions) lengths)) ∧
      (∃ pools, CanReport false config pool f goal pools (report .never config pool f goal)) ∧
      ∀ expired, ∃ pools,
        CanReport true config pool f goal pools (report expired config pool f goal) := by
  intro alone positions lengths
  refine ⟨?_, ?_, exists_reports_searchAfter (fun n hn => by simp [Deadline.never] at hn) ..,
    fun expired => exists_reports_searchAfter (fun _ _ => rfl) ..⟩
  · intro timed pools r h
    have hevaluated : r.Adds pools (·.tally.evaluated) := h.adds (Statistics.isCount_get .evaluated)
    have hrejected : r.Adds pools (·.tally.rejected) := h.adds (Statistics.isCount_get .rejected)
    have hdispatched := h.adds Statistics.isCount_dispatched
    have hskipped := h.adds Statistics.isCount_skipped
    refine ⟨?_, hevaluated, hrejected, hdispatched, hskipped, h.workers_eq, ?_⟩
    · have hboth := h.adds (Statistics.isCount_dispatched.add Statistics.isCount_skipped)
      have hlengths : r.total.lengths = 0 + pools.length := h.lengths_eq
      rw [hlengths, Nat.zero_add]
      exact hboth.total_eq.trans h.handled
    · rw [hevaluated.total_eq, hrejected.total_eq]
      exact sumOf_rejected_le h.rejected_le
  · intro pools r h
    have htotal := fun k => (h.adds (Statistics.isCount_get k)).total_eq
    have hzero : ∀ k, (Statistics.new .enumerative).tally.get k = 0 := fun k => by cases k <;> rfl
    obtain ⟨hlengths, hcounts⟩ := h.alone (s := .new .enumerative) rfl
    simp only [hzero, Nat.zero_add, ← htotal] at hcounts
    have hevaluated : r.outcome = .notFound →
        r.total.tally.evaluated = sumOf (Candidate.count positions) lengths :=
      fun hout => (htotal .evaluated).trans (h.evaluated_eq hout)
    refine ⟨hlengths, (hcounts .evaluated).1, (hcounts .rejected).1, ?_, hevaluated, ?_⟩
    · intro hcase
      exact Tally.eq_of_get fun k => ((hcounts k).2 hcase).symm
    · intro hout hcap
      rw [hevaluated hout]
      apply sumOf_congr
      intro length hlength
      have := hcap length hlength
      rw [Candidate.reportedCount_eq] at this ⊢
      omega

end Pool

end LawProof
