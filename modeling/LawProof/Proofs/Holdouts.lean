import LawProof.Proofs.Coverage

/-!
# Holdouts

A census lists a formula as a holdout if its search came back without a proof. Where the search went
through all candidates and no position was ruled out, the formula is what the report says it is: all
its proofs are longer than the limit. A search that was timed out, or that was not to look at some
positions, may have missed a proof that is short enough, and the report makes no difference.
-/

namespace LawProof

open Candidate (Shape)

/-! ## Searches without a proof -/

theorem Candidate.Shape.length_pos {positions : Nat} {p : Proof} (h : Shape positions p) :
    1 ≤ p.length := by
  cases h <;> exact Nat.le_add_left ..

namespace Search

/-- No proof of at most `n` steps, with all positions but the last below `positions`, finishes with
its last step. -/
def Misses (f : Formula) (goal : Goal) (positions n : Nat) : Prop :=
  ∀ p : Proof, p.length ≤ n → Shape positions p → provesExactly f goal p = false

theorem answer_ne_timedOut (start : State) (goal : Goal) (positions n length : Nat) :
    answer start goal positions n length ≠ .timedOut := by
  rcases answer_spec start goal positions n length with ⟨m, p, -, -, -, -, hanswer⟩ | ⟨-, hanswer⟩
  · simp [hanswer]
  · simp [hanswer]

theorem answer_eq_notFound_iff {f : Formula} {goal : Goal} {positions n : Nat} :
    answer (.ofFormula f) goal positions n 1 = .notFound ↔ Misses f goal positions n := by
  rcases answer_spec (.ofFormula f) goal positions n 1 with
    ⟨m, p, -, hlt, hp, -, hanswer⟩ | ⟨hnone, hanswer⟩
  · rw [hanswer]
    refine ⟨by simp, ?_⟩
    intro hmisses
    have hmem := List.mem_of_find?_eq_some hp
    obtain ⟨hlength, hshape⟩ := Candidates.mem_toList_all.mp hmem
    have hfalse := hmisses p (by omega) hshape
    rw [provesExactly_eq, List.find?_some hp] at hfalse
    simp at hfalse
  · rw [hanswer]
    refine ⟨fun _ p hle hshape => ?_, fun _ => rfl⟩
    have hpos := hshape.length_pos
    exact Candidates.first?_all_eq_none_iff.mp (hnone p.length hpos (by omega)) p rfl hshape

theorem CanEnd.proof?_eq_none_iff {config : Config} {pool : PoolConfig} {f : Formula} {goal : Goal}
    {o : Outcome} (h : CanEnd config pool f goal o) :
    o.proof? = none ↔
      o = .timedOut ∨ Misses f goal (config.positionsFor f) config.maxLength := by
  rw [← answer_eq_notFound_iff]
  rcases h.eq_answer with rfl | ⟨rfl, -⟩
  · cases answer (.ofFormula f) goal (config.positionsFor f) config.maxLength 1 <;>
      simp [Outcome.proof?]
  · simp [Outcome.proof?]

theorem Misses.lt_length {f : Formula} {goal : Goal} {positions n : Nat}
    (h : Misses f goal positions n) (hpositions : f.capacity ≤ positions) {q : Proof}
    (hq : isProof f goal q = true) : n < q.length := by
  obtain ⟨k, -, hle, hexact⟩ := exists_provesExactly_take hq
  have hshape := (shape_of_provesExactly hexact).mono hpositions
  refine Nat.lt_of_not_le fun hshort => ?_
  have hfalse := h (q.take k) (by rw [List.length_take]; omega) hshape
  rw [hexact] at hfalse
  simp at hfalse

end Search

/-! ## The report -/

namespace Census

theorem maxLength_report (config : Config) (n : Nat) (goal : Goal) (valid : Nat)
    (outcomes : List (Formula × Outcome)) :
    (report config n goal valid outcomes).maxLength = config.maxLength := by
  refine List.foldlRecOn (motive := fun r : Report => r.maxLength = config.maxLength) outcomes _
    rfl ?_
  rintro r hr ⟨f, o⟩ -
  unfold Report.record
  dsimp only
  split <;> exact hr

theorem mem_holdouts_report {config : Config} {n : Nat} {goal : Goal} {valid : Nat}
    {search : Formula → Outcome} {fs : List Formula} {f : Formula} :
    f ∈ (report config n goal valid (fs.map fun f => (f, search f))).holdouts ↔
      f ∈ fs ∧ (search f).proof? = none := by
  have hentries : (report config n goal valid (fs.map fun f => (f, search f))).entries =
      fs.map fun f => ⟨f, (search f).proof?⟩ := by
    unfold report
    rw [(foldl_record _ _).2, List.map_map]
    rfl
  unfold Report.holdouts
  rw [hentries]
  simp [List.mem_filter]

theorem exists_runWith {config : Config} {n : Nat} (hmin : minSymbols ≤ n) (hmax : n ≤ maxVariables)
    (hslack : minSlack ≤ config.slack) (goal : Goal) (search : Formula → Outcome) :
    ∃ r, runWith search config n goal = .ok r ∧ r.maxLength = config.maxLength ∧
      ∀ f, f ∈ r.holdouts ↔
        f ∈ Survey.matching goal (Enumeration.formulas n config.slack) ∧
          (search f).proof? = none := by
  unfold runWith
  rw [Enumeration.new_eq_ok hmin hmax hslack]
  refine ⟨_, rfl, maxLength_report .., fun f => ?_⟩
  rw [mem_holdouts_report, (Survey.take_spec n config.slack goal).2]

/-- The holdouts are the formulas with the goal's value everywhere whose search was timed out or
could not find a proof at the positions that it was to look at. -/
theorem mem_holdouts_iff_misses (config : Config) (pool : PoolConfig) {n : Nat} (goal : Goal)
    (hmin : minSymbols ≤ n) (hmax : n ≤ maxVariables) (hslack : minSlack ≤ config.slack)
    {search : Formula → Outcome} (hsearch : ∀ f, Search.CanEnd config pool f goal (search f)) :
    ∃ r, runWith search config n goal = .ok r ∧ r.maxLength = config.maxLength ∧
      (∀ f, f ∈ r.holdouts ↔
        (∃ body : List Symbol, body.length = n ∧ Formula.ofBody body config.slack = .ok f ∧
          ∀ bits, bits < Nat.pow 2 maxVariables → Body.evaluate body bits = some goal.value) ∧
        (search f = .timedOut ∨
          Search.Misses f goal (config.positionsFor f) config.maxLength)) ∧
      (∀ f ∈ r.holdouts, search f ≠ .timedOut → f.capacity ≤ config.positionsFor f →
        ∀ q, isProof f goal q = true → r.maxLength < q.length) ∧
      (Search.timeout? config pool = none → ∀ f, search f ≠ .timedOut) := by
  obtain ⟨r, hrun, hmaxLength, hholdouts⟩ := exists_runWith hmin hmax hslack goal search
  refine ⟨r, hrun, hmaxLength, ?_, ?_, ?_⟩
  · intro f
    rw [hholdouts, mem_matching_iff hmin, (hsearch f).proof?_eq_none_iff]
  · intro f hf htimedOut hpositions q hq
    rw [hmaxLength]
    rcases (hsearch f).proof?_eq_none_iff.mp ((hholdouts f).mp hf).2 with hout | hmisses
    · exact absurd hout htimedOut
    · exact hmisses.lt_length hpositions hq
  · intro htimeout f hout
    rcases (hsearch f).eq_answer with hanswer | ⟨-, hsome⟩
    · exact Search.answer_ne_timedOut _ _ _ _ _ (hanswer.symm.trans hout)
    · simp [htimeout] at hsome

theorem mem_holdouts_iff_misses_three :
    ∃ r f, run { maxLength := 1 } {} 3 .contradiction = .ok r ∧ f ∈ r.holdouts ∧
      f.body = [.conj, .fls, .x 0] ∧ ∀ q, isProof f .contradiction q = true → 1 < q.length := by
  obtain ⟨r, hrun, hmaxLength, -, hreal, hnever⟩ :=
    mem_holdouts_iff_misses { maxLength := 1 } {} (n := 3) .contradiction (by decide) (by decide)
      (Nat.le_refl 7) fun f => Search.canEnd_runStill _ _ f .contradiction
  have hread : (run { maxLength := 1 } {} 3 .contradiction).map
      (fun r => r.holdouts.map Formula.body) = .ok [[.conj, .fls, .x 0]] := by decide +kernel
  have hok : run { maxLength := 1 } {} 3 .contradiction = .ok r := hrun
  rw [hok, Except.map, Except.ok.injEq] at hread
  obtain ⟨f, hf, hbody⟩ : ∃ f ∈ r.holdouts, f.body = [.conj, .fls, .x 0] := by
    rw [← List.mem_map, hread]
    exact List.mem_singleton_self _
  rw [hmaxLength] at hreal
  exact ⟨r, f, hok, hf, hbody, hreal f hf (hnever rfl f) (Nat.le_refl _)⟩

theorem mem_holdouts_of_ofBody (config : Config) (pool : PoolConfig) (goal : Goal)
    {body : List Symbol} {f : Formula} (hf : Formula.ofBody body config.slack = .ok f)
    (hmin : minSymbols ≤ body.length) (hmax : body.length ≤ maxVariables)
    (hfits : (f.classify goal).fits goal = true)
    (hproof : (Search.runStill config pool f goal).outcome.proof? = none) :
    ∃ r, run config pool body.length goal = .ok r ∧ r.maxLength = config.maxLength ∧
      f ∈ r.holdouts := by
  have hslack := (Formula.ofBody_eq_ok_iff.mp hf).1
  obtain ⟨r, hrun, hmaxLength, hholdouts⟩ := exists_runWith hmin hmax hslack goal
    fun f => (Search.runStill config pool f goal).outcome
  refine ⟨r, hrun, hmaxLength, (hholdouts f).mpr ⟨?_, hproof⟩⟩
  exact List.mem_filter.mpr ⟨(Enumeration.mem_formulas_iff hmin).mpr ⟨body, rfl, hf⟩, hfits⟩

/-- A timeout, or a limit on positions, leaves formulas with a short enough proof among the
holdouts. -/
theorem isProof_of_mem_holdouts :
    (∃ r f q, run { maxLength := 2, timeout := some .zero } {} 4 .tautology = .ok r ∧
      f ∈ r.holdouts ∧ isProof f .tautology q = true ∧ q.length = r.maxLength) ∧
    ∃ r f q, run { maxLength := 2, positionLimit := some 0 } {} 3 .tautology = .ok r ∧
      f ∈ r.holdouts ∧ isProof f .tautology q = true ∧ q.length = r.maxLength := by
  have hneg : Formula.ofBody [.disj, .neg, .x 0, .tru] 7 =
      .ok (.ofParts [.disj, .neg, .x 0, .tru] 7 1) := by decide +kernel
  have htrue : Formula.ofBody [.disj, .tru, .x 0] 7 = .ok (.ofParts [.disj, .tru, .x 0] 7 1) := by
    decide +kernel
  constructor
  · -- The deadline has passed before the first candidate that starts with a substitution.
    obtain ⟨r, hrun, hmaxLength, hmem⟩ :=
      mem_holdouts_of_ofBody { maxLength := 2, timeout := some .zero } {} .tautology hneg
        (by decide) (by decide) (by decide +kernel) (by decide +kernel)
    exact ⟨r, _, [⟨.substitution, 1⟩, ⟨.domination, 0⟩], hrun, hmem, by decide +kernel,
      hmaxLength.symm⟩
  · -- Without positions there are no candidates with more than one step.
    obtain ⟨r, hrun, hmaxLength, hmem⟩ :=
      mem_holdouts_of_ofBody { maxLength := 2, positionLimit := some 0 } {} .tautology htrue
        (by decide) (by decide) (by decide +kernel) (by decide +kernel)
    exact ⟨r, _, [⟨.commutative, 0⟩, ⟨.domination, 0⟩], hrun, hmem, by decide +kernel,
      hmaxLength.symm⟩

end Census

end LawProof
