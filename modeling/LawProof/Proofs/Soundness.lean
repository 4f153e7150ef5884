import LawProof.Proofs.Agreement
import LawProof.Proofs.Checking
import LawProof.Proofs.Minimality
import LawProof.Proofs.ProofText

/-!
# What is proved is so

Every state of a replay is a tree that the table tracks, and it has the values of the formula that
was written. So the truth table agrees with a proof that a search has found, and the checker, which
looks at all this after every step, accepts it. It accepts the text of the proof as well, and on any
tape that is at least as long.
-/

namespace LawProof

theorem State.Faithful.holds_of_replay {s : State} {f : Formula} {goal : Goal} {i : Nat} {p : Proof}
    (h : s.Faithful f) (hp : (State.replay goal i s p).1 = .proved (i + p.length)) (bits : Nat) :
    f.holds bits = goal.value := by
  induction p generalizing i s with
  | nil => simp [State.replay_nil] at hp
  | cons step p ih =>
    obtain ⟨u, hu, ⟨hgoal, -⟩ | ⟨-, hrest⟩⟩ := proved_cons hp
    · exact (h.step? hu).holds_eq hgoal bits
    · exact ih (h.step? hu) hrest

/-! ## More room -/

theorem Formula.exists_ofBody_of_le {body : List Symbol} {slack k : Nat} {f : Formula}
    (hf : ofBody body slack = .ok f) (hk : slack ≤ k) :
    ∃ f', ofBody body k = .ok f' ∧ (State.ofFormula f).Roomier (.ofFormula f') := by
  obtain ⟨hmin, hforbidden, hsyntax, vars, hvars, rfl⟩ := ofBody_eq_ok_iff.mp hf
  refine ⟨ofParts body k vars,
    ofBody_eq_ok_iff.mpr ⟨by omega, hforbidden, hsyntax, vars, hvars, rfl⟩, ?_, ?_, ?_⟩
  · exact (body_ofParts ..).trans (body_ofParts ..).symm
  · show Bindings.ofBody _ = Bindings.ofBody _
    rw [body_ofParts, body_ofParts]
  · show (ofParts body slack vars).slack ≤ (ofParts body k vars).slack
    rw [slack_ofParts, slack_ofParts]
    exact hk

theorem State.Roomier.provesExactly {f f' : Formula} (h : (ofFormula f).Roomier (ofFormula f'))
    {goal : Goal} {p : Proof} (hp : provesExactly f goal p = true) :
    LawProof.provesExactly f' goal p = true :=
  beq_iff_eq.mpr (h.replay (beq_iff_eq.mp hp))

/-! ## Searches -/

theorem Candidate.Shape.position_lt {positions : Nat} {p : Proof} (h : Shape positions p)
    (hpos : 0 < positions) {step : Step} (hstep : step ∈ p) : step.position < positions := by
  induction h with
  | last _ =>
    rw [List.mem_singleton] at hstep
    rw [hstep]
    exact hpos
  | step hlt _ ih =>
    rcases List.mem_cons.mp hstep with rfl | hstep
    · exact hlt
    · exact ih hstep

theorem position_lt_of_provesExactly {f : Formula} {goal : Goal} {p : Proof}
    (h : provesExactly f goal p = true) {step : Step} (hstep : step ∈ p) :
    step.position < f.capacity :=
  (shape_of_provesExactly h).position_lt (Nat.zero_lt_of_lt f.stop_lt) hstep

namespace Search

/-- A search with these settings can end with this proof: with a deadline that may pass at any time
or without one, and for a pool in any interleaving. -/
def CanProve (config : Config) (pool : PoolConfig) (f : Formula) (goal : Goal) (p : Proof) : Prop :=
  (∃ expired, (run expired config pool f goal).outcome = .proved p) ∨
    ∃ timed, Pool.CanEnd timed config pool f goal (.proved p)

theorem provesExactly_of_answer {f : Formula} {goal : Goal} {positions count length : Nat}
    {p : Proof} (h : answer (.ofFormula f) goal positions count length = .proved p) :
    provesExactly f goal p = true := by
  rcases answer_spec (.ofFormula f) goal positions count length with
    ⟨m, q, -, -, hq, -, hanswer⟩ | ⟨-, hanswer⟩
  · rw [hanswer, Outcome.proved.injEq] at h
    rw [← h]
    obtain ⟨i, -, -, hfinishes, -⟩ := Candidates.first?_eq_some_iff.mp hq
    exact hfinishes
  · rw [hanswer] at h
    simp at h

theorem CanProve.provesExactly {config : Config} {pool : PoolConfig} {f : Formula} {goal : Goal}
    {p : Proof} (h : CanProve config pool f goal p) : provesExactly f goal p = true := by
  have hpool : ∀ timed, Pool.CanEnd timed config pool f goal (.proved p) →
      LawProof.provesExactly f goal p = true := by
    intro timed hp
    rcases Pool.Yields.eq_answer hp with heq | ⟨hout, -⟩
    · exact provesExactly_of_answer heq.symm
    · simp at hout
  rcases h with ⟨expired, hp⟩ | ⟨timed, hp⟩
  · unfold run at hp
    split at hp
    · rcases Sequential.outcome_eq expired config f goal with heq | ⟨hout, -⟩
      · exact provesExactly_of_answer (heq.symm.trans hp)
      · rw [hout] at hp
        simp at hp
    · apply hpool true
      rw [← hp]
      exact Pool.yields_searchAfter (fun _ _ => rfl) ..
  · exact hpool timed hp

/-- If a search of a written formula ends with a proof, the formula is of the goal's kind, and the
text of the proof is read and checked without a fault. -/
theorem classify_and_verify_of_canProve {body : List Symbol} {slack : Nat} {f : Formula}
    (hf : Formula.ofBody body slack = .ok f) {config : Config} {pool : PoolConfig} {goal : Goal}
    {p : Proof} (h : CanProve config pool f goal p) :
    (∀ g, f.classify g = .ofGoal goal) ∧
      (f.capacity ≤ Text.wordBound → ∀ k, slack ≤ k →
        ∃ f', Formula.ofBody body k = .ok f' ∧
          ∃ q, Proof.read p.text = .ok q ∧
            ∃ trace, verify f' q goal = .ok trace ∧ trace.steps.length = p.length) := by
  have hp := h.provesExactly
  refine ⟨?_, ?_⟩
  · apply Formula.classify_eq_ofGoal
    have hreplay : (State.replay goal 0 (.ofFormula f) p).1 = .proved (0 + p.length) := by
      rw [Nat.zero_add]
      exact beq_iff_eq.mp hp
    exact (State.faithful_ofFormula hf).holds_of_replay hreplay
  · intro hword k hk
    obtain ⟨f', hf', hroomier⟩ := Formula.exists_ofBody_of_le hf hk
    have hread : Proof.read p.text = .ok p := by
      apply Proof.read_text
      intro step hstep
      exact Nat.lt_of_lt_of_le (position_lt_of_provesExactly hp hstep) hword
    exact ⟨f', hf', p, hread,
      verify_eq_ok (State.faithful_ofFormula hf') (hroomier.provesExactly hp)⟩

theorem classify_and_verify_of_canProve_two :
    ∃ f, Formula.ofBody [.disj, .tru, .x 0] 7 = .ok f ∧
      CanProve { maxLength := 2 } {} f .tautology [⟨.commutative, 0⟩, ⟨.domination, 0⟩] ∧
      f.classify .contradiction = .tautology ∧
      ∃ f', Formula.ofBody [.disj, .tru, .x 0] 9 = .ok f' ∧
        ∃ q, Proof.read (Proof.text [⟨.commutative, 0⟩, ⟨.domination, 0⟩]) = .ok q ∧
          ∃ trace, verify f' q .tautology = .ok trace ∧ trace.steps.length = 2 := by
  have hf : Formula.ofBody [.disj, .tru, .x 0] 7 = .ok (.ofParts [.disj, .tru, .x 0] 7 1) := by cbv
  have h : CanProve { maxLength := 2 } {} (.ofParts [.disj, .tru, .x 0] 7 1) .tautology
      [⟨.commutative, 0⟩, ⟨.domination, 0⟩] := by
    refine Or.inl ⟨.never, ?_⟩
    show (Sequential.search .never _ _ _).outcome = _
    rw [Sequential.outcome_never]
    decide +kernel
  obtain ⟨hclassify, hverify⟩ := classify_and_verify_of_canProve hf h
  exact ⟨_, hf, h, hclassify .contradiction, hverify (by decide) 9 (by decide)⟩

end Search

end LawProof
