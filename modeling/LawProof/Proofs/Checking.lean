import LawProof.Proof.Check
import LawProof.Proofs.Equations
import LawProof.Proofs.TruthTables

/-!
# The checker and the replay

The checker looks at the formula after every step, the replay at the goal alone. Every state on the
way is a tree that the table tracks, with the values of the formula that was written. So the checker
finds no fault in any of them, and what it says of a proof can be told from the end of the replay.
-/

namespace LawProof

open Body (varsOf)

namespace State

/-! ## The states of a replay -/

/-- The working formula is a tree that the table tracks, and has the values of `f`. -/
structure Faithful (s : State) (f : Formula) : Prop where
  tracked : s.Tracked
  tree : s.IsTree
  means : ∀ bits, s.Means bits (some [f.holds bits])

variable {s u : State} {f : Formula} {goal : Goal}

theorem faithful_ofFormula {body : List Symbol} {slack : Nat}
    (hf : Formula.ofBody body slack = .ok f) : (ofFormula f).Faithful f := by
  refine ⟨tracked_ofFormula hf, isTree_ofFormula hf, ?_⟩
  intro bits
  obtain ⟨hwritten, hbody⟩ := Formula.ofBody_eq_ok hf
  have hinputs : ∀ v ∈ varsOf body, v.isSynthetic = false :=
    fun v hv => hwritten.inputs v (Body.mem_varsOf.mp hv)
  refine ⟨_, Bindings.agrees_ofBody f.body bits, ?_⟩
  rw [← Body.value?_eq_some_iff, ← Formula.evaluate_of_ofBody hf, Body.evaluate_eq_under hinputs,
    ← hbody]
  rfl

theorem Faithful.step? {step : Step} (h : s.Faithful f) (hu : s.step? step = some u) :
    u.Faithful f := by
  have hstep := step?_eq_some hu
  exact ⟨h.tracked.steps hstep, h.tree.steps h.tracked.simple hstep,
    fun bits => (h.means bits).steps h.tracked hstep⟩

theorem Faithful.fault?_eq_none (h : s.Faithful f) (number : Nat) :
    Check.fault? f number s = none := by
  have hvalid : Body.isValid s.formula.body = true := by
    unfold Body.isValid
    rw [Body.checkSyntax_eq_ok_iff.mpr h.tree]
    rfl
  have hsame : Check.firstChange? f s = none := by
    apply leastBelow_eq_none
    intro bits
    rw [(h.means bits).evaluate_eq h.tracked]
    simp
  unfold Check.fault?
  simp [hvalid, hsame]

theorem Faithful.holds_eq (h : s.Faithful f) (hgoal : s.formula.isGoal goal = true) (bits : Nat) :
    f.holds bits = goal.value := by
  obtain ⟨ρ, -, hstack⟩ := h.means bits
  have hbody : s.formula.body = [goal.symbol] := beq_iff_eq.mp hgoal
  rw [hbody] at hstack
  cases goal <;> simpa [Goal.symbol, Symbol.constant, Goal.value, Body.stack, Body.push] using
    hstack.symm

/-! ## The trail -/

/-- The steps of a run, each with the formula that it leaves. -/
def trail (s : State) : Proof → List (Step × Formula)
  | [] => []
  | step :: p => (step, (s.attempt step).formula) :: (s.attempt step).trail p

theorem length_trail (s : State) (p : Proof) : (s.trail p).length = p.length := by
  induction p generalizing s with
  | nil => rfl
  | cons step p ih => simp [trail, ih]

theorem attempt_of_step? {step : Step} (h : s.step? step = some u) : s.attempt step = u := by
  unfold attempt
  rw [h]
  rfl

end State

/-! ## Agreement -/

namespace Check

/-- What the checker says of steps from `s` on, of which the first has the number `i`, when their
replay ends in this way. -/
def Reflects (goal : Goal) (i : Nat) (s : State) (p : Proof)
    (result : Except CheckError (List (Step × Formula))) : ReplayEnd → Prop
  | .rejected j => ∃ k step, j = i + k ∧ p[k]? = some step ∧
      result = .error (.lawMismatch (j + 1) step)
  | .proved n => n < i + p.length ∧ result = .error (.finishedEarly n goal) ∨
      n = i + p.length ∧ result = .ok (s.trail p)
  | .unfinished => result = .error (.incomplete (s.after p).formula goal)

theorem Reflects.cons {goal : Goal} {i : Nat} {s u : State} {step : Step} {p : Proof}
    {result : Except CheckError (List (Step × Formula))} {ending : ReplayEnd}
    (hstep : s.step? step = some u) (h : Reflects goal (i + 1) u p result ending) :
    Reflects goal i s (step :: p) (result.map ((step, u.formula) :: ·)) ending := by
  cases ending with
  | rejected j =>
    obtain ⟨k, later, rfl, hlater, rfl⟩ := h
    exact ⟨k + 1, later, by omega, by simpa using hlater, rfl⟩
  | proved n =>
    rcases h with ⟨hlt, rfl⟩ | ⟨rfl, rfl⟩
    · exact Or.inl ⟨by simp; omega, rfl⟩
    · refine Or.inr ⟨by simp; omega, ?_⟩
      rw [State.trail, State.attempt_of_step? hstep]
      rfl
  | unfinished =>
    obtain rfl := h
    show _ = Except.error _
    rw [State.after_cons, State.attempt_of_step? hstep]
    rfl

end Check

theorem State.Faithful.run_reflects {s : State} {f : Formula} {goal : Goal} {p : Proof} (i : Nat)
    (h : s.Faithful f) (hp : p = [] → s.formula.isGoal goal = false) :
    Check.Reflects goal i s p (Check.runBy .exact f goal (i + 1) s p)
      (State.replay goal i s p).1 := by
  induction p generalizing s i with
  | nil => simp [Check.runBy, State.replay_nil, Check.Reflects, hp rfl, State.after]
  | cons step p ih =>
    rw [Check.runBy, State.replay_cons]
    simp only [Engine.exact, State.take]
    cases hu : s.step? step with
    | none => exact ⟨0, step, rfl, rfl, rfl⟩
    | some u =>
      have hfaithful := h.step? hu
      simp only [hfaithful.fault?_eq_none]
      cases hgoal : u.formula.isGoal goal with
      | false =>
        simp only [Bool.false_and, Bool.false_eq_true, if_false]
        exact (ih (i + 1) hfaithful fun _ => hgoal).cons hu
      | true =>
        -- The replay ends here, and the checker too unless this was the last step.
        cases p with
        | nil =>
          refine Or.inr ⟨rfl, ?_⟩
          simp [Check.runBy, hgoal, Except.map, State.trail, State.attempt_of_step? hu]
        | cons next p => exact Or.inl ⟨by simp, by simp⟩

theorem verify_reflects {f : Formula} {p : Proof} (goal : Goal)
    (h : (State.ofFormula f).Faithful f) (hp : p ≠ []) :
    ∃ result, Check.Reflects goal 0 (.ofFormula f) p result (replay f goal p) ∧
      verify f p goal = result.map fun steps => ⟨f, goal, steps⟩ := by
  refine ⟨_, h.run_reflects 0 fun hnil => absurd hnil hp, ?_⟩
  unfold verify verifyBy
  simp [hp, Engine.exact]

theorem verify_eq_ok {f : Formula} {goal : Goal} {p : Proof} (h : (State.ofFormula f).Faithful f)
    (hp : provesExactly f goal p = true) :
    ∃ trace, verify f p goal = .ok trace ∧ trace.steps.length = p.length := by
  have hreplay : replay f goal p = .proved p.length := beq_iff_eq.mp hp
  have hne : p ≠ [] := by
    rintro rfl
    simp [replay, State.replay_nil] at hreplay
  obtain ⟨result, hreflects, hverify⟩ := verify_reflects goal h hne
  rw [hreplay] at hreflects
  rcases hreflects with ⟨hlt, -⟩ | ⟨-, rfl⟩
  · omega
  · exact ⟨_, hverify, State.length_trail ..⟩

end LawProof
