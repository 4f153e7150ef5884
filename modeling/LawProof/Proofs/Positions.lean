import LawProof.Proofs.Holdouts

/-!
# The limit on positions

The limit sets the sizes of the wheels, and so the number of every candidate, but not the order of
two candidates that are within it. A candidate that finishes stays inside the body at every step. So
a limit that leaves out no cell of the body makes no difference to the outcome of a search, and with
a greater limit a search finds a proof that is at least as short.
-/

namespace LawProof

open Candidate (Shape)

theorem Step.Before.asymm {s t : Step} (h : s.Before t) : ¬t.Before s := by
  unfold Step.Before at *
  omega

namespace Candidates

variable {start : State} {goal : Goal} {length positions more : Nat}

theorem first?_all_congr
    (h : ∀ p, start.finishes goal p = true → (Shape positions p ↔ Shape more p)) :
    (all length positions).first? start goal = (all length more).first? start goal := by
  cases hfirst : (all length positions).first? start goal with
  | none =>
    rw [first?_all_eq_none_iff] at hfirst
    refine (first?_all_eq_none_iff.mpr ?_).symm
    intro p hlength hshape
    by_contra hfinishes
    rw [Bool.not_eq_false] at hfinishes
    have := hfirst p hlength ((h p hfinishes).mpr hshape)
    simp [hfinishes] at this
  | some p =>
    obtain ⟨hlength, hshape, hfinishes, hleast⟩ := first?_all_eq_some hfirst
    have hmore := (h p hfinishes).mp hshape
    cases hsecond : (all length more).first? start goal with
    | none =>
      have := first?_all_eq_none_iff.mp hsecond p hlength hmore
      simp [hfinishes] at this
    | some q =>
      obtain ⟨hqlength, hqshape, hqfinishes, hqleast⟩ := first?_all_eq_some hsecond
      -- Each of the two comes first among those that finish.
      rcases hleast q hqlength ((h q hqfinishes).mpr hqshape) hqfinishes with heq | hlex
      · rw [heq]
      · rcases hqleast p hlength hmore hfinishes with heq | hback
        · rw [heq]
        · exact absurd hback (List.lex_asymm Step.Before.asymm hlex)

end Candidates

namespace Search

variable {start : State} {goal : Goal} {positions more : Nat}

theorem answer_congr
    (h : ∀ p, start.finishes goal p = true → (Shape positions p ↔ Shape more p))
    (count length : Nat) :
    answer start goal positions count length = answer start goal more count length :=
  answer_eq_of_first?_eq (fun _ => Candidates.first?_all_congr h) count length

theorem exists_answer_of_le (hle : positions ≤ more) {n : Nat} {p : Proof}
    (h : answer start goal positions n 1 = .proved p) :
    ∃ q, answer start goal more n 1 = .proved q ∧ q.length ≤ p.length := by
  rcases answer_spec start goal positions n 1 with
    ⟨m, p', hpos, hlt, hp, -, hanswer⟩ | ⟨-, hanswer⟩
  · rw [hanswer, Outcome.proved.injEq] at h
    subst h
    obtain ⟨hlength, hshape, hfinishes, -⟩ := Candidates.first?_all_eq_some hp
    have hsome : (Candidates.all m more).first? start goal ≠ none := by
      intro hnone
      have := Candidates.first?_all_eq_none_iff.mp hnone p' hlength (hshape.mono hle)
      simp [hfinishes] at this
    rcases answer_spec start goal more n 1 with
      ⟨m', q, -, -, hq, hbefore, hanswer'⟩ | ⟨hnone, -⟩
    · refine ⟨q, hanswer', ?_⟩
      rw [length_of_first? hq, hlength]
      exact Nat.le_of_not_lt fun hm => hsome (hbefore m hpos hm)
    · exact absurd (hnone m hpos hlt) hsome
  · rw [hanswer] at h
    simp at h

end Search

namespace Sequential

/-- How a search alone ends that has no deadline and this limit on positions. -/
def outcomeWithin (limit : Option Nat) (config : Config) (f : Formula) (goal : Goal) : Outcome :=
  (search .never { config with positionLimit := limit } f goal).outcome

theorem outcomeWithin_eq (limit : Option Nat) (config : Config) (f : Formula) (goal : Goal) :
    outcomeWithin limit config f goal =
      Search.answer (.ofFormula f) goal (limit.getD f.capacity) config.maxLength 1 :=
  outcome_never ..

/-- All limits from one below the capacity on lead to the outcome of a search without a limit, and a
greater limit never leads to a longer proof. -/
theorem outcomeWithin_limit (config : Config) (f : Formula) (goal : Goal) :
    (∀ limit, f.capacity - 1 ≤ limit →
        outcomeWithin (some limit) config f goal = outcomeWithin none config f goal) ∧
      (∀ limit more p, limit ≤ more → outcomeWithin (some limit) config f goal = .proved p →
        ∃ q, outcomeWithin (some more) config f goal = .proved q ∧ q.length ≤ p.length) ∧
      ∀ limit, outcomeWithin limit config f goal ≠ .timedOut := by
  simp only [outcomeWithin_eq, Option.getD_some, Option.getD_none]
  refine ⟨?_, ?_, fun limit => Search.answer_ne_timedOut _ _ _ _ _⟩
  · intro limit hlimit
    apply Search.answer_congr
    intro p hfinishes
    have hshape := shape_pred_of_provesExactly (f := f) hfinishes
    exact iff_of_true (hshape.mono hlimit) (hshape.mono (Nat.sub_le ..))
  · intro limit more p hle hp
    exact Search.exists_answer_of_le hle hp

/-- Of three negations the innermost must go first, which a limit of 3 lets a search find. -/
theorem outcomeWithin_limit_three :
    ∃ f q, Formula.ofBody [.neg, .neg, .neg, .fls] 7 = .ok f ∧ f.capacity - 1 ≤ 11 ∧
      outcomeWithin (some 3) { maxLength := 2 } f .tautology =
        .proved [⟨.commutative, 2⟩, ⟨.associative, 0⟩] ∧
      outcomeWithin (some 11) { maxLength := 2 } f .tautology = .proved q ∧
      outcomeWithin none { maxLength := 2 } f .tautology = .proved q ∧ q.length ≤ 2 := by
  have hf : Formula.ofBody [.neg, .neg, .neg, .fls] 7 =
      .ok (.ofParts [.neg, .neg, .neg, .fls] 7 0) := by cbv
  obtain ⟨hbeyond, hmono, -⟩ :=
    outcomeWithin_limit { maxLength := 2 } (.ofParts [.neg, .neg, .neg, .fls] 7 0) .tautology
  have hthree : outcomeWithin (some 3) { maxLength := 2 } (.ofParts [.neg, .neg, .neg, .fls] 7 0)
      .tautology = .proved [⟨.commutative, 2⟩, ⟨.associative, 0⟩] := by
    rw [outcomeWithin_eq]
    decide +kernel
  obtain ⟨q, hq, hle⟩ := hmono 3 11 _ (by decide) hthree
  have hnone := hbeyond 11 (by decide)
  exact ⟨_, q, hf, by decide, hthree, hq, hnone.symm.trans hq, hle⟩

end Sequential

end LawProof
