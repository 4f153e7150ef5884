import LawProof.Proofs.Soundness

/-!
# More room

A step that applies does the same on a longer tape. So a run in which every step applies goes
through the same formulas and tables there, a replay that is not rejected ends in the same way, and
a search finds a proof that is at least as short.
-/

namespace LawProof

namespace State

/-- The states that the steps lead to one after another, if all of them apply. -/
def states? : State → Proof → Option (List State)
  | _, [] => some []
  | s, step :: p => (s.step? step).bind fun u => (u.states? p).map (u :: ·)

/-- What a state has apart from its room. -/
def content (s : State) : List Symbol × Bindings := (s.formula.body, s.table)

theorem Roomier.content_eq {s u : State} (h : s.Roomier u) : u.content = s.content := by
  unfold content
  rw [h.body, h.table]

theorem Roomier.states? {s u : State} (h : s.Roomier u) {p : Proof} {ss : List State}
    (hs : s.states? p = some ss) :
    ∃ us, u.states? p = some us ∧ us.map content = ss.map content := by
  induction p generalizing s u ss with
  | nil =>
    simp only [State.states?, Option.some.injEq] at hs
    subst hs
    exact ⟨[], rfl, rfl⟩
  | cons step p ih =>
    simp only [State.states?, Option.bind_eq_some_iff, Option.map_eq_some_iff] at hs
    obtain ⟨s', hstep, rest, hrest, rfl⟩ := hs
    obtain ⟨u', hstep', h'⟩ := h.step? hstep
    obtain ⟨us, hus, hmap⟩ := ih h' hrest
    refine ⟨u' :: us, ?_, ?_⟩
    · simp only [State.states?, hstep', hus, Option.bind_some, Option.map_some]
    · simp only [List.map_cons, hmap, h'.content_eq]

theorem Roomier.replay_unfinished {s u : State} (h : s.Roomier u) {goal : Goal} {i : Nat}
    {p : Proof} (hp : (State.replay goal i s p).1 = .unfinished) :
    (State.replay goal i u p).1 = .unfinished := by
  induction p generalizing s u i with
  | nil => rfl
  | cons step p ih =>
    simp only [State.replay_cons] at hp ⊢
    split at hp
    · simp at hp
    · rename_i s' hs'
      obtain ⟨u', hu', h'⟩ := h.step? hs'
      split at hp
      · simp at hp
      · rename_i hgoal
        have hgoal' : ¬ u'.formula.isGoal goal = true := by
          unfold Formula.isGoal at hgoal ⊢
          rw [h'.body]
          exact hgoal
        simp only [hu', if_neg hgoal']
        exact ih h' hp

end State

theorem State.Roomier.searchUpTo {f f' : Formula} (h : (ofFormula f).Roomier (ofFormula f'))
    {goal : Goal} {n : Nat} {p : Proof} (hp : LawProof.searchUpTo f goal n = .proved p) :
    ∃ q, LawProof.searchUpTo f' goal n = .proved q ∧ q.length ≤ p.length := by
  have hshort := isShortest_searchUpTo f goal n
  rw [hp] at hshort
  obtain ⟨hle, hproof, -⟩ := hshort
  obtain ⟨m, hm⟩ := isProof_iff.mp hproof
  have hproof' : isProof f' goal p = true := isProof_iff.mpr ⟨m, h.replay hm⟩
  obtain ⟨q, hq⟩ := exists_proved_of_isProof hproof' hle
  have hshort' := isShortest_searchUpTo f' goal n
  rw [hq] at hshort'
  exact ⟨q, hq, hshort'.2.2 p hproof'⟩

/-- What applies, is proved or is found with some slack, is so with any greater one. -/
theorem Formula.ofBody_with_more_slack {body : List Symbol} {k k' : Nat} {f : Formula}
    (hf : ofBody body k = .ok f) (hk : k ≤ k') :
    ∃ f', ofBody body k' = .ok f' ∧
      (∀ p ss, (State.ofFormula f).states? p = some ss →
        ∃ us, (State.ofFormula f').states? p = some us ∧
          us.map State.content = ss.map State.content) ∧
      (∀ goal p, (∀ n, replay f goal p = .proved n → replay f' goal p = .proved n) ∧
        (replay f goal p = .unfinished → replay f' goal p = .unfinished)) ∧
      ∀ goal n p, searchUpTo f goal n = .proved p →
        ∃ q, searchUpTo f' goal n = .proved q ∧ q.length ≤ p.length := by
  obtain ⟨f', hf', h⟩ := exists_ofBody_of_le hf hk
  refine ⟨f', hf', fun p ss hs => h.states? hs, ?_, fun goal n p hp => h.searchUpTo hp⟩
  exact fun goal p => ⟨fun n hn => h.replay hn, fun hn => h.replay_unfinished hn⟩

theorem Formula.ofBody_with_more_slack_two :
    ∃ f f', ofBody [.disj, .tru, .x 0] 7 = .ok f ∧ ofBody [.disj, .tru, .x 0] 9 = .ok f' ∧
      (∃ ss us, (State.ofFormula f).states? [⟨.absorptionOr, 2⟩, ⟨.idempotentOr, 1⟩] = some ss ∧
        (State.ofFormula f').states? [⟨.absorptionOr, 2⟩, ⟨.idempotentOr, 1⟩] = some us ∧
        us.map State.content = ss.map State.content) ∧
      replay f' .tautology [⟨.commutative, 0⟩, ⟨.domination, 0⟩] = .proved 2 ∧
      replay f' .tautology [⟨.commutative, 0⟩, ⟨.absorptionOr, 1⟩] = .unfinished ∧
      ∃ q, searchUpTo f' .tautology 2 = .proved q ∧ q.length ≤ 2 := by
  have hf : ofBody [.disj, .tru, .x 0] 7 = .ok (.ofParts [.disj, .tru, .x 0] 7 1) := by cbv
  obtain ⟨f', hf', hstates, hreplay, hsearch⟩ := ofBody_with_more_slack hf (by decide : 7 ≤ 9)
  obtain ⟨ss, hss⟩ : ∃ ss, (State.ofFormula (.ofParts [.disj, .tru, .x 0] 7 1)).states?
      [⟨.absorptionOr, 2⟩, ⟨.idempotentOr, 1⟩] = some ss :=
    Option.isSome_iff_exists.mp (by decide)
  obtain ⟨us, hus, hmap⟩ := hstates _ ss hss
  obtain ⟨hproved, -⟩ := hreplay .tautology [⟨.commutative, 0⟩, ⟨.domination, 0⟩]
  obtain ⟨-, hunfinished⟩ := hreplay .tautology [⟨.commutative, 0⟩, ⟨.absorptionOr, 1⟩]
  refine ⟨_, f', hf, hf', ⟨ss, us, hss, hus, hmap⟩, hproved 2 (by decide), hunfinished (by decide),
    ?_⟩
  apply hsearch .tautology 2 [⟨.commutative, 0⟩, ⟨.domination, 0⟩]
  rw [searchUpTo_eq]
  decide +kernel

end LawProof
