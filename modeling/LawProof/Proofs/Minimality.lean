import LawProof.Proofs.Edits
import LawProof.Proofs.Scanning

/-!
# Shortest proofs

The candidates of a search are not all proofs: the last step is always at position 0 and never a
substitution, and positions are below the capacity of the tape. No step that is left out could have
been part of a shortest proof. So the search finds one if there is one, and then the first.
-/

namespace LawProof

open Candidate (Shape)

/-! ## The last step -/

theorem Law.Rewrites.substitution_ne_constant {t t' : Bindings} {old new : List Symbol}
    (h : Law.substitution.Rewrites t old new t') {s : Symbol} (hs : s.isConstant = true) :
    new ≠ [s] := by
  intro hnew
  cases h with
  | rule hr _ => simp [Law.rules] at hr
  | collapse _ =>
    rw [← (List.cons.inj hnew).1] at hs
    simp [Symbol.isConstant] at hs
  | @spellOut v d _ =>
    have hop : d.operator = s := (List.cons.inj hnew).1
    rw [← hop] at hs
    cases d <;> simp [Definition.operator, Symbol.isConstant] at hs

theorem State.Steps.last {s u : State} {law : Law} {position : Nat} {goal : Goal}
    (h : s.Steps u law position) (hgoal : u.formula.isGoal goal = true) :
    position = 0 ∧ law ≠ .substitution := by
  obtain ⟨old, new, rest, -, hafter, hr⟩ := h.replaced
  have hbody : s.formula.body.take position ++ new ++ rest = [goal.symbol] := by
    rw [← hafter]
    exact beq_iff_eq.mp hgoal
  have hlen := congrArg List.length hbody
  have hpos := List.length_pos_iff.mpr hr.new_ne_nil
  simp only [List.length_append, List.length_singleton] at hlen
  refine ⟨?_, ?_⟩
  · have hinside := h.inside
    rw [List.length_take, s.formula.length_body] at hlen
    omega
  · rintro rfl
    have hconst : goal.symbol.isConstant = true := by cases goal <;> rfl
    apply hr.substitution_ne_constant hconst
    rw [List.length_eq_zero_iff.mp (by omega : (s.formula.body.take position).length = 0),
      List.length_eq_zero_iff.mp (by omega : rest.length = 0)] at hbody
    simpa using hbody

/-! ## Replays -/

theorem State.proved_cons {goal : Goal} {i : Nat} {s : State} {step : Step} {p : Proof}
    (h : (State.replay goal i s (step :: p)).1 = .proved (i + (step :: p).length)) :
    ∃ u, s.step? step = some u ∧
      (u.formula.isGoal goal = true ∧ p = [] ∨
        u.formula.isGoal goal = false ∧
          (State.replay goal (i + 1) u p).1 = .proved (i + 1 + p.length)) := by
  simp only [State.replay_cons] at h
  split at h
  · simp at h
  · rename_i u hu
    refine ⟨u, hu, ?_⟩
    split at h
    · rename_i hgoal
      rw [ReplayEnd.proved.injEq, List.length_cons] at h
      exact Or.inl ⟨hgoal, List.length_eq_zero_iff.mp (by omega)⟩
    · rename_i hgoal
      rw [List.length_cons, Nat.add_comm p.length, ← Nat.add_assoc] at h
      exact Or.inr ⟨Bool.eq_false_iff.mpr hgoal, h⟩

theorem State.shape_of_replay {goal : Goal} {i : Nat} {s : State} {p : Proof}
    (h : (State.replay goal i s p).1 = .proved (i + p.length)) :
    Shape (s.formula.capacity - 1) p := by
  -- The last cell of the tape is never part of the body, so no step is made there.
  induction p generalizing i s with
  | nil => simp [State.replay_nil] at h
  | cons step p ih =>
    obtain ⟨u, hu, ⟨hgoal, rfl⟩ | ⟨-, hrest⟩⟩ := State.proved_cons h
    · -- A numbered proof ends with a law at position 0 that is not a substitution.
      obtain ⟨hpos, hlaw⟩ := (step?_eq_some hu).last hgoal
      obtain ⟨law, position⟩ := step
      cases hpos
      exact .last hlaw
    · have hstep := step?_eq_some hu
      have hcap : step.position < s.formula.capacity - 1 :=
        Nat.lt_of_lt_of_le hstep.inside (Nat.le_sub_one_of_lt s.formula.stop_lt)
      exact .step hcap (hstep.capacity ▸ ih hrest)

theorem shape_pred_of_provesExactly {f : Formula} {goal : Goal} {p : Proof}
    (h : provesExactly f goal p = true) : Shape (f.capacity - 1) p := by
  have hreplay : (State.replay goal 0 (.ofFormula f) p).1 = .proved (0 + p.length) := by
    rw [Nat.zero_add]
    exact beq_iff_eq.mp h
  exact State.shape_of_replay hreplay

theorem shape_of_provesExactly {f : Formula} {goal : Goal} {p : Proof}
    (h : provesExactly f goal p = true) : Shape f.capacity p :=
  (shape_pred_of_provesExactly h).mono (Nat.sub_le ..)

theorem State.replay_take {goal : Goal} {i n : Nat} {s : State} {p : Proof}
    (h : (State.replay goal i s p).1 = .proved n) :
    ∃ k, n = i + k ∧ 1 ≤ k ∧ k ≤ p.length ∧ (State.replay goal i s (p.take k)).1 = .proved n := by
  induction p generalizing i s with
  | nil => simp [State.replay_nil] at h
  | cons step p ih =>
    simp only [State.replay_cons] at h
    split at h
    · simp at h
    · rename_i u hu
      split at h
      · rename_i hgoal
        refine ⟨1, (ReplayEnd.proved.inj h).symm, Nat.le_refl 1, Nat.le_add_left .., ?_⟩
        simp only [List.take_succ_cons, List.take_zero, State.replay_cons, hu, hgoal, if_true]
        exact h
      · rename_i hgoal
        obtain ⟨k, hn, hpos, hle, htake⟩ := ih h
        refine ⟨k + 1, by omega, by omega, by simpa using hle, ?_⟩
        simp only [List.take_succ_cons, State.replay_cons, hu, hgoal]
        exact htake

theorem isProof_iff {f : Formula} {goal : Goal} {p : Proof} :
    isProof f goal p = true ↔ ∃ n, replay f goal p = .proved n := by
  unfold isProof
  split
  · rename_i n hn
    simp [hn]
  · rename_i hne
    constructor
    · simp
    · rintro ⟨n, hn⟩
      exact absurd hn (hne n)

theorem isProof_of_provesExactly {f : Formula} {goal : Goal} {p : Proof}
    (h : provesExactly f goal p = true) : isProof f goal p = true :=
  isProof_iff.mpr ⟨_, beq_iff_eq.mp h⟩

theorem exists_provesExactly_take {f : Formula} {goal : Goal} {q : Proof}
    (h : isProof f goal q = true) :
    ∃ k, 1 ≤ k ∧ k ≤ q.length ∧ provesExactly f goal (q.take k) = true := by
  obtain ⟨n, hn⟩ := isProof_iff.mp h
  obtain ⟨k, rfl, hpos, hle, htake⟩ := State.replay_take hn
  refine ⟨k, hpos, hle, beq_iff_eq.mpr ?_⟩
  rw [List.length_take, Nat.min_eq_left hle]
  rw [Nat.zero_add] at htake
  exact htake

/-! ## Searches -/

namespace Candidates

variable {start : State} {goal : Goal} {length positions : Nat} {p : Proof}

theorem first?_all_eq_none_iff :
    (all length positions).first? start goal = none ↔
      ∀ p, p.length = length → Shape positions p → start.finishes goal p = false := by
  unfold first?
  rw [List.find?_eq_none]
  constructor
  · intro h p hlength hshape
    exact Bool.eq_false_iff.mpr (h p (mem_toList_all.mpr ⟨hlength, hshape⟩))
  · intro h p hp
    obtain ⟨hlength, hshape⟩ := mem_toList_all.mp hp
    exact Bool.eq_false_iff.mp (h p hlength hshape)

theorem first?_all_eq_some (h : (all length positions).first? start goal = some p) :
    p.length = length ∧ Shape positions p ∧ start.finishes goal p = true ∧
      ∀ q : Proof, q.length = length → Shape positions q → start.finishes goal q = true →
        p = q ∨ List.Lex Step.Before p q := by
  unfold first? at h
  obtain ⟨hlength, hshape⟩ := mem_toList_all.mp (List.mem_of_find?_eq_some h)
  obtain ⟨hfinishes, before, behind, hlist, hbefore⟩ := List.find?_eq_some_iff_append.mp h
  refine ⟨hlength, hshape, hfinishes, ?_⟩
  intro q hq hqshape hqfinishes
  have hmem := mem_toList_all.mpr ⟨hq, hqshape⟩
  have hsorted := pairwise_toList_all length positions
  rw [hlist, List.mem_append, List.mem_cons] at hmem
  rw [hlist, List.pairwise_append, List.pairwise_cons] at hsorted
  rcases hmem with hmem | rfl | hmem
  · have := hbefore q hmem
    simp [hqfinishes] at this
  · exact Or.inl rfl
  · exact Or.inr (hsorted.2.1.1 q hmem)

end Candidates

theorem first?_of_provesExactly {f : Formula} {goal : Goal} {q : Proof}
    (h : provesExactly f goal q = true) :
    ∃ p, (Candidates.all q.length f.capacity).first? (.ofFormula f) goal = some p ∧
      (p = q ∨ List.Lex Step.Before p q) := by
  have hshape := shape_of_provesExactly h
  rw [provesExactly_eq] at h
  cases hfirst : (Candidates.all q.length f.capacity).first? (.ofFormula f) goal with
  | none =>
    have := Candidates.first?_all_eq_none_iff.mp hfirst q rfl hshape
    simp [h] at this
  | some p =>
    obtain ⟨-, -, -, hleast⟩ := Candidates.first?_all_eq_some hfirst
    exact ⟨p, rfl, hleast q rfl hshape h⟩

theorem length_of_first? {start : State} {goal : Goal} {length positions : Nat} {p : Proof}
    (h : (Candidates.all length positions).first? start goal = some p) : p.length = length :=
  (Candidates.first?_all_eq_some h).1

theorem exists_first?_of_isProof {f : Formula} {goal : Goal} {q : Proof}
    (h : isProof f goal q = true) :
    ∃ k, 1 ≤ k ∧ k ≤ q.length ∧
      (Candidates.all k f.capacity).first? (.ofFormula f) goal ≠ none := by
  obtain ⟨k, hpos, hle, hexact⟩ := exists_provesExactly_take h
  obtain ⟨p, hp, -⟩ := first?_of_provesExactly hexact
  rw [List.length_take, Nat.min_eq_left hle] at hp
  refine ⟨k, hpos, hle, ?_⟩
  rw [hp]
  simp

theorem exists_proved_of_isProof {f : Formula} {goal : Goal} {q : Proof}
    (h : isProof f goal q = true) {n : Nat} (hn : q.length ≤ n) :
    ∃ p, searchUpTo f goal n = .proved p := by
  rw [searchUpTo_eq]
  rcases Search.answer_spec (.ofFormula f) goal f.capacity n 1 with
    ⟨m, p, -, -, -, -, hanswer⟩ | ⟨hnone, -⟩
  · exact ⟨p, hanswer⟩
  · obtain ⟨k, hpos, hle, hsome⟩ := exists_first?_of_isProof h
    exact absurd (hnone k hpos (by omega)) hsome

/-- `IsShortest f goal n p?`: a proof of at most `n` steps than which none is shorter, or none if
all proofs are longer than `n`. -/
def IsShortest (f : Formula) (goal : Goal) (n : Nat) : Option Proof → Prop
  | some p => p.length ≤ n ∧ isProof f goal p = true ∧
    ∀ q, isProof f goal q = true → p.length ≤ q.length
  | none => ∀ q, isProof f goal q = true → n < q.length

theorem isShortest_searchUpTo (f : Formula) (goal : Goal) (n : Nat) :
    IsShortest f goal n (searchUpTo f goal n).proof? := by
  rw [searchUpTo_eq]
  rcases Search.answer_spec (.ofFormula f) goal f.capacity n 1 with
    ⟨m, p, -, hlt, hp, hbefore, hanswer⟩ | ⟨hnone, hanswer⟩
  · rw [hanswer]
    have hlen := length_of_first? hp
    obtain ⟨i, -, -, hfinishes, -⟩ := Candidates.first?_eq_some_iff.mp hp
    rw [← provesExactly_eq] at hfinishes
    refine ⟨by omega, isProof_of_provesExactly hfinishes, ?_⟩
    intro q hq
    obtain ⟨k, hpos, hle, hsome⟩ := exists_first?_of_isProof hq
    exact Nat.le_of_not_lt fun hshort => hsome (hbefore k hpos (by omega))
  · rw [hanswer]
    intro q hq
    obtain ⟨k, hpos, hle, hsome⟩ := exists_first?_of_isProof hq
    exact Nat.lt_of_not_le fun hshort => hsome (hnone k hpos (by omega))

/-- A search up to a length finds the first of the shortest proofs, if there is one of at most that
length. -/
theorem searchUpTo_spec (f : Formula) (goal : Goal) (n : Nat) :
    ((∃ p, searchUpTo f goal n = .proved p) ↔
        ∃ q : Proof, 1 ≤ q.length ∧ q.length ≤ n ∧ isProof f goal q = true) ∧
      (∀ p, searchUpTo f goal n = .proved p →
        (∀ q, isProof f goal q = true → p.length ≤ q.length) ∧
          provesExactly f goal p = true ∧
          ∀ q : Proof, q.length = p.length → provesExactly f goal q = true →
            p = q ∨ List.Lex Step.Before p q) ∧
      ((∀ p, searchUpTo f goal n ≠ .proved p) → searchUpTo f goal n = .notFound) := by
  rw [searchUpTo_eq]
  rcases Search.answer_spec (.ofFormula f) goal f.capacity n 1 with
    ⟨m, p, hle, hlt, hp, hbefore, hanswer⟩ | ⟨hnone, hanswer⟩
  · rw [hanswer]
    have hlen := length_of_first? hp
    obtain ⟨i, -, -, hfin, -⟩ := Candidates.first?_eq_some_iff.mp hp
    rw [← provesExactly_eq] at hfin
    refine ⟨⟨fun _ => ⟨p, by omega, by omega, isProof_of_provesExactly hfin⟩, fun _ => ⟨p, rfl⟩⟩,
      ?_, fun h => absurd rfl (h p)⟩
    intro p' hp'
    obtain rfl := Outcome.proved.inj hp'
    refine ⟨?_, hfin, ?_⟩
    · intro q hq
      obtain ⟨k, hpos, hk, hexact⟩ := exists_provesExactly_take hq
      obtain ⟨r, hr, -⟩ := first?_of_provesExactly hexact
      rw [List.length_take, Nat.min_eq_left hk] at hr
      rcases Nat.lt_or_ge k m with hkm | hkm
      · rw [hbefore k hpos hkm] at hr
        simp at hr
      · omega
    · intro q hq hexact
      obtain ⟨r, hr, hlex⟩ := first?_of_provesExactly hexact
      rw [hq, hlen, hp] at hr
      obtain rfl := Option.some.inj hr
      exact hlex
  · rw [hanswer]
    refine ⟨⟨by simp, ?_⟩, by simp, fun _ => rfl⟩
    rintro ⟨q, hpos, hqn, hq⟩
    obtain ⟨k, hk, hkq, hexact⟩ := exists_provesExactly_take hq
    obtain ⟨r, hr, -⟩ := first?_of_provesExactly hexact
    rw [List.length_take, Nat.min_eq_left hkq, hnone k hk (by omega)] at hr
    simp at hr

end LawProof
