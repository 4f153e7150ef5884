import LawProof.Proofs.Candidates
import LawProof.Search.Sequential

/-!
# What a scan finds

A scan of a run of candidates gives the first one that finishes, unless it is broken off. In which
portions it goes through the run does not matter. So a search gives the first candidate of the
shortest length that has one, or it is cut short.
-/

namespace LawProof

/-- The last step of the proof, and none before it, leaves the goal's constant. -/
def State.finishes (s : State) (goal : Goal) (p : Proof) : Bool :=
  (State.replay goal 0 s p).1 == .proved p.length

theorem provesExactly_eq (f : Formula) (goal : Goal) (p : Proof) :
    provesExactly f goal p = (State.ofFormula f).finishes goal p := rfl

section

variable (start : State) (goal : Goal)

namespace Candidates

/-- The first candidate of a run that finishes. -/
def first? (c : Candidates) : Option Proof := c.toList.find? (start.finishes goal)

/-- None of the candidates before the `i`-th finishes. -/
def Clear (c : Candidates) (i : Nat) : Prop := ∀ k, k < i → start.finishes goal (c.get k) = false

theorem clear_zero (c : Candidates) : c.Clear start goal 0 :=
  fun k hk => absurd hk (Nat.not_lt_zero k)

variable {start goal} {c : Candidates}

theorem find?_portion_eq_some {i count : Nat} {p : Proof} (h : c.Clear start goal i)
    (hp : ((List.range' i count).map c.get).find? (start.finishes goal) = some p) :
    ∃ k, k < i + count ∧ i ≤ k ∧ c.get k = p ∧ start.finishes goal p = true ∧
      c.Clear start goal k := by
  rw [List.find?_eq_some_iff_getElem] at hp
  obtain ⟨hfin, k, hk, hget, hbefore⟩ := hp
  rw [List.length_map, List.length_range'] at hk
  simp only [List.getElem_map, List.getElem_range', Nat.one_mul, Bool.not_eq_true'] at hget hbefore
  refine ⟨i + k, by omega, by omega, hget, hfin, ?_⟩
  intro j hj
  rcases Nat.lt_or_ge j i with hlt | hge
  · exact h j hlt
  · have := hbefore (j - i) (by omega)
    rwa [Nat.add_sub_cancel' hge] at this

theorem find?_portion_eq_none {i count : Nat} (h : c.Clear start goal i)
    (hp : ((List.range' i count).map c.get).find? (start.finishes goal) = none) :
    c.Clear start goal (i + count) := by
  rw [List.find?_eq_none] at hp
  intro j hj
  rcases Nat.lt_or_ge j i with hlt | hge
  · exact h j hlt
  · have hmem : c.get j ∈ (List.range' i count).map c.get := by
      apply List.mem_map_of_mem
      rw [List.mem_range'_1]
      omega
    simpa using hp _ hmem

theorem first?_eq_some_iff {p : Proof} :
    c.first? start goal = some p ↔
      ∃ i, i < c.size ∧ c.get i = p ∧ start.finishes goal p = true ∧ c.Clear start goal i := by
  unfold first?
  rw [toList_eq]
  constructor
  · intro h
    obtain ⟨k, hk, -, hget⟩ := find?_portion_eq_some (clear_zero _ _ _) h
    exact ⟨k, by omega, hget⟩
  · rintro ⟨i, hi, hget, hfin, hclear⟩
    rw [List.find?_eq_some_iff_getElem]
    refine ⟨hfin, i, by simpa using hi, by simpa using hget, ?_⟩
    intro j hj
    simpa using hclear j hj

theorem first?_eq_none_iff : c.first? start goal = none ↔ c.Clear start goal c.size := by
  unfold first?
  rw [toList_eq]
  constructor
  · intro h
    have := find?_portion_eq_none (clear_zero _ _ _) h
    rwa [Nat.zero_add] at this
  · intro h
    rw [List.find?_eq_none]
    intro p hp
    obtain ⟨k, hk, rfl⟩ := List.mem_map.mp hp
    rw [List.mem_range'_1, Nat.zero_add] at hk
    simp [h k hk.2]

end Candidates

/-! ## Scans -/

namespace Scan

variable {start goal} {c : Candidates}

theorem sweep_fst (start : State) (goal : Goal) (c : Candidates) (count i : Nat) (t : Tally) :
    (sweep start goal c count i t).1 =
      ((List.range' i count).map c.get).find? (start.finishes goal) := by
  induction count generalizing i t with
  | zero => rfl
  | succ count ih =>
    rw [List.range'_succ, List.map_cons, List.find?_cons]
    have hfin : start.finishes goal (c.get i) =
        decide ((State.replay goal 0 start (c.get i)).1 = .proved (c.get i).length) := rfl
    simp only [sweep]
    cases hr : (State.replay goal 0 start (c.get i)).1 with
    | proved n =>
      by_cases hn : n = (c.get i).length
      · simp [hfin, hr, hn]
      · simp [hfin, hr, hn, ih]
    | rejected n => simp [hfin, hr, ih]
    | unfinished => simp [hfin, hr, ih]

/-- What it means that a scan pauses. -/
def Pause.Tells (start : State) (goal : Goal) (c : Candidates) : Pause → Prop
  | .found p => c.first? start goal = some p
  | .exhausted => c.first? start goal = none
  | .before i => c.Clear start goal i

theorem advance_tells {i : Nat} (t : Tally) (h : c.Clear start goal i) :
    (advance start goal c i t).1.Tells start goal c := by
  have hfst := sweep_fst start goal c (min (quota i) (c.size - i)) i t
  unfold advance
  cases hs : sweep start goal c (min (quota i) (c.size - i)) i t with
  | mk found u =>
    rw [hs] at hfst
    cases found with
    | some p =>
      obtain ⟨k, hlt, hle, hk⟩ := Candidates.find?_portion_eq_some h hfst.symm
      exact Candidates.first?_eq_some_iff.mpr ⟨k, by omega, hk⟩
    | none =>
      have hclear := Candidates.find?_portion_eq_none h hfst.symm
      dsimp only
      split
      · rename_i hlt
        rw [Nat.min_eq_left (by omega)] at hclear
        exact hclear
      · apply Candidates.first?_eq_none_iff.mpr
        intro k hk
        exact hclear k (by omega)

end Scan

/-- What the end of a scan means. -/
def ScanEnd.Tells (expired : Deadline) (c : Candidates) : ScanEnd → Prop
  | .found p => c.first? start goal = some p
  | .exhausted => c.first? start goal = none
  | .interrupted => ∃ n, expired n = true

variable {start goal}

theorem Scan.runFrom_tells (expired : Deadline) {c : Candidates} {i : Nat} (t : Tally)
    (h : c.Clear start goal i) :
    (runFrom expired start goal c i t).1.Tells start goal expired c := by
  fun_induction runFrom expired start goal c i t with
  | case1 i t p u hadvance =>
    have := advance_tells t h
    rwa [hadvance] at this
  | case2 i t u hadvance =>
    have := advance_tells t h
    rwa [hadvance] at this
  | case3 i t j u hadvance hexpired => exact ⟨_, hexpired⟩
  | case4 i t j u hadvance _ ih =>
    have := advance_tells t h
    rw [hadvance] at this
    exact ih this

/-! ## Searches -/

/-- The outcome of a search of `count` lengths from `length` on that is not cut short: the first
candidate that finishes, of the first length that has one. -/
def Search.answer (start : State) (goal : Goal) (positions : Nat) : Nat → Nat → Outcome
  | 0, _ => .notFound
  | count + 1, length =>
    match (Candidates.all length positions).first? start goal with
    | some p => .proved p
    | none => answer start goal positions count (length + 1)

theorem Search.answer_spec (start : State) (goal : Goal) (positions count length : Nat) :
    (∃ m p, length ≤ m ∧ m < length + count ∧
      (Candidates.all m positions).first? start goal = some p ∧
      (∀ k, length ≤ k → k < m → (Candidates.all k positions).first? start goal = none) ∧
      answer start goal positions count length = .proved p) ∨
    ((∀ k, length ≤ k → k < length + count →
      (Candidates.all k positions).first? start goal = none) ∧
      answer start goal positions count length = .notFound) := by
  induction count generalizing length with
  | zero => exact Or.inr ⟨by omega, rfl⟩
  | succ count ih =>
    cases hfirst : (Candidates.all length positions).first? start goal with
    | some p =>
      refine Or.inl ⟨length, p, Nat.le_refl _, by omega, hfirst, by omega, ?_⟩
      simp only [answer, hfirst]
    | none =>
      have hanswer : answer start goal positions (count + 1) length =
          answer start goal positions count (length + 1) := by
        simp only [answer, hfirst]
      have hhere : ∀ k, length ≤ k → (length + 1 ≤ k →
          (Candidates.all k positions).first? start goal = none) →
          (Candidates.all k positions).first? start goal = none := by
        intro k hk hlater
        rcases Nat.eq_or_lt_of_le hk with rfl | hlt
        · exact hfirst
        · exact hlater hlt
      rw [hanswer]
      rcases ih (length + 1) with ⟨m, p, hle, hlt, hp, hbefore, heq⟩ | ⟨hnone, heq⟩
      · exact Or.inl ⟨m, p, by omega, by omega, hp,
          fun k hk hkm => hhere k hk fun hk' => hbefore k hk' hkm, heq⟩
      · exact Or.inr ⟨fun k hk hkm => hhere k hk fun hk' => hnone k hk' (by omega), heq⟩

theorem Sequential.searchFrom_fst (expired : Deadline) (start : State) (goal : Goal)
    (positions count length : Nat) (s : Statistics) :
    (searchFrom expired start goal positions count length s).1 =
        Search.answer start goal positions count length ∨
      (searchFrom expired start goal positions count length s).1 = .timedOut ∧
        ∃ n, expired n = true := by
  induction count generalizing length s with
  | zero => exact Or.inl rfl
  | succ count ih =>
    have htells := Scan.runFrom_tells expired s.tally
      (Candidates.clear_zero start goal (.all length positions))
    simp only [searchFrom, Search.answer, Scan.run]
    cases hrun : Scan.runFrom expired start goal (.all length positions) 0 s.tally with
    | mk ending tally =>
      rw [hrun] at htells
      cases ending with
      | found p =>
        have hp : (Candidates.all length positions).first? start goal = some p := htells
        exact Or.inl (by simp only [hp])
      | exhausted =>
        have hnone : (Candidates.all length positions).first? start goal = none := htells
        simp only [hnone]
        exact ih ..
      | interrupted => exact Or.inr ⟨rfl, htells⟩

theorem Sequential.outcome_eq (expired : Deadline) (config : Config) (f : Formula) (goal : Goal) :
    (search expired config f goal).outcome =
        Search.answer (.ofFormula f) goal (config.positionsFor f) config.maxLength 1 ∨
      (search expired config f goal).outcome = .timedOut ∧ ∃ n, expired n = true :=
  searchFrom_fst ..

theorem Sequential.outcome_never (config : Config) (f : Formula) (goal : Goal) :
    (search .never config f goal).outcome =
      Search.answer (.ofFormula f) goal (config.positionsFor f) config.maxLength 1 := by
  rcases outcome_eq .never config f goal with h | ⟨-, n, hn⟩
  · exact h
  · simp [Deadline.never] at hn

theorem searchUpTo_eq (f : Formula) (goal : Goal) (n : Nat) :
    searchUpTo f goal n = Search.answer (.ofFormula f) goal f.capacity n 1 :=
  Sequential.outcome_never { maxLength := n } f goal

theorem searchFixedLength_eq (f : Formula) (goal : Goal) (length positions : Nat) :
    searchFixedLength f goal length positions =
      (Candidates.all length positions).first? (.ofFormula f) goal := by
  have htells := Scan.runFrom_tells .never {}
    (Candidates.clear_zero (.ofFormula f) goal (.all length positions))
  unfold searchFixedLength Scan.run
  cases hend : (Scan.runFrom .never (.ofFormula f) goal (.all length positions) 0 {}).1 with
  | found p =>
    rw [hend] at htells
    exact htells.symm
  | exhausted =>
    rw [hend] at htells
    exact htells.symm
  | interrupted =>
    rw [hend] at htells
    obtain ⟨n, hn⟩ := htells
    simp [Deadline.never] at hn

theorem Search.answer_eq_of_first?_eq {start' : State} {positions positions' : Nat}
    (h : ∀ length, (Candidates.all length positions').first? start' goal =
      (Candidates.all length positions).first? start goal) (count length : Nat) :
    answer start' goal positions' count length = answer start goal positions count length := by
  induction count generalizing length with
  | zero => rfl
  | succ count ih => simp only [answer, h, ih]

end

end LawProof
