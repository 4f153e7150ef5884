import LawProof.Proofs.Scanning
import LawProof.Sum

/-!
# What a scan counts

A scan counts the candidates up to the first that finishes, and those among them that were rejected.
In which portions it goes through a run does not matter for this either: what a portion adds to a
count and what is left after it make up what was left before.
-/

namespace LawProof

/-- One of the counts of a tally. -/
inductive Count where
  | evaluated
  | rejected

def Tally.get (t : Tally) : Count → Nat
  | .evaluated => t.evaluated
  | .rejected => t.rejected

theorem Tally.eq_of_get {t u : Tally} (h : ∀ k, t.get k = u.get k) : t = u := by
  obtain ⟨evaluated, rejected⟩ := t
  obtain rfl : evaluated = u.evaluated := h .evaluated
  obtain rfl : rejected = u.rejected := h .rejected
  rfl

namespace Count

section

variable (start : State) (goal : Goal)

/-- What one candidate adds to a count. -/
def ofCandidate : Count → Proof → Nat
  | .evaluated, _ => 1
  | .rejected, p =>
    match (State.replay goal 0 start p).1 with
    | .rejected _ => 1
    | _ => 0

/-- What a scan of these candidates adds to a count. It goes no further than to the first candidate
that finishes. -/
def due (k : Count) : List Proof → Nat
  | [] => 0
  | p :: l => k.ofCandidate start goal p + if start.finishes goal p then 0 else k.due l

theorem due_append (k : Count) (l l' : List Proof) :
    k.due start goal (l ++ l') = k.due start goal l +
      if (l.find? (start.finishes goal)).isNone then k.due start goal l' else 0 := by
  induction l with
  | nil => simp [due]
  | cons p l ih =>
    rw [List.cons_append, due, due, ih]
    by_cases hp : start.finishes goal p = true
    · simp [hp]
    · simp [hp, Nat.add_assoc]

theorem due_rejected_le (l : List Proof) :
    rejected.due start goal l ≤ evaluated.due start goal l := by
  induction l with
  | nil => exact Nat.le_refl _
  | cons p l ih =>
    have hone : rejected.ofCandidate start goal p ≤ evaluated.ofCandidate start goal p := by
      simp only [ofCandidate]
      split <;> omega
    unfold due
    split <;> omega

theorem due_evaluated {l : List Proof} (h : l.find? (start.finishes goal) = none) :
    evaluated.due start goal l = l.length := by
  induction l with
  | nil => rfl
  | cons p l ih =>
    rw [List.find?_cons] at h
    cases hp : start.finishes goal p with
    | true => simp [hp] at h
    | false =>
      rw [hp] at h
      simp [due, ofCandidate, hp, ih h, Nat.add_comm]

/-- What a scan of a run still adds from the `i`-th candidate on. -/
def left (k : Count) (c : Candidates) (i : Nat) : Nat :=
  k.due start goal ((List.range' i (c.size - i)).map c.get)

theorem left_zero (k : Count) (c : Candidates) :
    k.left start goal c 0 = k.due start goal c.toList := by
  rw [Candidates.toList_eq]
  rfl

end

end Count

namespace Scan

variable (start : State) (goal : Goal) (c : Candidates)

theorem sweep_get (k : Count) (count i : Nat) (t : Tally) :
    (sweep start goal c count i t).2.get k =
      t.get k + k.due start goal ((List.range' i count).map c.get) := by
  induction count generalizing i t with
  | zero => rfl
  | succ count ih =>
    have hfin : start.finishes goal (c.get i) =
        decide ((State.replay goal 0 start (c.get i)).1 = .proved (c.get i).length) := rfl
    rw [List.range'_succ, List.map_cons]
    simp only [sweep, Count.due, hfin]
    cases hr : (State.replay goal 0 start (c.get i)).1 with
    | proved n =>
      by_cases hn : n = (c.get i).length
      · cases k <;> simp [hr, hn, Count.ofCandidate, Tally.get]
      · simp only [hn, if_false, ih]
        cases k <;> simp [hr, hn, Count.ofCandidate, Tally.get, Nat.add_assoc]
    | rejected n =>
      simp only [ih]
      cases k <;> simp [hr, Count.ofCandidate, Tally.get, Nat.add_assoc]
    | unfinished =>
      simp only [ih]
      cases k <;> simp [hr, Count.ofCandidate, Tally.get, Nat.add_assoc]

theorem advance_snd (i : Nat) (t : Tally) :
    (advance start goal c i t).2 = (sweep start goal c (min (quota i) (c.size - i)) i t).2 := by
  unfold advance
  split
  · rename_i h
    rw [h]
  · rename_i h
    rw [h]
    split <;> rfl

theorem advance_fst (i : Nat) (t u : Tally) :
    (advance start goal c i t).1 = (advance start goal c i u).1 := by
  have hfst := sweep_fst start goal c (min (quota i) (c.size - i)) i
  have ht := hfst t
  rw [← hfst u] at ht
  unfold advance
  revert ht
  generalize sweep start goal c (min (quota i) (c.size - i)) i t = a
  generalize sweep start goal c (min (quota i) (c.size - i)) i u = b
  obtain ⟨p, t⟩ := a
  obtain ⟨q, u⟩ := b
  rintro rfl
  cases p with
  | some p => rfl
  | none =>
    dsimp only
    split <;> rfl

/-- What is left of a run at a pause. -/
def Pause.left (start : State) (goal : Goal) (c : Candidates) (k : Count) : Pause → Nat
  | .found _ | .exhausted => 0
  | .before j => k.left start goal c j

theorem advance_get (k : Count) (i : Nat) (t : Tally) :
    (advance start goal c i t).2.get k + (advance start goal c i t).1.left start goal c k =
      t.get k + k.left start goal c i := by
  have hsplit : List.range' i (c.size - i) = List.range' i (min (quota i) (c.size - i)) ++
      List.range' (i + min (quota i) (c.size - i))
        (c.size - (i + min (quota i) (c.size - i))) := by
    rw [List.range'_append_1]
    congr 1
    omega
  have hleft : k.left start goal c i =
      k.due start goal ((List.range' i (c.size - i)).map c.get) := rfl
  rw [hsplit, List.map_append, Count.due_append, ← sweep_fst start goal c _ i t] at hleft
  rw [hleft, ← Nat.add_assoc, ← sweep_get, ← advance_snd]
  congr 1
  unfold advance
  cases sweep start goal c (min (quota i) (c.size - i)) i t with
  | mk found u =>
    cases found with
    | some p => rfl
    | none =>
      dsimp only
      split
      · rename_i hlt
        rw [Nat.min_eq_left (by omega)]
        rfl
      · rw [show c.size - (i + min (quota i) (c.size - i)) = 0 by omega]
        rfl

theorem advance_rejected_le {t : Tally} (h : t.rejected ≤ t.evaluated) (i : Nat) :
    (advance start goal c i t).2.rejected ≤ (advance start goal c i t).2.evaluated := by
  have hget := fun k => sweep_get start goal c k (min (quota i) (c.size - i)) i t
  have hr := hget .rejected
  have he := hget .evaluated
  have hle := Count.due_rejected_le start goal
    ((List.range' i (min (quota i) (c.size - i))).map c.get)
  rw [advance_snd]
  simp only [Tally.get] at hr he
  omega

theorem runFrom_never_get (k : Count) (i : Nat) (t : Tally) :
    (runFrom .never start goal c i t).2.get k = t.get k + k.left start goal c i := by
  fun_induction runFrom .never start goal c i t with
  | case1 i t p u hadvance | case2 i t u hadvance =>
    have := advance_get start goal c k i t
    rwa [hadvance] at this
  | case3 i t j u hadvance hexpired => simp [Deadline.never] at hexpired
  | case4 i t j u hadvance _ ih =>
    have := advance_get start goal c k i t
    rw [hadvance] at this
    exact ih.trans this

theorem run_never_get (k : Count) (t : Tally) :
    (run .never start goal c t).2.get k = t.get k + k.due start goal c.toList := by
  rw [← Count.left_zero]
  exact runFrom_never_get start goal c k 0 t

theorem run_never_fst (t : Tally) :
    (run .never start goal c t).1 =
      match c.first? start goal with
      | some p => .found p
      | none => .exhausted := by
  have htells := runFrom_tells .never t (Candidates.clear_zero start goal c)
  unfold run
  revert htells
  cases (runFrom .never start goal c 0 t).1 with
  | found p | exhausted =>
    intro htells
    rw [show c.first? start goal = _ from htells]
  | interrupted =>
    rintro ⟨n, hn⟩
    simp [Deadline.never] at hn

end Scan

end LawProof
