import LawProof.Classification
import LawProof.Proofs.Meaning
import Mathlib.Data.List.Nodup

/-!
# Truth tables

The inputs of a written formula are the first ones, without a gap. Its value depends on their bits
alone, so the table with a row for each of their assignments shows all its values.
-/

namespace LawProof

open Body (varsOf)

/-! ## Inputs -/

namespace Body

theorem testBit_inputMask (body : List Symbol) (i : Nat) :
    (inputMask body).testBit i = true ↔ i < maxVariables ∧ .var ⟨i⟩ ∈ body := by
  fun_induction inputMask body with
  | case1 => simp
  | case2 v rest hv ih =>
    have hne : i < maxVariables → Var.mk i ≠ v := by
      rintro hi rfl
      have := Bindings.isSynthetic_iff.mp hv
      exact absurd hi (Nat.not_lt.mpr this)
    rw [ih]
    constructor
    · rintro ⟨hi, hmem⟩
      exact ⟨hi, List.mem_cons_of_mem _ hmem⟩
    · rintro ⟨hi, hmem⟩
      rcases List.mem_cons.mp hmem with heq | hmem
      · exact absurd (Symbol.var.inj heq) (hne hi)
      · exact ⟨hi, hmem⟩
  | case3 v rest hv ih =>
    have hlt := Bindings.isSynthetic_eq_false_iff.mp (Bool.eq_false_iff.mpr hv)
    have hbit : (Nat.pow 2 v.id).testBit i = decide (v.id = i) := Nat.testBit_two_pow
    rw [Nat.testBit_or, Bool.or_eq_true, ih, hbit, decide_eq_true_iff]
    constructor
    · rintro (rfl | ⟨hi, hmem⟩)
      · exact ⟨hlt, List.mem_cons_self⟩
      · exact ⟨hi, List.mem_cons_of_mem _ hmem⟩
    · rintro ⟨hi, hmem⟩
      rcases List.mem_cons.mp hmem with heq | hmem
      · exact Or.inl (congrArg Var.id (Symbol.var.inj heq)).symm
      · exact Or.inr ⟨hi, hmem⟩
  | case4 s rest hs ih =>
    have hne : Symbol.var ⟨i⟩ ≠ s := fun heq => hs _ heq.symm
    simp [ih, hne]

theorem lt_iff_of_countVariables {body : List Symbol} {k : Nat} (h : countVariables body = .ok k)
    (i : Nat) : i < k ↔ i < maxVariables ∧ .var ⟨i⟩ ∈ body := by
  unfold countVariables at h
  simp only at h
  split at h
  · rename_i hmask
    rw [Except.ok.injEq] at h
    rw [← testBit_inputMask, hmask, h]
    show _ ↔ (2 ^ k - 1).testBit i = true
    rw [Nat.testBit_two_pow_sub_one, decide_eq_true_iff]
  · simp at h

theorem trailingOnes_two_pow_sub_one (k : Nat) : trailingOnes (Nat.pow 2 k - 1) = k := by
  induction k with
  | zero => simp [trailingOnes]
  | succ k ih =>
    have hpos : 0 < Nat.pow 2 k := Nat.pow_pos (by omega)
    have hpow : Nat.pow 2 (k + 1) = Nat.pow 2 k * 2 := rfl
    unfold trailingOnes
    rw [if_pos (by omega), show (Nat.pow 2 (k + 1) - 1) / 2 = Nat.pow 2 k - 1 by omega, ih]

theorem countVariables_eq_ok_iff {body : List Symbol} {k : Nat} :
    countVariables body = .ok k ↔ ∀ i, i < k ↔ i < maxVariables ∧ .var ⟨i⟩ ∈ body := by
  constructor
  · exact lt_iff_of_countVariables
  · intro h
    have hmask : inputMask body = Nat.pow 2 k - 1 := by
      apply Nat.eq_of_testBit_eq
      intro i
      rw [Bool.eq_iff_iff, testBit_inputMask, ← h]
      show _ ↔ (2 ^ k - 1).testBit i = true
      rw [Nat.testBit_two_pow_sub_one, decide_eq_true_iff]
    unfold countVariables
    simp only [hmask, trailingOnes_two_pow_sub_one, if_true]

theorem countVariables_iff_dense {body : List Symbol}
    (hinputs : ∀ v, .var v ∈ body → v.isSynthetic = false) {k : Nat} :
    countVariables body = .ok k ↔ ∀ i, .x i ∈ body ↔ i < k := by
  rw [countVariables_eq_ok_iff]
  apply forall_congr'
  intro i
  have hbound : .x i ∈ body → i < maxVariables := by
    intro hi
    exact Bindings.isSynthetic_eq_false_iff.mp (hinputs ⟨i⟩ hi)
  constructor
  · intro h
    exact ⟨fun hi => h.mpr ⟨hbound hi, hi⟩, fun hi => (h.mp hi).2⟩
  · intro h
    exact ⟨fun hi => ⟨hbound (h.mpr hi), h.mpr hi⟩, fun hi => h.mp hi.2⟩

theorem countVariables_le_length {body : List Symbol} {k : Nat} (h : countVariables body = .ok k) :
    k ≤ body.length := by
  have hnodup : ((List.range k).map fun i => Symbol.var ⟨i⟩).Nodup := by
    apply List.Nodup.map _ List.nodup_range
    intro i j hij
    exact congrArg Var.id (Symbol.var.inj hij)
  have hsub : (List.range k).map (fun i => Symbol.var ⟨i⟩) ⊆ body := by
    intro s hs
    obtain ⟨i, hi, rfl⟩ := List.mem_map.mp hs
    exact ((lt_iff_of_countVariables h i).mp (List.mem_range.mp hi)).2
  simpa using hnodup.length_le_of_subset hsub

theorem evaluate_mod {body : List Symbol} {k : Nat}
    (h : ∀ v ∈ varsOf body, v.isSynthetic = false → v.id < k) (bits : Nat) :
    evaluate body (bits % Nat.pow 2 k) = evaluate body bits := by
  unfold evaluate value?
  rw [stack_congr]
  intro v hv
  unfold Var.bit?
  cases hsyn : v.isSynthetic with
  | true => rfl
  | false =>
    show some ((bits % 2 ^ k).testBit v.id) = some (bits.testBit v.id)
    rw [Nat.testBit_mod_two_pow]
    simp [h v hv hsyn]

end Body

namespace Formula

variable {body : List Symbol} {slack : Nat} {f : Formula}

theorem vars_le_of_ofBody (hf : ofBody body slack = .ok f) : f.vars ≤ maxVariables := by
  obtain ⟨-, -, -, vars, hvars, rfl⟩ := ofBody_eq_ok_iff.mp hf
  show vars ≤ maxVariables
  by_contra hlt
  have := (Body.lt_iff_of_countVariables hvars maxVariables).mp (by omega)
  omega

theorem id_lt_vars_of_ofBody (hf : ofBody body slack = .ok f) {v : Var} (hv : .var v ∈ body) :
    v.id < f.vars := by
  obtain ⟨hwritten, -⟩ := ofBody_eq_ok hf
  obtain ⟨-, -, -, vars, hvars, rfl⟩ := ofBody_eq_ok_iff.mp hf
  have hinput := Bindings.isSynthetic_eq_false_iff.mp (hwritten.inputs v hv)
  exact (Body.lt_iff_of_countVariables hvars v.id).mpr ⟨hinput, hv⟩

theorem vars_le_length_of_ofBody (hf : ofBody body slack = .ok f) : f.vars ≤ body.length := by
  obtain ⟨-, -, -, vars, hvars, rfl⟩ := ofBody_eq_ok_iff.mp hf
  exact Body.countVariables_le_length hvars

theorem evaluate_of_ofBody (hf : ofBody body slack = .ok f) (bits : Nat) :
    Body.evaluate body bits = some (f.holds bits) := by
  obtain ⟨hwritten, hbody⟩ := ofBody_eq_ok hf
  obtain ⟨a, ha⟩ := Body.value?_of_checkSyntax (fun v => bits.testBit v.id) hwritten.wellFormed
  have hinputs : ∀ v ∈ varsOf body, v.isSynthetic = false :=
    fun v hv => hwritten.inputs v (Body.mem_varsOf.mp hv)
  unfold holds
  rw [hbody, Body.evaluate_eq_under hinputs, ha]
  cases a <;> rfl

theorem holds_mod (hf : ofBody body slack = .ok f) (bits : Nat) :
    f.holds (bits % Nat.pow 2 f.vars) = f.holds bits := by
  obtain ⟨-, hbody⟩ := ofBody_eq_ok hf
  unfold holds
  rw [hbody, Body.evaluate_mod]
  intro v hv _
  exact id_lt_vars_of_ofBody hf (Body.mem_varsOf.mp hv)

end Formula

/-! ## Classification -/

theorem leastFrom_eq_none_iff {p : Nat → Bool} {count i : Nat} :
    leastFrom p count i = none ↔ ∀ k, i ≤ k → k < i + count → p k = false := by
  induction count generalizing i with
  | zero =>
    simp only [leastFrom, true_iff]
    omega
  | succ count ih =>
    unfold leastFrom
    split
    · rename_i hi
      simp only [reduceCtorEq, false_iff]
      intro h
      simp [h i (Nat.le_refl i) (by omega)] at hi
    · rename_i hi
      rw [ih]
      constructor
      · intro h k hik hk
        rcases Nat.eq_or_lt_of_le hik with rfl | hlt
        · simpa using hi
        · exact h k hlt (by omega)
      · intro h k hik hk
        exact h k (by omega) (by omega)

theorem leastBelow_eq_none_iff {p : Nat → Bool} {bound : Nat} :
    leastBelow bound p = none ↔ ∀ k, k < bound → p k = false := by
  unfold leastBelow
  rw [leastFrom_eq_none_iff]
  simp

theorem leastBelow_eq_none {p : Nat → Bool} (h : ∀ k, p k = false) (bound : Nat) :
    leastBelow bound p = none := leastBelow_eq_none_iff.mpr fun k _ => h k

namespace Evidence

/-- The evidence from the first `n` rows of the table. -/
structure Shows (f : Formula) (goal : Goal) (n : Nat) (e : Evidence) : Prop where
  seenTrue : e.seenTrue = true ↔ ∃ bits < n, f.holds bits = true
  seenFalse : e.seenFalse = true ↔ ∃ bits < n, f.holds bits = false
  first : ∀ a, e.witness = some a → a.vars = f.vars ∧ a.bits < n ∧
    f.holds a.bits ≠ goal.value ∧ ∀ bits < a.bits, f.holds bits = goal.value
  none : e.witness = none → ∀ bits < n, f.holds bits = goal.value

variable {f : Formula} {goal : Goal}

theorem shows_zero : ({} : Evidence).Shows f goal 0 where
  seenTrue := by simp
  seenFalse := by simp
  first := by simp
  none := by simp

theorem Shows.note {e : Evidence} {n : Nat} (h : e.Shows f goal n) :
    (e.note goal ⟨n, f.vars⟩ (f.holds n)).Shows f goal (n + 1) where
  seenTrue := by
    rw [Nat.exists_lt_succ_right, ← h.seenTrue]
    exact Bool.or_eq_true_iff
  seenFalse := by
    rw [Nat.exists_lt_succ_right, ← h.seenFalse, ← Bool.not_eq_true', ← Bool.or_eq_true_iff]
    rfl
  first := by
    intro a ha
    cases hw : e.witness with
    | some b =>
      -- The first row with another value has been met before.
      obtain rfl : b = a := by simpa [Evidence.note, hw] using ha
      obtain ⟨hvars, hlt, hrest⟩ := h.first b hw
      exact ⟨hvars, Nat.lt_succ_of_lt hlt, hrest⟩
    | none =>
      obtain ⟨hne, rfl⟩ : f.holds n ≠ goal.value ∧ ⟨n, f.vars⟩ = a := by
        simpa [Evidence.note, hw] using ha
      exact ⟨rfl, Nat.lt_succ_self n, hne, h.none hw⟩
  none := by
    intro hnone
    obtain ⟨hw, heq⟩ : e.witness = Option.none ∧ f.holds n = goal.value := by
      simpa [Evidence.note] using hnone
    intro bits hbits
    rcases Nat.lt_succ_iff_lt_or_eq.mp hbits with hlt | rfl
    · exact h.none hw bits hlt
    · exact heq

end Evidence

/-- The value that all rows have, if they have but one. -/
def Classification.kind? : Classification → Option Goal
  | .tautology => some .tautology
  | .contradiction => some .contradiction
  | .neither _ => none

namespace Formula

theorem gather_shows {f : Formula} {goal : Goal} (count : Nat) {bits : Nat} {e : Evidence}
    (h : e.Shows f goal bits) :
    ∃ n, n ≤ bits + count ∧ (f.gather goal count bits e).Shows f goal n ∧
      (n = bits + count ∨ (f.gather goal count bits e).isMixed = true) := by
  induction count generalizing bits e with
  | zero => exact ⟨bits, Nat.le_refl _, h, Or.inl rfl⟩
  | succ count ih =>
    simp only [gather]
    split
    · rename_i hmixed
      exact ⟨bits + 1, by omega, h.note, Or.inr hmixed⟩
    · obtain ⟨n, hle, hshows, hend⟩ := ih h.note
      exact ⟨n, by omega, hshows, hend.imp_left (by omega)⟩

/-- The evidence is all for one value, which is then that of every row, or it is for both and has a
witness, which is then the first row that does not have the goal's value. -/
theorem evidence_cases (f : Formula) (goal : Goal) :
    (∃ kind : Goal, (f.evidence goal).seenTrue = kind.value ∧
      (f.evidence goal).seenFalse = !kind.value ∧
      ∀ bits < Nat.pow 2 f.vars, f.holds bits = kind.value) ∨
    (f.evidence goal).isMixed = true ∧ ∃ a, (f.evidence goal).witness = some a ∧
      a.vars = f.vars ∧ a.bits < Nat.pow 2 f.vars ∧ f.holds a.bits ≠ goal.value ∧
      (∀ bits < a.bits, f.holds bits = goal.value) ∧
      ∃ bits < Nat.pow 2 f.vars, f.holds bits = goal.value := by
  have hpos : 0 < Nat.pow 2 f.vars := Nat.pow_pos (by omega)
  have hstart : ({} : Evidence).Shows f goal 0 := Evidence.shows_zero
  obtain ⟨n, hle, hshows, hend⟩ := gather_shows (Nat.pow 2 f.vars) hstart
  change (f.evidence goal).Shows f goal n at hshows
  change _ ∨ (f.evidence goal).isMixed = true at hend
  rw [Nat.zero_add] at hle hend
  generalize f.evidence goal = e at hshows hend ⊢
  have htrue := hshows.seenTrue
  have hfalse := hshows.seenFalse
  cases hmixed : e.isMixed with
  | true =>
    obtain ⟨hyes, hno⟩ := Bool.and_eq_true_iff.mp hmixed
    refine Or.inr ⟨rfl, ?_⟩
    -- One of the two values is the goal's.
    obtain ⟨bits, hbits, hvalue⟩ : ∃ bits < n, f.holds bits = goal.value := by
      cases goal with
      | tautology => exact htrue.mp hyes
      | contradiction => exact hfalse.mp hno
    cases hw : e.witness with
    | none =>
      obtain ⟨i, hi, hyes⟩ := htrue.mp hyes
      obtain ⟨j, hj, hno⟩ := hfalse.mp hno
      rw [hshows.none hw i hi] at hyes
      rw [hshows.none hw j hj, hyes] at hno
      simp at hno
    | some a =>
      obtain ⟨hvars, hlt, hne, hfirst⟩ := hshows.first a hw
      exact ⟨a, rfl, hvars, by omega, hne, hfirst, bits, by omega, hvalue⟩
  | false =>
    obtain rfl : n = Nat.pow 2 f.vars := hend.resolve_right (by simp [hmixed])
    refine Or.inl ?_
    cases hyes : e.seenTrue with
    | true =>
      have hno : e.seenFalse = false := by simpa [Evidence.isMixed, hyes] using hmixed
      refine ⟨.tautology, rfl, hno, fun bits hbits => ?_⟩
      by_contra hvalue
      rw [hfalse.mpr ⟨bits, hbits, Bool.eq_false_iff.mpr hvalue⟩] at hno
      simp at hno
    | false =>
      have hall : ∀ bits < Nat.pow 2 f.vars, f.holds bits = false := by
        intro bits hbits
        by_contra hvalue
        rw [htrue.mpr ⟨bits, hbits, by simpa using hvalue⟩] at hyes
        simp at hyes
      exact ⟨.contradiction, rfl, hfalse.mpr ⟨0, hpos, hall 0 hpos⟩, hall⟩

theorem classify_cases (f : Formula) (goal : Goal) :
    (∃ kind : Goal, f.classify goal = .ofGoal kind ∧
      ∀ bits < Nat.pow 2 f.vars, f.holds bits = kind.value) ∨
    ∃ a, f.classify goal = .neither a ∧ a.vars = f.vars ∧ a.bits < Nat.pow 2 f.vars ∧
      f.holds a.bits ≠ goal.value ∧ (∀ bits < a.bits, f.holds bits = goal.value) ∧
      ∃ bits < Nat.pow 2 f.vars, f.holds bits = goal.value := by
  unfold classify Evidence.verdict
  rcases f.evidence_cases goal with ⟨kind, hyes, hno, hall⟩ | ⟨hmixed, a, ha, hrest⟩
  · refine Or.inl ⟨kind, ?_, hall⟩
    rw [hyes, hno]
    cases kind <;> rfl
  · obtain ⟨hyes, hno⟩ := Bool.and_eq_true_iff.mp hmixed
    refine Or.inr ⟨a, ?_, hrest⟩
    rw [hyes, hno, ha]

theorem classify_eq_ofGoal_iff {f : Formula} {goal kind : Goal} :
    f.classify goal = .ofGoal kind ↔ ∀ bits < Nat.pow 2 f.vars, f.holds bits = kind.value := by
  have hpos : 0 < Nat.pow 2 f.vars := Nat.pow_pos (by omega)
  rcases f.classify_cases goal with ⟨kind', hc, hall⟩ | ⟨a, hc, -, hlt, hne, -, bits, hbits, heq⟩
  · rw [hc]
    by_cases hkind : kind = kind'
    · subst hkind
      exact iff_of_true rfl hall
    · refine iff_of_false ?_ fun h => ?_
      · cases kind <;> cases kind' <;> simp_all [Classification.ofGoal]
      · have := (h 0 hpos).symm.trans (hall 0 hpos)
        cases kind <;> cases kind' <;> simp_all [Goal.value]
  · rw [hc]
    refine iff_of_false (by cases kind <;> simp [Classification.ofGoal]) fun h => ?_
    rw [h a.bits hlt, ← heq, h bits hbits] at hne
    exact hne rfl

theorem classify_eq_ofGoal {f : Formula} {goal : Goal}
    (h : ∀ bits, f.holds bits = goal.value) (g : Goal) : f.classify g = .ofGoal goal :=
  classify_eq_ofGoal_iff.mpr fun bits _ => h bits

theorem fits_classify_iff {f : Formula} {goal : Goal} :
    (f.classify goal).fits goal = true ↔
      ∀ bits, bits < Nat.pow 2 f.vars → f.holds bits = goal.value := by
  unfold Classification.fits
  rw [beq_iff_eq, classify_eq_ofGoal_iff]

theorem forall_holds_iff {body : List Symbol} {slack : Nat} {f : Formula}
    (hf : ofBody body slack = .ok f) (value : Bool) :
    (∀ bits < Nat.pow 2 f.vars, f.holds bits = value) ↔
      ∀ bits < Nat.pow 2 maxVariables, Body.evaluate body bits = some value := by
  simp only [evaluate_of_ofBody hf, Option.some.injEq]
  constructor
  · intro h bits _
    rw [← holds_mod hf]
    exact h _ (Nat.mod_lt _ (Nat.pow_pos (by omega)))
  · intro h bits hbits
    have hle : Nat.pow 2 f.vars ≤ Nat.pow 2 maxVariables :=
      Nat.pow_le_pow_right (by omega) (vars_le_of_ofBody hf)
    exact h bits (by omega)

theorem fits_classify_iff_evaluate {body : List Symbol} {slack : Nat} {f : Formula} {goal : Goal}
    (hf : ofBody body slack = .ok f) :
    (f.classify goal).fits goal = true ↔
      ∀ bits, bits < Nat.pow 2 maxVariables → Body.evaluate body bits = some goal.value := by
  rw [fits_classify_iff, forall_holds_iff hf]

/-- The classification of a written formula is exact, and its witness is the least assignment under
which the value is not the goal's. -/
theorem classify_iff_evaluate {body : List Symbol} {slack : Nat} {f : Formula}
    (hf : ofBody body slack = .ok f) (goal : Goal) :
    (f.classify goal = .tautology ↔
        ∀ bits < Nat.pow 2 maxVariables, Body.evaluate body bits = some true) ∧
      (f.classify goal = .contradiction ↔
        ∀ bits < Nat.pow 2 maxVariables, Body.evaluate body bits = some false) ∧
      (f.classify goal ≠ .tautology → f.classify goal ≠ .contradiction →
        ∃ a, f.classify goal = .neither a ∧ a.vars = f.vars ∧
          a.bits < Nat.pow 2 maxVariables ∧ Body.evaluate body a.bits = some (!goal.value) ∧
          ∀ bits, Body.evaluate body bits = some (!goal.value) → a.bits ≤ bits) ∧
      (∀ g, (f.classify g).kind? = (f.classify goal).kind?) ∧
      ¬((f.evidence goal).seenTrue = (f.evidence goal).seenFalse ∧
        (f.evidence goal).witness = none) := by
  have hkind : ∀ g kind : Goal, f.classify g = .ofGoal kind ↔
      ∀ bits < Nat.pow 2 maxVariables, Body.evaluate body bits = some kind.value :=
    fun g kind => classify_eq_ofGoal_iff.trans (forall_holds_iff hf kind.value)
  refine ⟨hkind goal .tautology, hkind goal .contradiction, ?_, ?_, ?_⟩
  · intro htautology hcontradiction
    rcases f.classify_cases goal with ⟨kind, hc, -⟩ | ⟨a, hc, hvars, hlt, hne, hfirst, -⟩
    · cases kind with
      | tautology => exact absurd hc htautology
      | contradiction => exact absurd hc hcontradiction
    · have hle : Nat.pow 2 f.vars ≤ Nat.pow 2 maxVariables :=
        Nat.pow_le_pow_right (by omega) (vars_le_of_ofBody hf)
      refine ⟨a, hc, hvars, by omega, ?_, ?_⟩
      · rw [evaluate_of_ofBody hf, Bool.eq_not_of_ne hne]
      · intro bits hbits
        rw [evaluate_of_ofBody hf, Option.some.injEq, ← holds_mod hf] at hbits
        -- The row that an assignment falls into is not behind the assignment.
        refine Nat.le_trans (Nat.le_of_not_lt fun hbefore => ?_)
          (Nat.mod_le bits (Nat.pow 2 f.vars))
        rw [hfirst _ hbefore] at hbits
        simp at hbits
  · intro g
    rcases f.classify_cases goal with ⟨kind, hc, hall⟩ | ⟨a, hc, -, -, hne, -⟩
    · rw [hc, classify_eq_ofGoal_iff.mpr hall]
    · rcases f.classify_cases g with ⟨kind, hg, hall⟩ | ⟨b, hg, -⟩
      · rw [classify_eq_ofGoal_iff.mpr hall] at hc
        cases kind <;> simp [Classification.ofGoal] at hc
      · rw [hc, hg]
        rfl
  · rintro ⟨hsame, hnone⟩
    rcases f.evidence_cases goal with ⟨kind, hyes, hno, -⟩ | ⟨-, a, ha, -⟩
    · rw [hyes, hno] at hsame
      simp at hsame
    · rw [ha] at hnone
      simp at hnone

theorem classify_iff_evaluate_conj :
    ∃ f, ofBody [.conj, .x 0, .x 1] 7 = .ok f ∧ f.classify .contradiction = .neither ⟨3, 2⟩ ∧
      (f.classify .tautology).kind? = none ∧
      ∀ bits, Body.evaluate [.conj, .x 0, .x 1] bits = some true → 3 ≤ bits := by
  have hf : ofBody [.conj, .x 0, .x 1] 7 = .ok (.ofParts [.conj, .x 0, .x 1] 7 2) := by cbv
  obtain ⟨-, -, hneither, hkind, -⟩ := classify_iff_evaluate hf .contradiction
  have hc : (ofParts [.conj, .x 0, .x 1] 7 2).classify .contradiction = .neither ⟨3, 2⟩ := by decide
  obtain ⟨a, ha, -, -, -, hleast⟩ := hneither (by simp [hc]) (by simp [hc])
  obtain rfl := Classification.neither.inj (hc.symm.trans ha)
  refine ⟨_, hf, hc, ?_, hleast⟩
  rw [hkind .tautology, hc]
  rfl

end Formula

end LawProof
