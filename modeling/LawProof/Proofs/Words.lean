import LawProof.Proofs.CountGrowth
import LawProof.Proofs.Inlining
import LawProof.Proofs.RoundTrips

/-!
# Runs with counts in words

One step with counts in words is the step without a bound, with the counts taken to words after it.
So as long as no count of a run is too great for a word, the run is the same, and all that holds of
runs holds of it. Where a count wraps around, it does not: doubled often enough, a variable is there
and has no occurrence, and the step that should take the last doubling back removes its entry.
-/

namespace LawProof

/-! ## One step -/

/-- The table of a run in words holds the words of the counts, and only where the run has counted up
can there be a count that is none. -/
def Bindings.TakesWords (way : Way) (t t' : Bindings) : Prop :=
  t' = t.inWords ∧ (way ≠ .up → t.inWords = t)

theorem Counting.simulates_takesWords : Counting.word.Simulates Bindings.TakesWords where
  none h := h.1.trans (h.2 (by simp))
  retain := by
    rintro way t t' x - ⟨rfl, -⟩
    exact ⟨t.retainBy_inWords x, fun h => absurd rfl h⟩
  release := by
    rintro way t t' x hway ⟨rfl, ht⟩
    have ht := ht (Way.ne_up hway)
    have hrelease := Bindings.release_inWords ht x
    rw [ht, Bindings.releaseBy_word]
    exact ⟨hrelease.symm, fun _ => hrelease⟩
  expand := by
    rintro way t t' x hway ⟨rfl, ht⟩
    have ht := ht (Way.ne_up hway)
    have hexpand := Bindings.expand_inWords ht x
    rw [ht, Bindings.expandBy_word]
    exact ⟨hexpand.symm, fun _ => hexpand⟩
  define d h := by
    have hdefine := Bindings.define_inWords (h.2 (by simp)) d
    exact ⟨hdefine.symm, fun _ => hdefine⟩

namespace State

theorem applyBy_word {s : State} (hs : s.table.inWords = s.table) (step : Step) :
    s.applyBy .word step.law step.position =
      ((s.take step).1, ⟨(s.take step).2.formula, (s.take step).2.table.inWords⟩) := by
  obtain ⟨hanswer, hformula, way, htable, -⟩ := applyBy_simulates Counting.simulates_takesWords
    (s := s) ⟨hs.symm, fun _ => hs⟩ step.law step.position
  rw [show s.applyBy .exact step.law step.position = _ from s.applyInPlace_eq ..] at *
  generalize s.applyBy .word step.law step.position = r at *
  obtain ⟨b, g, t⟩ := r
  simp only at hanswer hformula htable
  rw [hanswer, hformula, htable]

theorem take_of_step? {s u : State} {step : Step} (h : s.step? step = some u) :
    s.take step = (true, u) := by
  unfold take
  rw [h]

theorem step?_of_take {s u : State} {step : Step} (h : s.take step = (true, u)) :
    s.step? step = some u := by
  unfold take at h
  cases hu : s.step? step with
  | none => simp [hu] at h
  | some w => simpa [hu] using h

/-! ## Runs -/

section

variable {body : List Symbol} {slack : Nat} {f : Formula} {p : Proof}

theorem FitsWords.shorten (h : FitsWords f p) {q : Proof} (hq : q <+: p) : FitsWords f q :=
  fun r hr => h r (hr.trans hq)

theorem FitsWords.runBy_eq (h : FitsWords f p) (hf : Formula.ofBody body slack = .ok f) :
    runBy .word f p = (ofFormula f).after p :=
  State.runBy_eq Counting.exactUpTo_word hf h

theorem FitsWords.inWords_eq (h : FitsWords f p) (hf : Formula.ofBody body slack = .ok f) :
    ((ofFormula f).after p).table.inWords = ((ofFormula f).after p).table :=
  (h p List.prefix_rfl).inWords_eq ((tracked_ofFormula hf).after p).ordered

end

theorem exists_doubled_wraps {slack : Nat} {f : Formula}
    (hf : Formula.ofBody [.x 0] slack = .ok f) :
    ∃ w s t, runBy .word f (doublings 31) = s ∧ (ofFormula f).after (doublings 31) = s ∧
      s.formula.body = [.var w] ∧ s.table.total ⟨0⟩ = 2 ^ 31 ∧
      s.step? ⟨.idempotentOr, 0⟩ = some t ∧ t.formula.body = [.disj, .var w, .var w] ∧
      t.table.total ⟨0⟩ = 2 ^ 32 ∧
      s.applyBy .word .idempotentOr 0 = (true, ⟨t.formula, t.table.inWords⟩) := by
  obtain ⟨-, hmost, hend⟩ := (doubled_ofFormula hf).run 31
  have hfits : FitsWords f (doublings 31) := fun q hq => (hmost q hq).mono (by decide)
  obtain ⟨w, t, hw, ht, htbody, -, htotal⟩ := hend.double
  refine ⟨w, _, t, hfits.runBy_eq hf, rfl, hw, hend.count, ht, htbody, ?_, ?_⟩
  · rw [htotal, hend.count, ← Nat.pow_succ']
  · rw [applyBy_word (hfits.inWords_eq hf) ⟨.idempotentOr, 0⟩, take_of_step? ht]

end State

/-! ## Names -/

namespace State

end State

/-! ## Back again -/

namespace State

/-- As long as the counts fit into words, a second application at the same position takes the first
one back. -/
theorem applyBy_word_takes_back {body : List Symbol} {slack : Nat} {f : Formula}
    (hf : Formula.ofBody body slack = .ok f) {p : Proof} {law : Law} {position : Nat}
    (hfits : FitsWords f (p ++ [⟨law, position⟩])) {a : Symbol} {u : State}
    (ha : (runBy .word f p : State).formula.body[position]? = some a)
    (hback : law.takesBack a = true)
    (hu : (runBy .word f p : State).applyBy .word law position = (true, u)) :
    let s : State := runBy .word f p
    ∃ w : State, u.applyBy .word law position = (true, w) ∧ w.formula.body = s.formula.body ∧
      w.formula.stop = s.formula.stop ∧ w.table.entries = s.table.entries := by
  have hstart := hfits.shorten (List.prefix_append p _)
  rw [hstart.runBy_eq hf] at ha hu ⊢
  have hfirst : (((ofFormula f).after p).attempt ⟨law, position⟩).table.AtMost
      (Counting.wordSize - 1) := by
    have hlast := hfits _ List.prefix_rfl
    rw [after_append] at hlast
    exact hlast
  have hexact := applyBy_eq Counting.exactUpTo_word ((tracked_ofFormula hf).after p).positive hfirst
  have hstep := step?_of_take (hexact.symm.trans hu)
  obtain ⟨w, hw, hbody, hstop, hentries⟩ := applyLaw?_takes_back hf p ha hback hstep
  refine ⟨w, ?_, hbody, hstop, hentries⟩
  -- The second step leaves the counts of the first table, which fit.
  have hmost : (u.attempt ⟨law, position⟩).table.AtMost (Counting.wordSize - 1) := by
    rw [attempt_of_step? (show u.step? ⟨law, position⟩ = some w from hw)]
    intro v
    rw [Bindings.total_eq, Bindings.get?, hentries]
    exact hstart p List.prefix_rfl v
  have hpositive : u.table.Positive :=
    (((tracked_ofFormula hf).after p).steps (step?_eq_some hstep)).positive
  exact (applyBy_eq Counting.exactUpTo_word hpositive hmost).trans
    (congrArg pure (take_of_step? hw))

/-- A name stands twice after the first step, and the second one lowers all counts behind it. -/
theorem applyBy_word_takes_back_shared :
    ∃ f, Formula.ofBody [.disj, .conj, .x 0, .x 1, .conj, .x 0, .x 1] 7 = .ok f ∧
      FitsWords f [⟨.substitution, 1⟩, ⟨.associative, 0⟩] ∧
      ∃ s u w : State, s = runBy .word f [⟨.substitution, 1⟩] ∧
        s.formula.body = [.disj, .var ⟨64⟩, .conj, .x 0, .x 1] ∧
        s.applyBy .word .associative 0 = (true, u) ∧
        u.formula.body = [.conj, .disj, .var ⟨64⟩, .x 0, .disj, .var ⟨64⟩, .x 1] ∧
        u.table.counts = [(⟨0⟩, 3), (⟨1⟩, 3), (⟨64⟩, 2)] ∧
        u.applyBy .word .associative 0 = (true, w) ∧ w.formula.body = s.formula.body ∧
        w.table.entries = s.table.entries := by
  have hf : Formula.ofBody [.disj, .conj, .x 0, .x 1, .conj, .x 0, .x 1] 7 =
      .ok (.ofParts [.disj, .conj, .x 0, .x 1, .conj, .x 0, .x 1] 7 2) := by cbv
  have hfits := fitsWords_of_le hf (p := [⟨.substitution, 1⟩, ⟨.associative, 0⟩]) (by decide)
  obtain ⟨u, hu, hubody, hcounts⟩ : ∃ u : State,
      (runBy .word (.ofParts [.disj, .conj, .x 0, .x 1, .conj, .x 0, .x 1] 7 2)
        [⟨.substitution, 1⟩] : State).applyBy .word .associative 0 = (true, u) ∧
      u.formula.body = [.conj, .disj, .var ⟨64⟩, .x 0, .disj, .var ⟨64⟩, .x 1] ∧
      u.table.counts = [(⟨0⟩, 3), (⟨1⟩, 3), (⟨64⟩, 2)] := ⟨_, rfl, by decide, by decide⟩
  obtain ⟨w, hw, hbody, -, htable⟩ := applyBy_word_takes_back (p := [⟨.substitution, 1⟩]) hf hfits
    (a := .disj) (by decide) (by decide) hu
  exact ⟨_, hf, hfits, _, u, w, rfl, by decide, hu, hubody, hcounts, hw, hbody, htable⟩

/-- After 31 doublings of `x0`, two idempotent steps give the formula back, and not the count. -/
theorem double_halve_wraps :
    ∃ f, Formula.ofBody [.x 0] 7 = .ok f ∧
      ∃ s u w : State, s = runBy .word f (doublings 31) ∧
        s.applyBy .word .idempotentOr 0 = (true, u) ∧
        u.applyBy .word .idempotentOr 0 = (true, w) ∧ w.formula.body = s.formula.body ∧
        s.table.count (.x 0) = 2 ^ 31 ∧ w.table.count (.x 0) = 0 := by
  obtain ⟨f, hf⟩ := exists_ofBody_x (show minSlack ≤ 7 by decide)
  obtain ⟨w, s, t, hrun, -, hbody, hcount, -, htbody, htotal, hstep⟩ := exists_doubled_wraps hf
  have hagain : (⟨t.formula, t.table.inWords⟩ : State).formula.body =
      [] ++ [.disj, .var w, .var w] ++ [] := htbody
  obtain ⟨u, hu, hubody, hutable⟩ := applyLaw?_of_rewrites hagain
    (Law.rewrites_halve t.table.inWords w) (by simp; omega)
  have hback := applyBy_word t.table.inWords_inWords (s := ⟨t.formula, t.table.inWords⟩)
    ⟨.idempotentOr, 0⟩
  rw [take_of_step? (show State.step? _ ⟨.idempotentOr, 0⟩ = some u from hu)] at hback
  have hgone : u.table.total ⟨0⟩ = 0 := by
    have hle := t.table.inWords.total_release_le (.var w) ⟨0⟩
    rw [← hutable, Bindings.total_inWords, htotal] at hle
    exact Nat.le_zero.mp hle
  refine ⟨f, hf, s, _, _, hrun.symm, hstep, hback, hubody.trans hbody.symm, hcount, ?_⟩
  exact (u.table.total_inWords ⟨0⟩).trans (by rw [hgone]; rfl)

end State

/-! ## The checker -/

namespace Engine

/-- Both engines take all the steps in the same way. -/
def Agrees (e e' : Engine) : State → Proof → Prop
  | _, [] => True
  | s, step :: p => e.take s step = e'.take s step ∧ e.Agrees e' (e.take s step).2 p

variable {e e' : Engine} {s : State} {p : Proof}

theorem Agrees.runBy_eq (h : e.Agrees e' s p) (f : Formula) (goal : Goal) (number : Nat) :
    Check.runBy e f goal number s p = Check.runBy e' f goal number s p := by
  induction p generalizing number s with
  | nil => rfl
  | cons step p ih =>
    obtain ⟨htake, hrest⟩ := h
    rw [Check.runBy, Check.runBy, ← htake]
    generalize e.take s step = r at hrest
    obtain ⟨_ | _, u⟩ := r
    · rfl
    · simp only [ih hrest]

end Engine

section

variable {body : List Symbol} {slack : Nat} {f : Formula} {p : Proof}

end

end LawProof
