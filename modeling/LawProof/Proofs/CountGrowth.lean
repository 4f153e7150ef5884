import LawProof.Proofs.CheckedCounts
import LawProof.Proofs.Access
import LawProof.Proofs.Room
import Mathlib.Algebra.Group.Nat.Defs

/-!
# How far counts can grow

A name stands for at most two symbols, so what one occurrence of it comes to can double with each
name that is given, and cannot do more. A tape of `c` cells has at most `c - 1` symbols in use. So
after `k` names no count is above `(c - 1) * 2 ^ k`, nor is one above it on the way. The doubling
does happen, from a formula of a single symbol.
-/

namespace LawProof

open Body (varsOf)

/-! ## What an occurrence comes to -/

namespace Bindings

theorem length_parts_le (t : Bindings) (v : Var) : (t.parts v).length ≤ 2 := by
  unfold parts
  cases t.definition? v with
  | none => exact Nat.zero_le 2
  | some d =>
    have hle : (varsOf d.operands).length ≤ d.operands.length := List.length_filterMap_le ..
    cases d with
    | neg a => exact Nat.le_trans hle (by simp [Definition.operands])
    | disj a b | conj a b => exact Nat.le_trans hle (by simp [Definition.operands])

theorem Sound.count_spelled_le {t : Bindings} (ht : t.Sound) {xs us : List Var}
    (h : Spelled t xs us) {n : Nat} (hxs : ∀ x ∈ xs, x.id < maxVariables + n) (w : Var) :
    us.count w ≤ xs.length * 2 ^ n := by
  induction h generalizing n with
  | nil => simp
  | @cons v rest us vs hparts _ ihparts ihrest =>
    have hv : v.id < maxVariables + n := hxs v List.mem_cons_self
    have hrest := ihrest fun x hx => hxs x (List.mem_cons_of_mem _ hx)
    have hone : (v :: us).count w ≤ 2 ^ n := by
      by_cases hw : w = v
      · have hnone : us.count v = 0 := List.count_eq_zero.mpr (hparts.notMem ht.descends)
        rw [hw, List.count_cons_self, hnone]
        exact Nat.one_le_two_pow
      · rw [List.count_cons_of_ne (Ne.symm hw)]
        cases hsyn : v.isSynthetic with
        | false =>
          rw [ht.parts_eq_nil hsyn] at hparts
          cases hparts
          exact Nat.zero_le _
        | true =>
          have hle := isSynthetic_iff.mp hsyn
          obtain ⟨m, hm⟩ : ∃ m, v.id = maxVariables + m := ⟨v.id - maxVariables, by omega⟩
          have hparts' : us.count w ≤ (t.parts v).length * 2 ^ m :=
            ihparts fun x hx => hm ▸ ht.descends v x hx
          calc us.count w ≤ (t.parts v).length * 2 ^ m := hparts'
            _ ≤ 2 * 2 ^ m := Nat.mul_le_mul_right _ (t.length_parts_le v)
            _ = 2 ^ (m + 1) := by rw [Nat.pow_succ, Nat.mul_comm]
            _ ≤ 2 ^ n := Nat.pow_le_pow_right (by decide) (by omega)
    rw [List.count_append, List.length_cons, Nat.succ_mul]
    omega

theorem Tracks.total_le {t : Bindings} {xs : List Var} (h : Tracks t xs) (v : Var) :
    t.total v ≤ xs.length * 2 ^ (t.next - maxVariables) := by
  obtain ⟨vs, hvs, hcount⟩ := h.counted
  rw [hcount]
  apply h.toSound.count_spelled_le hvs
  intro x hx
  obtain ⟨b, hb⟩ := h.get?_of_mem hx
  have hlt := h.below x b hb
  have := h.reserve
  omega

theorem Tracks.total_retain {t : Bindings} {w : Var} (h : Tracks t [w]) (v : Var) :
    (t.retain (.var w)).total v = 2 * t.total v := by
  obtain ⟨vs, hvs, hcount⟩ := h.counted
  have hraised := (t.raised_retain w).total v
  rw [(spelled_chainBound h.descends [w]).unique hvs, ← hcount] at hraised
  omega

theorem count_le_of_atMost {limit : Nat} {t : Bindings} (h : t.AtMost limit) (s : Symbol) :
    t.count s ≤ limit := by
  unfold count
  cases hs : s.var? with
  | none => exact Nat.zero_le _
  | some v => exact h v

theorem next_ofBody (body : List Symbol) : (ofBody body).next = maxVariables :=
  List.foldlRecOn (motive := fun t => t.next = maxVariables) _ _ rfl
    fun t ht s _ => (next_retain s t).trans ht

end Bindings

/-! ## Names given in a run -/

namespace State

theorem Steps.getElem?_body {s u : State} {law : Law} {position : Nat}
    (h : s.Steps u law position) :
    ∃ old new, s.formula.body[position]? = old.head? ∧ law.Rewrites s.table old new u.table := by
  obtain ⟨old, new, rest, hbefore, -, hr⟩ := h.replaced
  refine ⟨old, new, ?_, hr⟩
  have hlen : (s.formula.body.take position).length = position := by
    rw [List.length_take, s.formula.length_body]
    exact Nat.min_eq_left (Nat.le_of_lt h.inside)
  have hbody : s.formula.body.drop position = old ++ rest := by
    rw [hbefore, List.append_assoc, List.drop_left' hlen]
  rw [← List.head?_drop, hbody, List.head?_append_of_ne_nil _ hr.old_ne_nil]

/-- The step gives a name to what stands at its position. -/
def isCollapse (s : State) (step : Step) : Bool :=
  step.law = .substitution ∧ (s.step? step).isSome ∧
    (s.formula.body[step.position]?.bind Symbol.var?).isNone

/-- How many steps of a run give a name. -/
def collapses : State → Proof → Nat
  | _, [] => 0
  | s, step :: p => (if s.isCollapse step then 1 else 0) + (s.attempt step).collapses p

theorem Tracked.next_attempt {s : State} (h : s.Tracked) (step : Step) :
    (s.attempt step).table.next = s.table.next + if s.isCollapse step then 1 else 0 := by
  unfold attempt isCollapse
  cases hu : s.step? step with
  | none => simp
  | some u =>
    obtain ⟨old, new, hhead, hr⟩ := (step?_eq_some hu).getElem?_body
    rw [hhead]
    simpa using h.toSound.next_rewrites hr

theorem Tracked.next_after {s : State} (h : s.Tracked) (p : Proof) :
    (s.after p).table.next = s.table.next + s.collapses p := by
  induction p generalizing s with
  | nil => rfl
  | cons step p ih =>
    have hstep : (s.attempt step).Tracked := h.after [step]
    rw [after_cons, ih hstep, h.next_attempt, collapses, Nat.add_assoc]

theorem Tracked.atMost {s : State} (h : s.Tracked) :
    s.table.AtMost ((s.formula.capacity - 1) * 2 ^ (s.table.next - maxVariables)) := by
  intro v
  have hvars : (varsOf s.formula.body).length ≤ s.formula.capacity - 1 := by
    have hle : (varsOf s.formula.body).length ≤ s.formula.body.length :=
      List.length_filterMap_le ..
    have hstop := s.formula.stop_lt
    rw [s.formula.length_body] at hle
    unfold Formula.capacity
    omega
  exact Nat.le_trans (h.total_le v) (Nat.mul_le_mul_right _ hvars)

theorem atMost_after {body : List Symbol} {slack : Nat} {f : Formula}
    (hf : Formula.ofBody body slack = .ok f) {p q : Proof} (hq : q <+: p) :
    ((ofFormula f).after q).table.AtMost
      ((f.capacity - 1) * 2 ^ (ofFormula f).collapses p) := by
  have hstart := tracked_ofFormula hf
  have hseed : (ofFormula f).table.next = maxVariables := Bindings.next_ofBody f.body
  have hnext := hstart.next_after p
  obtain ⟨rest, rfl⟩ := hq
  have hle := (hstart.after q).next_le_after rest
  rw [← after_append, hnext, hseed] at hle
  have hbound := (hstart.after q).atMost
  rw [(after_capacity (ofFormula f) q).1] at hbound
  intro v
  refine Nat.le_trans (hbound v) (Nat.mul_le_mul_left _ (Nat.pow_le_pow_right (by decide) ?_))
  omega

/-- No count of a run is too great for a word. -/
def FitsWords (f : Formula) (p : Proof) : Prop :=
  ∀ q, q <+: p → ((ofFormula f).after q).table.AtMost (Counting.wordSize - 1)

/-- Enough is that `c * 2 ^ k` is at most `2 ^ 32`, for `c` cells and `k` steps that give a name. -/
theorem fitsWords_of_le {body : List Symbol} {slack : Nat} {f : Formula}
    (hf : Formula.ofBody body slack = .ok f) {p : Proof}
    (h : f.capacity * 2 ^ (ofFormula f).collapses p ≤ 2 ^ 32) : FitsWords f p := by
  intro q hq
  apply (atMost_after hf hq).mono
  have hpos : 0 < 2 ^ (ofFormula f).collapses p := Nat.two_pow_pos _
  rw [Nat.sub_mul, Nat.one_mul]
  unfold Counting.wordSize
  omega

end State

/-! ## Doubling -/

theorem Filling.fills_var (w : Var) {pieces : List Piece} (h : ∀ x, .slot x ∈ pieces → x = .a) :
    (⟨some (.var w), none, none⟩ : Filling).Fills pieces := by
  refine ⟨?_, ?_⟩
  · intro x hx
    rw [h x hx]
    exact ⟨_, rfl⟩
  · intro x s hs
    cases x <;> cases hs
    rfl

theorem Law.rewrites_double (t : Bindings) (w : Var) :
    Law.idempotentOr.Rewrites t [.var w] [.disj, .var w, .var w] (t.retain (.var w)) :=
  .rule (r := ⟨[Piece.a], [Piece.disj, Piece.a, Piece.a]⟩) (by decide)
    (Filling.fills_var w (by simp [Piece.a]))

theorem Law.rewrites_halve (t : Bindings) (w : Var) :
    Law.idempotentOr.Rewrites t [.disj, .var w, .var w] [.var w] (t.release (.var w)) :=
  .rule (r := ⟨[Piece.disj, Piece.a, Piece.a], [Piece.a]⟩) (by decide)
    (Filling.fills_var w (by simp [Piece.a, Piece.disj]))

namespace State

/-- Doubles the symbol at the front and gives the result a name, time after time. -/
def doublings : Nat → Proof
  | 0 => []
  | k + 1 => ⟨.idempotentOr, 0⟩ :: ⟨.substitution, 0⟩ :: doublings k

/-- What is left after `k` doublings of `x0`: one symbol, and the count that it hides. -/
structure Doubled (k : Nat) (s : State) : Prop where
  tracked : s.Tracked
  single : ∃ w, s.formula.body = [.var w]
  room : 4 ≤ s.formula.capacity
  next : s.table.next = maxVariables + k
  count : s.table.total ⟨0⟩ = 2 ^ k

theorem Doubled.atMost {k : Nat} {s : State} (h : s.Doubled k) : s.table.AtMost (2 ^ k) := by
  intro v
  obtain ⟨w, hw⟩ := h.single
  have hle := h.tracked.total_le v
  rw [hw, h.next, Nat.add_sub_cancel_left] at hle
  exact Nat.le_trans hle (Nat.le_of_eq (Nat.one_mul _))

theorem Doubled.double {k : Nat} {s : State} (h : s.Doubled k) :
    ∃ w t, s.formula.body = [.var w] ∧ s.step? ⟨.idempotentOr, 0⟩ = some t ∧
      t.formula.body = [.disj, .var w, .var w] ∧ t.table.next = maxVariables + k ∧
      ∀ v, t.table.total v = 2 * s.table.total v := by
  obtain ⟨w, hw⟩ := h.single
  have htracks : s.table.Tracks [w] := by
    have := h.tracked
    unfold Tracked at this
    rwa [hw] at this
  have hslack : 2 ≤ s.formula.slack := by
    have hstop : s.formula.stop = 1 := by rw [← s.formula.length_body, hw, List.length_singleton]
    have := s.formula.stop_add_slack
    have := h.room
    omega
  have hbody : s.formula.body = [] ++ [.var w] ++ [] := hw
  obtain ⟨t, ht, htbody, httable⟩ := applyLaw?_of_rewrites hbody (Law.rewrites_double s.table w)
    (by simp; omega)
  refine ⟨w, t, hw, ht, htbody, ?_, ?_⟩
  · rw [httable, Bindings.next_retain, h.next]
  · intro v
    rw [httable, htracks.total_retain]

theorem Doubled.step {k : Nat} {s : State} (h : s.Doubled k) :
    ∃ t u, s.step? ⟨.idempotentOr, 0⟩ = some t ∧ t.step? ⟨.substitution, 0⟩ = some u ∧
      t.table.AtMost (2 ^ (k + 1)) ∧ u.Doubled (k + 1) := by
  obtain ⟨w, t, -, ht, htbody, hnext, htotal⟩ := h.double
  have hbody : t.formula.body = [] ++ [.disj, .var w, .var w] ++ [] := htbody
  obtain ⟨u, hu, hubody, hutable⟩ := applyLaw?_of_rewrites hbody
    (.collapse (d := .disj (.var w) (.var w)) (by simp [Definition.operands, Symbol.isOperand]))
    (by simp; omega)
  have htsteps := step?_eq_some ht
  have husteps := applyLaw?_eq_some hu
  have httracked : t.Tracked := h.tracked.steps htsteps
  refine ⟨t, u, ht, hu, ?_, httracked.steps husteps, ⟨_, hubody⟩, ?_, ?_, ?_⟩
  · intro v
    have := h.atMost v
    rw [htotal, Nat.pow_succ]
    omega
  · rw [husteps.capacity, htsteps.capacity]
    exact h.room
  · rw [hutable, httracked.define_eq, ← Nat.add_assoc, ← hnext]
    rfl
  · have hne : (⟨0⟩ : Var) ≠ ⟨t.table.next⟩ := by
      have := httracked.reserve
      unfold maxVariables at this
      rw [ne_eq, Var.mk.injEq]
      omega
    rw [hutable, Bindings.total_eq, httracked.get?_define, if_neg hne, ← Bindings.total_eq, htotal,
      h.count, Nat.pow_succ, Nat.mul_comm]

theorem Doubled.run {m : Nat} {s : State} (h : s.Doubled m) (k : Nat) :
    (s.states? (doublings k)).isSome ∧
      (∀ q, q <+: doublings k → (s.after q).table.AtMost (2 ^ (m + k))) ∧
      (s.after (doublings k)).Doubled (m + k) := by
  induction k generalizing m s with
  | zero =>
    refine ⟨rfl, ?_, h⟩
    intro q hq
    rw [List.prefix_nil.mp hq]
    exact h.atMost
  | succ k ih =>
    obtain ⟨t, u, ht, hu, htmost, hdoubled⟩ := h.step
    obtain ⟨hstates, hmost, hend⟩ := ih hdoubled
    have hsum : m + 1 + k = m + (k + 1) := by omega
    have hpow {i : Nat} (hi : i ≤ m + 1) : 2 ^ i ≤ 2 ^ (m + (k + 1)) :=
      Nat.pow_le_pow_right (by decide) (by omega)
    have hafter (q) : s.after (⟨.idempotentOr, 0⟩ :: q) = t.after q := by
      rw [after_cons, attempt_of_step? ht]
    have hafter' (q) : t.after (⟨.substitution, 0⟩ :: q) = u.after q := by
      rw [after_cons, attempt_of_step? hu]
    rw [hsum] at hmost hend
    refine ⟨?_, ?_, ?_⟩
    · simp only [doublings, states?, ht, hu, Option.bind_some, Option.isSome_map]
      exact hstates
    · intro q hq
      rcases List.prefix_cons_iff.mp hq with rfl | ⟨q, rfl, hrest⟩
      · exact h.atMost.mono (hpow (Nat.le_succ m))
      · rw [hafter]
        rcases List.prefix_cons_iff.mp hrest with rfl | ⟨q, rfl, hlast⟩
        · exact htmost.mono (hpow (Nat.le_refl _))
        · rw [hafter']
          exact hmost q hlast
    · rw [doublings, hafter, hafter']
      exact hend

theorem doubled_ofFormula {slack : Nat} {f : Formula}
    (hf : Formula.ofBody [.x 0] slack = .ok f) : (ofFormula f).Doubled 0 := by
  have htracked := tracked_ofFormula hf
  obtain ⟨hslack, -, -, vars, -, rfl⟩ := Formula.ofBody_eq_ok_iff.mp hf
  have hcapacity : (ofFormula (.ofParts [.x 0] slack vars)).formula.capacity = slack + 2 := by
    simp [ofFormula, Formula.capacity, Formula.ofParts]
  refine ⟨htracked, ⟨⟨0⟩, Formula.body_ofParts ..⟩, ?_, rfl, rfl⟩
  unfold minSlack at hslack
  omega

theorem exists_ofBody_x {slack : Nat} (h : minSlack ≤ slack) :
    ∃ f, Formula.ofBody [.x 0] slack = .ok f :=
  ⟨_, Formula.ofBody_eq_ok_iff.mpr ⟨h, rfl, rfl, 1, by cbv, rfl⟩⟩

/-- After `k` steps that give a name, no count is above `(c - 1) * 2 ^ k` for a tape of `c` cells,
nor is one on the way. The growth is real: 31 doublings of `x0` lead to a count of `2 ^ 31`. -/
theorem counts_bounded :
    (∀ (body : List Symbol) (slack : Nat) (f : Formula), Formula.ofBody body slack = .ok f →
      ∀ p : Proof,
        let c := f.capacity
        let k := (ofFormula f).collapses p
        let u := (ofFormula f).after p
        (∀ x, u.table.count x ≤ (c - 1) * 2 ^ k) ∧ runCounted ((c - 1) * 2 ^ k) f p = .ok u ∧
          (c * 2 ^ k ≤ 2 ^ 32 → runCounted (2 ^ 32 - 1) f p = .ok u)) ∧
      ∀ slack k, minSlack ≤ slack → k ≤ 31 →
        ∃ f u, Formula.ofBody [.x 0] slack = .ok f ∧
          ((ofFormula f).states? (doublings k)).isSome = true ∧
          runCounted (2 ^ 32 - 1) f (doublings k) = .ok u ∧ u.table.count (.x 0) = 2 ^ k := by
  refine ⟨?_, ?_⟩
  · intro body slack f hf p c k u
    have hmost (q) (hq : q <+: p) := atMost_after hf hq
    exact ⟨Bindings.count_le_of_atMost (hmost p List.prefix_rfl), runCounted_eq hf hmost,
      fun hle => runCounted_eq hf (fitsWords_of_le hf hle)⟩
  · intro slack k hslack hk
    obtain ⟨f, hf⟩ := exists_ofBody_x hslack
    obtain ⟨hstates, hmost, hend⟩ := (doubled_ofFormula hf).run k
    rw [Nat.zero_add] at hmost hend
    refine ⟨f, _, hf, hstates, runCounted_eq hf fun q hq => (hmost q hq).mono ?_, hend.count⟩
    have hpow : 2 ^ k ≤ 2 ^ 31 := Nat.pow_le_pow_right (by decide) hk
    omega

theorem counts_bounded_three :
    ∃ f u, Formula.ofBody [.x 0] 7 = .ok f ∧ minSlack ≤ 7 ∧ f.capacity = 9 ∧
      (ofFormula f).collapses (doublings 3) = 3 ∧ f.capacity * 2 ^ 3 ≤ 2 ^ 32 ∧
      runCounted ((f.capacity - 1) * 2 ^ 3) f (doublings 3) = .ok u ∧
      runCounted (2 ^ 32 - 1) f (doublings 3) = .ok u ∧ u.table.count (.x 0) = 2 ^ 3 := by
  obtain ⟨hbounded, hgrowth⟩ := counts_bounded
  obtain ⟨f, u, hf, -, hrun, hcount⟩ := hgrowth 7 3 (by decide) (by decide)
  have hparts : Formula.ofBody [.x 0] 7 = .ok (.ofParts [.x 0] 7 1) := by cbv
  obtain rfl : f = .ofParts [.x 0] 7 1 := Except.ok.inj (hf.symm.trans hparts)
  have hcollapses : (ofFormula (.ofParts [.x 0] 7 1)).collapses (doublings 3) = 3 := by decide
  obtain ⟨-, hlimit, hword⟩ := hbounded _ _ _ hf (doublings 3)
  rw [hcollapses] at hlimit hword
  have hu := Except.ok.inj (hrun.symm.trans (hword (by decide)))
  exact ⟨_, u, hf, by decide, rfl, hcollapses, by decide, hu ▸ hlimit, hrun, hcount⟩

-- The second doubling would take the count to 4.
example : runCounted 3 (.ofParts [.x 0] 7 1) (doublings 2) = .error (.over ⟨0⟩) := by cbv

end State

end LawProof
