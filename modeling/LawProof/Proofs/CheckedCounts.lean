import LawProof.Proofs.Atomicity
import LawProof.Proofs.Discipline

/-!
# Counting up to a limit

A law counts only up or only down, so on the way from one table to the next no count is above both
of them, and an entry goes before its count is zero. So where the tables of a run stay within a
limit, any way of counting that is right up to it gives this run. That may be counting with checks,
where a count may not pass the limit and nothing is taken from a count of zero, and no fault comes
up. Or it may be counting in words.
-/

namespace LawProof

/-- A count that would be out of range. -/
inductive CountFault where
  | over (v : Var)
  | under (v : Var)
deriving DecidableEq, Repr

namespace Counting

/-- Every change to a count is checked. -/
def upTo (limit : Nat) : Counting (Except CountFault) where
  up v n := if n < limit then .ok (n + 1) else .error (.over v)
  down v n := if n = 0 then .error (.under v) else .ok (n - 1)

theorem exactUpTo_upTo (limit : Nat) : (upTo limit).ExactUpTo limit where
  up _ _ h := if_pos h
  down _ _ h := if_neg (Nat.ne_of_gt h)

end Counting

/-- Works all steps of a run with every change to a count checked. -/
def State.runCounted (limit : Nat) (f : Formula) (p : Proof) : Except CountFault State :=
  State.runBy (.upTo limit) f p

/-! ## Operations -/

namespace Op

open Bindings (AtMost Grows Positive)

variable {α : Type} {op : Op α} {Q : α → Nat → Way → Prop} {s : State} {way : Way}
  {capacity n : Nat}

theorem grows_of_wp (h : op.wp capacity Q n .up) :
    op.way .up = .up ∧ s.table.Grows (op.runBy .exact s : α × State).2.table := by
  cases op with
  | retain x =>
    rw [run_retain]
    exact ⟨rfl, s.table.grows_retain x⟩
  | release | spellOut => simp at h
  | define | definition? => simp at h
  | _ => exact ⟨rfl, s.table.grows_refl⟩

theorem positive_of_wp (h : op.wp capacity Q n way) (hs : way ≠ .up → s.table.Positive)
    (hway : op.way way ≠ .up) : (op.runBy .exact s : α × State).2.table.Positive := by
  cases op with
  | retain => exact absurd rfl hway
  | release x =>
    have hpos := hs (Way.ne_up h.1)
    rw [run_release]
    exact hpos.releaseWithin s.table.chainBound x
  | spellOut x =>
    have hpos := hs (Way.ne_up h.1)
    rw [run_spellOut]
    exact hpos.expand x
  | define d => exact (hs (by simp [h.1])).define d
  | _ => exact hs hway

theorem runBy_eq {m : Type → Type} [Monad m] [LawfulMonad m] {c : Counting m} {limit : Nat}
    (hc : c.ExactUpTo limit) (h : op.wp capacity Q n way) (hs : way ≠ .up → s.table.Positive)
    (hmost : op.way way = .up → (op.runBy .exact s : α × State).2.table.AtMost limit) :
    op.runBy c s = pure (op.runBy .exact s : α × State) := by
  cases op with
  | retain x =>
    rw [run_retain] at hmost ⊢
    simp only [runBy, Bindings.retainBy_eq hc (hmost rfl), pure_bind]
  | release x =>
    have hpos := hs (Way.ne_up h.1)
    rw [run_release]
    simp only [runBy, hpos.releaseBy_eq hc, pure_bind]
  | spellOut x =>
    have hpos := hs (Way.ne_up h.1)
    rw [run_spellOut]
    simp only [runBy, hpos.expandBy_eq hc, pure_bind]
  | _ => rfl

end Op

/-! ## Work and runs -/

namespace Work

open Bindings (AtMost Grows Positive)

variable {α : Type} {w : Work α} {Q : α → Nat → Way → Prop} {s : State} {way : Way}

theorem grows_run (h : w.wp s.formula.capacity Q s.formula.stop .up) :
    s.table.Grows (w.run s).2.table := by
  induction w generalizing s with
  | done a => exact s.table.grows_refl
  | step op next ih =>
    obtain ⟨hcapacity, hnext⟩ := Op.wp_runBy .exact h
    obtain ⟨hway, hgrows⟩ := Op.grows_of_wp (s := s) h
    rw [← hcapacity, hway] at hnext
    exact hgrows.trans (ih _ hnext)

/-- Where the table at the end is within the limit, the way of counting makes no difference. -/
theorem runBy_eq {m : Type → Type} [Monad m] [LawfulMonad m] {c : Counting m} {limit : Nat}
    (hc : c.ExactUpTo limit) (h : w.wp s.formula.capacity Q s.formula.stop way)
    (hs : way ≠ .up → s.table.Positive) (hend : (w.run s).2.table.AtMost limit) :
    w.runBy c s = pure (w.run s) := by
  induction w generalizing s way with
  | done a => rfl
  | step op next ih =>
    obtain ⟨hcapacity, hnext⟩ := Op.wp_runBy .exact h
    rw [← hcapacity] at hnext
    have hop := Op.runBy_eq hc h hs fun hup => (grows_run (hup ▸ hnext)).atMost hend
    show (op.runBy c s >>= fun r => (next r.1).runBy c r.2) = _
    rw [hop, pure_bind]
    exact ih _ hnext (Op.positive_of_wp h hs) hend

end Work

namespace State

variable {m : Type → Type} [Monad m] [LawfulMonad m] {c : Counting m} {limit : Nat}

theorem applyBy_eq (hc : c.ExactUpTo limit) {s : State} (hs : s.table.Positive) {step : Step}
    (h : (s.attempt step).table.AtMost limit) :
    s.applyBy c step.law step.position = pure (s.take step) := by
  have hrun : (Work.apply step.law step.position).run s = s.take step :=
    s.applyInPlace_eq step.law step.position
  rw [← hrun]
  refine Work.runBy_eq hc (Work.wp_apply s.formula.stop_lt _ _) (fun _ => hs) ?_
  rw [hrun, snd_take]
  exact h

theorem afterBy_eq (hc : c.ExactUpTo limit) {s : State} (hs : s.Tracked) {p : Proof}
    (h : ∀ q, q <+: p → (s.after q).table.AtMost limit) : s.afterBy c p = pure (s.after p) := by
  induction p generalizing s with
  | nil => rfl
  | cons step p ih =>
    have hone := h [step] (List.cons_prefix_cons.mpr ⟨rfl, List.nil_prefix⟩)
    rw [after_cons, afterBy, applyBy_eq hc hs.positive hone, pure_bind, snd_take]
    apply ih (hs.after [step])
    intro q hq
    exact h (step :: q) (List.cons_prefix_cons.mpr ⟨rfl, hq⟩)

/-- Where no table of a run passes the limit, none of its counts does in between. -/
theorem runBy_eq (hc : c.ExactUpTo limit) {body : List Symbol} {slack : Nat} {f : Formula}
    (hf : Formula.ofBody body slack = .ok f) {p : Proof}
    (h : ∀ q, q <+: p → ((ofFormula f).after q).table.AtMost limit) :
    runBy c f p = pure ((ofFormula f).after p) := by
  have hseed : Bindings.ofBodyBy c f.body = pure (ofFormula f).table :=
    Bindings.ofBodyBy_eq hc (h [] List.nil_prefix)
  unfold runBy
  rw [hseed, pure_bind]
  exact afterBy_eq hc (tracked_ofFormula hf) h

theorem runCounted_eq {body : List Symbol} {slack : Nat} {f : Formula}
    (hf : Formula.ofBody body slack = .ok f) {p : Proof}
    (h : ∀ q, q <+: p → ((ofFormula f).after q).table.AtMost limit) :
    runCounted limit f p = .ok ((ofFormula f).after p) :=
  runBy_eq (Counting.exactUpTo_upTo limit) hf h

end State

end LawProof
