import LawProof.Proofs.Limits
import LawProof.Proofs.Runs
import LawProof.Proofs.Values

/-!
# Meaning along a run

A valuation gives every variable a value. It agrees with a table when the inputs have the values of
their bits and each name has the value of what it stands for. A law keeps the value of the formula
under a valuation, and where it gives a new name the valuation is extended. So the value of a
written formula is that of every working formula that it leads to.
-/

namespace LawProof

open Body (varsOf stack under)

/-! ## Valuations -/

/-- The valuation gives the inputs the values of their bits and each name the value of what it
stands for. -/
structure Bindings.Agrees (t : Bindings) (bits : Nat) (ρ : Var → Bool) : Prop where
  input : ∀ v, v.isSynthetic = false → ρ v = bits.testBit v.id
  defined : ∀ v d, t.definition? v = some d → ρ v = d.valueIn ρ

namespace Bindings

theorem Agrees.within {t t' : Bindings} {bits : Nat} {ρ : Var → Bool} (h : t.Agrees bits ρ)
    (hw : t'.Within t) : t'.Agrees bits ρ :=
  ⟨h.input, fun v d hd => h.defined v d (hw v d hd)⟩

theorem within_foldl_recount (r : Rule) (σ : Filling) (slots : List Slot) (t : Bindings) :
    (slots.foldl (r.recount σ) t).Within t :=
  foldl_recount_preserves (P := fun u => u.Within t)
    (fun u s hu v d hd => hu v d (u.within_retain s v d hd))
    (fun u s hu v d hd => hu v d (u.within_release s v d hd)) r σ slots fun _ _ => id

theorem Tracks.definition?_of_mem {t : Bindings} {xs vs : List Var} (h : t.Tracks xs)
    (hvs : Spelled t xs vs) {v : Var} (hv : v ∈ vs) (hsyn : v.isSynthetic = true) :
    ∃ d, t.definition? v = some d := by
  obtain ⟨b, hb⟩ := h.get?_of_mem_spelled hvs hv
  rw [definition?_of_get? hb, ← Option.isSome_iff_exists]
  exact (h.named v b hb).mpr hsyn

theorem rank_pos {t : Bindings} {v : Var} {b : Binding} (h : t.get? v = some b) : 0 < t.rank v := by
  unfold rank
  apply List.length_pos_of_mem (a := (v, b))
  rw [List.mem_filter]
  exact ⟨mem_of_lookup h, by simp⟩

theorem Tracks.valueWithin_eq {t : Bindings} {xs vs : List Var} (h : t.Tracks xs)
    (hvs : Spelled t xs vs) {bits : Nat} {ρ : Var → Bool} (hρ : t.Agrees bits ρ) {n : Nat} {v : Var}
    (hv : v ∈ vs) (hn : t.rank v < n) : t.valueWithin bits n (.var v) = some (ρ v) := by
  induction n generalizing v with
  | zero => omega
  | succ n ih =>
    cases hsyn : v.isSynthetic with
    | false =>
      rw [hρ.input v hsyn]
      simp [valueWithin, Var.bit?, hsyn]
    | true =>
      obtain ⟨d, hd⟩ := h.definition?_of_mem hvs hv hsyn
      obtain ⟨b, hb⟩ := h.get?_of_mem_spelled hvs hv
      have hpos := rank_pos hb
      -- A part of `v` has a lower rank than `v`, so a depth of `n` is enough for it.
      have hoperand : ∀ s ∈ d.operands, t.valueWithin bits n s = some (s.valueIn ρ) := by
        intro s hs
        obtain ⟨m, rfl⟩ : ∃ m, n = m + 1 := ⟨n - 1, by omega⟩
        have hop := h.simple v d hd s hs
        cases s with
        | fls | tru => rfl
        | var w =>
          have hw : w ∈ t.parts v := by
            rw [parts_of_definition? hd]
            exact Body.mem_varsOf.mpr hs
          have hlt := rank_lt_rank h.descends hw
          exact ih (hvs.parts_subset hv hw) (by omega)
        | _ => simp [Symbol.isOperand] at hop
      rw [hρ.defined v d hd]
      have hbit : v.bit? = none := by simp [Var.bit?, hsyn]
      cases d with
      | neg a =>
        have ha := hoperand a List.mem_cons_self
        simp only [valueWithin, hbit, hd, ha]
        rfl
      | disj a b | conj a b =>
        have ha := hoperand a List.mem_cons_self
        have hb := hoperand b (List.mem_cons_of_mem _ List.mem_cons_self)
        simp only [valueWithin, hbit, hd, ha, hb]
        rfl

theorem Tracks.evaluate_eq {t : Bindings} {body : List Symbol} (h : t.Tracks (varsOf body))
    {bits : Nat} {ρ : Var → Bool} (hρ : t.Agrees bits ρ) :
    t.evaluate body bits = Body.value? (under ρ) body := by
  obtain ⟨vs, hvs, -⟩ := h.counted
  unfold Bindings.evaluate Body.value?
  rw [Body.stack_congr]
  intro v hv
  exact h.valueWithin_eq hvs hρ (hvs.subset hv) (t.rank_lt_chainBound v)

theorem Agrees.define {t : Bindings} {bits : Nat} {ρ : Var → Bool} (hρ : t.Agrees bits ρ)
    (h : t.Sound) {d : Definition} (hlt : ∀ w ∈ varsOf d.operands, w.id < t.next) :
    ∃ ρ', (t.define d).2.Agrees bits ρ' ∧ (∀ v, v.id < t.next → ρ' v = ρ v) ∧
      ρ' (t.define d).1 = d.valueIn ρ' := by
  let ρ' : Var → Bool := fun w => if w = ⟨t.next⟩ then d.valueIn ρ else ρ w
  have hkept : ∀ v : Var, v.id < t.next → ρ' v = ρ v := by
    intro v hv
    apply if_neg
    rintro rfl
    exact Nat.lt_irrefl _ hv
  have hnew : ρ' ⟨t.next⟩ = d.valueIn ρ' := by
    show (if _ then _ else _) = _
    rw [if_pos rfl]
    exact Definition.valueIn_congr fun w hw => (hkept w (hlt w hw)).symm
  refine ⟨ρ', ⟨?_, ?_⟩, hkept, ?_⟩
  · intro v hv
    have := isSynthetic_eq_false_iff.mp hv
    have := h.reserve
    rw [hkept v (by omega), hρ.input v hv]
  · intro v e he
    rw [h.definition?_define] at he
    split at he
    · rename_i hv
      rw [Option.some.injEq] at he
      rw [hv, ← he, hnew]
    · obtain ⟨b, hb, -⟩ := get?_of_definition? he
      have hv := h.below v b hb
      rw [hkept v hv, hρ.defined v e he]
      apply Definition.valueIn_congr
      intro w hw
      have := h.descends v w (by rw [parts_of_definition? he]; exact hw)
      rw [hkept w (by omega)]
  · rw [h.define_eq]
    exact hnew

/-- A law puts symbols with the same value in the place of others. The valuation changes at most at
a new name. -/
theorem Agrees.rewrites {t t' : Bindings} {bits : Nat} {ρ : Var → Bool} (hρ : t.Agrees bits ρ)
    (h : t.Sound) {law : Law} {old new : List Symbol} (hlt : ∀ w ∈ varsOf old, w.id < t.next)
    (hr : law.Rewrites t old new t') :
    ∃ ρ', t'.Agrees bits ρ' ∧ (∀ v, v.id < t.next → ρ' v = ρ v) ∧
      ∃ a, stack (under ρ') old = some [a] ∧ stack (under ρ') new = some [a] := by
  cases hr with
  | @rule _ r σ hr hσ =>
    refine ⟨ρ, hρ.within (within_foldl_recount r σ Slot.all t), fun _ _ => rfl, ?_⟩
    exact (Law.valid_of_mem_rules hr).stack_eq (Law.isSafe_of_mem_rules hr) hσ.operand ρ
  | @collapse d hd =>
    rw [Body.varsOf_symbols] at hlt
    obtain ⟨ρ', hρ', hkept, hnew⟩ := hρ.define h hlt
    refine ⟨ρ', hρ', hkept, d.valueIn ρ', Body.stack_symbols hd ρ', ?_⟩
    rw [← hnew]
    rfl
  | @spellOut v d hd =>
    refine ⟨ρ, hρ.within (within_expand t (.var v)), fun _ _ => rfl, ρ v, rfl, ?_⟩
    rw [hρ.defined v d hd]
    exact Body.stack_symbols (h.simple v d hd) ρ

end Bindings

/-! ## The run -/

theorem Body.evaluate_eq_under {body : List Symbol} {bits : Nat}
    (h : ∀ v ∈ varsOf body, v.isSynthetic = false) :
    evaluate body bits = value? (under fun v => bits.testBit v.id) body := by
  unfold evaluate value?
  rw [stack_congr]
  intro v hv
  simp [Var.bit?, h v hv, under]

theorem Bindings.definition?_ofBody (body : List Symbol) (v : Var) :
    (ofBody body).definition? v = none := by
  have hwithin : (ofBody body).Within empty := by
    unfold ofBody
    refine List.foldlRecOn (motive := (Within · empty)) _ _ (fun _ _ => id) ?_
    intro u hu s _ w e he
    exact hu w e (u.within_retain s w e he)
  rw [Option.eq_none_iff_forall_ne_some]
  intro d hd
  have := hwithin v d hd
  simp [definition?, get?, empty, lookup] at this

theorem Bindings.agrees_ofBody (body : List Symbol) (bits : Nat) :
    (ofBody body).Agrees bits fun v => bits.testBit v.id := by
  refine ⟨fun _ _ => rfl, ?_⟩
  intro v d hd
  simp [definition?_ofBody] at hd

namespace State

open Bindings (Spelled)

/-- Some valuation that agrees with the table leaves this stack for the working formula. -/
def Means (s : State) (bits : Nat) (st : Option (List Bool)) : Prop :=
  ∃ ρ, s.table.Agrees bits ρ ∧ stack (under ρ) s.formula.body = st

theorem Means.steps {s u : State} {law : Law} {position bits : Nat} {st : Option (List Bool)}
    (h : s.Means bits st) (htracked : s.Tracked) (hstep : s.Steps u law position) :
    u.Means bits st := by
  obtain ⟨ρ, hρ, rfl⟩ := h
  obtain ⟨old, new, rest, hbefore, hafter, hr⟩ := hstep.replaced
  have hlt : ∀ v ∈ varsOf s.formula.body, v.id < s.table.next := by
    intro v hv
    obtain ⟨b, hb⟩ := htracked.get?_of_mem hv
    exact htracked.below v b hb
  have hold : varsOf old ⊆ varsOf s.formula.body := by
    rw [hbefore, Body.varsOf_append, Body.varsOf_append]
    exact fun v hv => List.mem_append_left _ (List.mem_append_right _ hv)
  obtain ⟨ρ', hρ', hkept, a, haold, hanew⟩ :=
    hρ.rewrites htracked.toSound (fun v hv => hlt v (hold hv)) hr
  refine ⟨ρ', hρ', ?_⟩
  calc stack (under ρ') u.formula.body
      = stack (under ρ') s.formula.body := by
        rw [hafter, ← Body.stack_replace haold hanew, ← hbefore]
    _ = stack (under ρ) s.formula.body :=
        Body.stack_congr fun v hv => congrArg some (hkept v (hlt v hv))

theorem Means.after {s : State} {bits : Nat} {st : Option (List Bool)} (h : s.Means bits st)
    (htracked : s.Tracked) (p : Proof) : (s.after p).Means bits st := by
  have hboth : (s.after p).Tracked ∧ (s.after p).Means bits st := by
    refine after_preserves (P := fun u => u.Tracked ∧ u.Means bits st) ?_ ⟨htracked, h⟩ p
    rintro u w law position ⟨hu, hmeans⟩ hstep
    exact ⟨hu.steps hstep, hmeans.steps hu hstep⟩
  exact hboth.2

theorem Means.evaluate_eq {s : State} {bits : Nat} {a : Bool} (h : s.Means bits (some [a]))
    (htracked : s.Tracked) : s.evaluate bits = some a := by
  obtain ⟨ρ, hρ, hstack⟩ := h
  exact (Bindings.Tracks.evaluate_eq htracked hρ).trans (Body.value?_eq_some_iff.mpr hstack)

/-- Whatever steps are tried from a written formula, it keeps its value under every assignment, and
each name that still occurs has its definition. -/
theorem evaluate_after {body : List Symbol} {slack : Nat} {f : Formula}
    (hf : Formula.ofBody body slack = .ok f) (p : Proof) (bits : Nat) :
    let s := (ofFormula f).after p
    (∃ a, s.evaluate bits = some a ∧ Body.evaluate f.body bits = some a) ∧
      ∃ vs, Spelled s.table (varsOf s.formula.body) vs ∧
        ∀ v ∈ vs, v.isSynthetic = true → ∃ d, s.table.definition? v = some d := by
  intro s
  have hstart := tracked_ofFormula hf
  have h : s.Tracked := hstart.after p
  refine ⟨?_, ?_⟩
  · obtain ⟨hwritten, hbody⟩ := Formula.ofBody_eq_ok hf
    obtain ⟨a, ha⟩ := Body.value?_of_checkSyntax (fun v => bits.testBit v.id) hwritten.wellFormed
    rw [← hbody] at ha
    have hmeans : (ofFormula f).Means bits (some [a]) :=
      ⟨_, Bindings.agrees_ofBody f.body bits, Body.value?_eq_some_iff.mp ha⟩
    refine ⟨a, (hmeans.after hstart p).evaluate_eq h, ?_⟩
    rw [Body.evaluate_eq_under, ha]
    intro v hv
    rw [hbody, Body.mem_varsOf] at hv
    exact hwritten.inputs v hv
  · obtain ⟨vs, hvs, -⟩ := h.counted
    exact ⟨vs, hvs, fun v hv hsyn => h.definition?_of_mem hvs hv hsyn⟩

theorem evaluate_after_nested :
    ∃ f, Formula.ofBody [.disj, .conj, .x 0, .x 1, .neg, .conj, .x 0, .x 1] 7 = .ok f ∧
      ∃ s, s = (ofFormula f).after [⟨.substitution, 1⟩, ⟨.substitution, 3⟩, ⟨.substitution, 2⟩,
        ⟨.domination, 1⟩, ⟨.idempotentOr, 2⟩] ∧
      s.formula.body = [.disj, .var ⟨64⟩, .disj, .var ⟨66⟩, .var ⟨66⟩] ∧
      s.evaluate 2 = some true ∧ ∃ d, s.table.definition? ⟨65⟩ = some d := by
  have hf : Formula.ofBody [.disj, .conj, .x 0, .x 1, .neg, .conj, .x 0, .x 1] 7 =
      .ok (.ofParts [.disj, .conj, .x 0, .x 1, .neg, .conj, .x 0, .x 1] 7 2) := by cbv
  obtain ⟨⟨a, ha, hstart⟩, -⟩ := evaluate_after hf [⟨.substitution, 1⟩,
    ⟨.substitution, 3⟩, ⟨.substitution, 2⟩, ⟨.domination, 1⟩, ⟨.idempotentOr, 2⟩] 2
  have htrue : a = true := by
    rw [← Option.some.injEq, ← hstart]
    decide
  exact ⟨_, hf, _, rfl, by decide, htrue ▸ ha, ⟨_, rfl⟩⟩

end State

end LawProof
