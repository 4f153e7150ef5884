import LawProof.Proofs.InPlace
import LawProof.Proofs.Runs

/-!
# A law that fails changes nothing

Worked in place, a law does to the state what it should, and says so. Where it says that it did not
apply, it has not touched the state: no form of a law changes anything before its last test.
-/

namespace LawProof

namespace Work

open Piece (a b c neg disj conj fls tru)
open Law (bothWays)

variable {s : State} {i : Nat} (hi : i < s.formula.stop)

include hi

/-! ## Identity, idempotence, absorption and double negation -/

theorem makes_identity (op unit : Symbol) :
    (identity op unit i).Makes s i (s.firstEdit? i (bothWays [.sym op, a, .sym unit] [a])) := by
  apply Makes.rule hi
  · simp [Rule.LiesAt, Formula.Holds, a, Filling.get?, Formula.hasRoom_zero]
  · rintro ⟨hlen, rfl, ha, rfl⟩
    simp only [run_load, run_store, run_shiftLeft, run_pure, State.perform]
    congr 2
    exact Formula.shift_stores 3 1 [(0, s.formula.cell (i + 1))] hlen (by decide) (by simp)
  apply Makes.rule hi
  · simp [Rule.LiesAt, Formula.Holds, a, Filling.get?, Nat.succ_le_of_lt hi, and_comm]
  · rintro ⟨ha, hroom⟩
    simp only [run_load, run_store, run_shiftRight, run_pure, State.perform]
    simp (disch := omega) only [Formula.cell_shift]
    congr 2
    exact Formula.stores_shift 1 3 [(1, s.formula.cell i), (0, op), (2, unit)] hi hroom (by simp)
  · exact makes_fail rfl

theorem makes_idempotent (op : Symbol) :
    (idempotent op i).Makes s i (s.firstEdit? i (bothWays [.sym op, a, a] [a])) := by
  apply Makes.rule hi
  · simp [Rule.LiesAt, Formula.Holds, a, Filling.get?, Filling.put, Formula.hasRoom_zero,
      @eq_comm _ (s.formula.cell (i + 1))]
  · rintro ⟨hlen, rfl, ha, heq⟩
    have hcapacity : s.formula.stop < s.formula.capacity := s.formula.stop_lt
    simp only [run_load, run_store, run_shiftLeft, run_release, run_pure, State.perform]
    simp (disch := omega) only [Formula.cell_shift, Formula.cell_set_self]
    congr 2
    exact Formula.shift_stores 3 1 [(0, s.formula.cell (i + 1))] hlen (by decide) (by simp)
  apply Makes.rule hi
  · simp [Rule.LiesAt, Formula.Holds, a, Filling.get?, Nat.succ_le_of_lt hi, and_comm]
  · rintro ⟨ha, hroom⟩
    simp only [run_load, run_store, run_shiftRight, run_retain, run_pure, State.perform]
    simp (disch := omega) only [Formula.cell_shift, Formula.cell_set_of_ne]
    congr 2
    exact Formula.stores_shift 1 3 [(1, s.formula.cell i), (2, s.formula.cell i), (0, op)] hi hroom
      (by simp)
  · exact makes_fail rfl

theorem makes_absorption (outer inner filler : Symbol) :
    (absorption outer inner filler i).Makes s i (s.firstEdit? i
      [⟨[.sym outer, a, .sym inner, a, b], [a]⟩,
        ⟨[a], [.sym outer, a, .sym inner, a, .sym filler]⟩]) := by
  apply Makes.rule hi
  · simp [Rule.LiesAt, Formula.Holds, a, b, Filling.get?, Filling.put, Formula.hasRoom_zero]
  · rintro ⟨hlen, rfl, ha, rfl, heq, hb⟩
    simp only [run_load, run_store, run_shiftLeft, run_release, run_pure, State.perform]
    congr 2
    exact Formula.shift_stores 5 1 [(0, s.formula.cell (i + 1))] hlen (by decide) (by simp)
  apply Makes.rule hi
  · simp [Rule.LiesAt, Formula.Holds, a, Filling.get?, Nat.succ_le_of_lt hi, and_comm]
  · rintro ⟨ha, hroom⟩
    have hcapacity : s.formula.stop + 4 < s.formula.capacity := of_decide_eq_true hroom
    have hshift : (s.formula.shift (i + 1) (i + 5)).capacity = s.formula.capacity :=
      Formula.capacity_shift hi (by omega)
    simp only [run_load, run_store, run_shiftRight, run_retain, run_pure, State.perform]
    simp (disch := omega) only [Formula.cell_shift, Formula.cell_set_of_ne, Formula.cell_set_self]
    congr 2
    exact Formula.stores_shift 1 5 [(1, s.formula.cell i), (3, s.formula.cell i), (0, outer),
      (2, inner), (4, filler)] hi hroom (by simp)
  · exact makes_fail rfl

theorem makes_doubleNegation :
    (doubleNegation i).Makes s i (s.firstEdit? i (bothWays [neg, neg, a] [a])) := by
  apply Makes.rule hi
  · simp [Rule.LiesAt, Formula.Holds, a, neg, Filling.get?, Formula.hasRoom_zero]
  · rintro ⟨hlen, hneg, hneg', ha⟩
    simp only [run_load, run_store, run_shiftLeft, run_pure, State.perform]
    congr 2
    exact Formula.shift_stores 3 1 [(0, s.formula.cell (i + 2))] hlen (by decide) (by simp)
  apply Makes.rule hi
  · simp [Rule.LiesAt, Formula.Holds, a, neg, Filling.get?, Nat.succ_le_of_lt hi, and_comm]
  · rintro ⟨ha, hroom⟩
    simp only [run_load, run_store, run_shiftRight, run_pure, State.perform]
    simp (disch := omega) only [Formula.cell_shift]
    congr 2
    exact Formula.stores_shift 1 3 [(2, s.formula.cell i), (0, .neg), (1, .neg)] hi hroom (by simp)
  · exact makes_fail rfl

/-! ## Two operands and a connective -/

theorem makes_commutative :
    (commutative i).Makes s i (s.firstEdit? i
      [⟨[disj, a, b], [disj, b, a]⟩, ⟨[conj, a, b], [conj, b, a]⟩]) := by
  apply Makes.pair (r := fun op => ⟨[.sym op, a, b], [.sym op, b, a]⟩) hi .disj 0 rfl
    (fun x h => h.2.2.1)
  · simp [Rule.LiesAt, Formula.Holds, a, b, Filling.get?, Filling.put, Formula.hasRoom_zero,
      and_left_comm]
  · rintro ⟨hlen, hop, ha, hb⟩
    rw [run_swap, run_pure, Formula.swap_eq_splice 0 hlen]
    rfl
  · exact makes_fail rfl

theorem makes_associative :
    (associative i).Makes s i
      (s.firstEdit? i (Law.association disj ++ Law.association conj)) := by
  have hmem : ∀ op r, op.isBinary → r ∈ Law.association (.sym op) →
      r ∈ Law.association disj ++ Law.association conj := by
    intro op r hop hr
    cases op <;> simp [Symbol.isBinary] at hop
    · exact List.mem_append_left _ hr
    · exact List.mem_append_right _ hr
  refine .guard hi 5 0 (by decide) (fun hlen _ => hlen) fun hlen => ?_
  have hroom := s.formula.hasRoom_zero
  apply makes_of hi
  · intro r hr hlies
    obtain ⟨op, hop, hr⟩ : ∃ op : Symbol, op.isBinary ∧ r ∈ Law.association (.sym op) := by
      rcases List.mem_append.mp hr with hr | hr
      · exact ⟨.disj, rfl, hr⟩
      · exact ⟨.conj, rfl, hr⟩
    rw [run_load]
    rcases List.mem_cons.mp hr with rfl | hr
    · obtain ⟨-, -, h0, h1, ha, hb, hc, -⟩ := hlies
      rw [run_if_pos ⟨h0 ▸ hop, Or.inr ha, Or.inl (h1.trans h0.symm), hb, hc⟩, run_swap, run_pure,
        Formula.swap_eq_splice 2 hlen, h0, h1]
      rfl
    · obtain rfl := List.mem_singleton.mp hr
      obtain ⟨-, -, h0, ha, h1, hb, hc, -⟩ := hlies
      rw [run_if_pos ⟨h0 ▸ hop, Or.inl ha, Or.inr (h1.trans h0.symm), hb, hc⟩, run_swap, run_pure,
        Formula.swap_eq_splice 2 hlen, h0, h1]
      rfl
  · intro hno
    rw [run_load, run_if_neg, run_pure]
    rintro ⟨hop, hab, hor, hb, hc⟩
    -- The connective that comes second is not an operand, so the other of the two cells is one.
    rcases hor with h1 | h1
    · rw [h1, Symbol.isOperand_eq_false hop] at hab
      exact hno _ (hmem _ _ hop List.mem_cons_self)
        ⟨hlen, hroom, rfl, h1, by simpa using hab, hb, hc, trivial⟩
    · rw [h1, Symbol.isOperand_eq_false hop] at hab
      exact hno _ (hmem _ _ hop (List.mem_cons_of_mem _ List.mem_cons_self))
        ⟨hlen, hroom, rfl, by simpa using hab, h1, hb, hc, trivial⟩

theorem makes_distribute :
    (distribute i).Makes s i
      (s.firstEdit? i [Law.distribution disj conj, Law.distribution conj disj]) := by
  refine .guard hi 5 2 (by decide) And.intro fun ⟨hlen, hroom⟩ => ?_
  apply Makes.pair (r := fun op => Law.distribution (.sym op) (.sym op.dual)) hi .disj 0 rfl
    (fun x h => h.2.2.1)
  · constructor
    · rintro ⟨hop, hdual, ha, hb, hc⟩
      exact ⟨hop, hlen, hroom, rfl, ha, hdual, hb, hc, trivial⟩
    · rintro ⟨hop, -, -, -, ha, hdual, hb, hc, -⟩
      exact ⟨hop, hdual, ha, hb, hc⟩
  · rintro ⟨hop, hdual, ha, hb, hc⟩
    have hcapacity : s.formula.stop + 2 < s.formula.capacity := of_decide_eq_true hroom
    have hshift : (s.formula.shift (i + 5) (i + 7)).capacity = s.formula.capacity :=
      Formula.capacity_shift hlen (by omega)
    simp only [run_load, run_store, run_shiftRight, run_retain, run_pure, State.perform]
    simp (disch := omega) only [Formula.cell_shift, Formula.cell_set_of_ne]
    rw [Formula.cell_set_self (by rw [Formula.capacity_set, hshift]; omega), hdual]
    congr 2
    exact Formula.stores_shift 5 7 [(6, s.formula.cell (i + 4)), (5, s.formula.cell (i + 1)),
      (1, s.formula.cell i), (4, s.formula.cell i), (0, (s.formula.cell i).dual),
      (2, s.formula.cell (i + 1))] hlen hroom (by simp)
  · exact makes_fail rfl

theorem makes_factor :
    (factor i).Makes s i (s.firstEdit? i
      [(Law.distribution disj conj).flip, (Law.distribution conj disj).flip]) := by
  refine .guard hi 7 0 (by decide) (fun hlen _ => hlen) fun hlen => ?_
  apply Makes.pair (r := fun op => (Law.distribution (.sym op.dual) (.sym op)).flip) hi .conj 0
    rfl (fun x h => h.2.2.1)
  · constructor
    · rintro ⟨hop, hdual, hdual', ha, hb, hc, heq⟩
      exact ⟨hop, hlen, s.formula.hasRoom_zero, rfl, hdual, ha, hb, hdual', heq.symm, hc, trivial⟩
    · rintro ⟨hop, -, -, -, hdual, ha, hb, hdual', heq, hc, -⟩
      exact ⟨hop, hdual, hdual', ha, hb, hc, heq.symm⟩
  · rintro ⟨hop, hdual, hdual', ha, hb, hc, heq⟩
    have hcapacity : s.formula.stop < s.formula.capacity := s.formula.stop_lt
    simp only [run_load, run_store, run_shiftLeft, run_release, run_pure, State.perform]
    simp (disch := omega) only [Formula.cell_shift, Formula.cell_set_of_ne, Formula.cell_set_self]
    rw [hdual']
    congr 2
    exact Formula.shift_stores 7 5 [(1, s.formula.cell (i + 2)), (2, s.formula.cell i),
      (0, (s.formula.cell i).dual), (4, s.formula.cell (i + 6))] hlen (by decide) (by simp)
  · exact makes_fail rfl

theorem makes_deMorganExpand :
    (deMorganExpand i).Makes s i
      (s.firstEdit? i [Law.deMorgan disj conj, Law.deMorgan conj disj]) := by
  refine .guard hi 4 1 (by decide) And.intro fun ⟨hlen, hroom⟩ => ?_
  apply Makes.pair (r := fun op => Law.deMorgan (.sym op) (.sym op.dual)) hi .disj 1 rfl
    (fun x h => h.2.2.2.1)
  · constructor
    · rintro ⟨hneg, hop, ha, hb⟩
      exact ⟨hop, hlen, hroom, hneg, rfl, ha, hb, trivial⟩
    · rintro ⟨hop, -, -, hneg, -, ha, hb, -⟩
      exact ⟨hneg, hop, ha, hb⟩
  · rintro ⟨hneg, hop, ha, hb⟩
    simp only [run_load, run_store, run_shiftRight, run_pure, State.perform]
    simp (disch := omega) only [Formula.cell_shift, Formula.cell_set_of_ne]
    congr 2
    exact Formula.stores_shift 4 5 [(0, (s.formula.cell (i + 1)).dual), (1, .neg),
      (4, s.formula.cell (i + 3)), (3, .neg)] hlen hroom (by simp)
  · exact makes_fail rfl

theorem makes_deMorganFactor :
    (deMorganFactor i).Makes s i (s.firstEdit? i
      [(Law.deMorgan disj conj).flip, (Law.deMorgan conj disj).flip]) := by
  refine .guard hi 5 0 (by decide) (fun hlen _ => hlen) fun hlen => ?_
  apply Makes.pair (r := fun op => (Law.deMorgan (.sym op.dual) (.sym op)).flip) hi .conj 0 rfl
    (fun x h => h.2.2.1)
  · constructor
    · rintro ⟨hop, hneg, ha, hneg', hb⟩
      exact ⟨hop, hlen, s.formula.hasRoom_zero, rfl, hneg, ha, hneg', hb, trivial⟩
    · rintro ⟨hop, -, -, -, hneg, ha, hneg', hb, -⟩
      exact ⟨hop, hneg, ha, hneg', hb⟩
  · rintro ⟨hop, hneg, ha, hneg', hb⟩
    simp only [run_load, run_store, run_shiftLeft, run_pure, State.perform]
    simp (disch := omega) only [Formula.cell_set_of_ne]
    congr 2
    exact Formula.shift_stores 5 4 [(1, (s.formula.cell i).dual), (0, .neg),
      (3, s.formula.cell (i + 4))] hlen (by decide) (by simp)
  · exact makes_fail rfl

/-! ## Constants -/

theorem makes_onConstant {growth : Nat} {work : Bool → Work Unit} {r : Bool → Rule}
    {rules : List Rule} (hmem : ∀ v, r v ∈ rules)
    (hrules : ∀ r' ∈ rules, r'.LiesAt s.formula i → ∃ v, r' = r v)
    (hr : ∀ v, (r v).LiesAt s.formula i ↔
      s.formula.cell i = .constant v ∧ s.formula.hasRoom growth)
    (hwork : ∀ v, s.formula.cell i = .constant v → s.formula.hasRoom growth →
      (work v).run s = ((), s.perform i ((r v).editAt s i))) :
    (onConstant i growth work).Makes s i (s.firstEdit? i rules) := by
  apply makes_of hi
  · intro r' hr' h
    obtain ⟨v, rfl⟩ := hrules r' hr' h
    obtain ⟨hcell, hroom⟩ := (hr v).mp h
    rw [run_onConstant, hcell, Symbol.value?_constant]
    simp only [hroom, if_true, hwork v hcell hroom]
  · intro h
    rw [run_onConstant]
    cases hv : (s.formula.cell i).value? with
    | none => rfl
    | some v =>
      exact if_neg fun hroom => h (r v) (hmem v) ((hr v).mpr ⟨Symbol.eq_constant hv, hroom⟩)

theorem makes_complement :
    (complement i).Makes s i (s.firstEdit? i
      [⟨[disj, a, neg, a], [tru]⟩, ⟨[conj, a, neg, a], [fls]⟩,
      ⟨[tru], [disj, tru, neg, tru]⟩, ⟨[fls], [conj, tru, neg, tru]⟩]) := by
  apply Makes.pair (r := fun op => ⟨[.sym op, a, neg, a], [.sym (.constant (op = .disj))]⟩) hi
    .disj 0 rfl (fun x h => h.2.2.1)
  · simp [Rule.LiesAt, Formula.Holds, a, neg, Filling.get?, Filling.put, Formula.hasRoom_zero,
      and_left_comm]
  · rintro ⟨hlen, hop, ha, hneg, heq⟩
    simp only [run_load, run_store, run_shiftLeft, run_release, run_pure, State.perform]
    congr 2
    exact Formula.stores_shift 4 1 [(0, .constant (s.formula.cell i = .disj))] hlen
      s.formula.hasRoom_zero (by simp)
  · apply makes_onConstant (r := fun v =>
      ⟨[.sym (.constant v)], [.sym (if v then .disj else .conj), tru, neg, tru]⟩) hi
    · exact fun v => by cases v <;> simp [Symbol.constant, tru, fls, disj, conj]
    · simp [Symbol.constant, tru, fls, disj, conj]
    · simp [Rule.LiesAt, Formula.Holds, Nat.succ_le_of_lt hi, and_comm]
    · intro v hv hroom
      exact congrArg (fun f => ((), (⟨f, s.table⟩ : State))) (Formula.stores_shift 1 4
        [(0, if v then .disj else .conj), (1, .tru), (2, .neg), (3, .tru)] hi hroom (by simp))

theorem makes_domination :
    (domination i).Makes s i (s.firstEdit? i
      [⟨[disj, a, tru], [tru]⟩, ⟨[conj, a, fls], [fls]⟩,
        ⟨[tru], [disj, tru, tru]⟩, ⟨[fls], [conj, fls, fls]⟩]) := by
  apply Makes.pair (r := fun op => ⟨[.sym op, a, .sym (.constant (op = .disj))],
    [.sym (.constant (op = .disj))]⟩) hi .disj 0 rfl (fun x h => h.2.2.1)
  · rw [Symbol.dominates_iff]
    constructor
    · rintro ⟨hlen, ha, hop, hk⟩
      exact ⟨hop, hlen, s.formula.hasRoom_zero, rfl, ha, hk, trivial⟩
    · rintro ⟨hop, hlen, -, -, ha, hk, -⟩
      exact ⟨hlen, ha, hop, hk⟩
  · rintro ⟨hlen, ha, hdominates⟩
    obtain ⟨hop, hconstant⟩ := Symbol.dominates_iff.mp hdominates
    simp only [run_load, run_store, run_shiftLeft, run_release, run_pure, State.perform]
    rw [hconstant]
    congr 2
    exact Formula.shift_stores 3 1 [(0, .constant (s.formula.cell i = .disj))] hlen (by decide)
      (by simp)
  · apply makes_onConstant (r := fun v => ⟨[.sym (.constant v)],
      [.sym (if v then .disj else .conj), .sym (.constant v), .sym (.constant v)]⟩) hi
    · exact fun v => by cases v <;> simp [Symbol.constant, tru, fls, disj, conj]
    · simp [Symbol.constant, tru, fls, disj, conj]
    · simp [Rule.LiesAt, Formula.Holds, Nat.succ_le_of_lt hi, and_comm]
    · intro v hv hroom
      rw [run_load, hv]
      exact congrArg (fun f => ((), (⟨f, s.table⟩ : State))) (Formula.stores_shift 1 3
        [(0, if v then .disj else .conj), (1, .constant v), (2, .constant v)] hi hroom (by simp))

theorem makes_negation :
    (negation i).Makes s i
      (s.firstEdit? i (bothWays [neg, tru] [fls] ++ bothWays [neg, fls] [tru])) := by
  let reduce (v : Bool) : Rule := ⟨[neg, .sym (.constant v)], [.sym (.constant !v)]⟩
  let spread (v : Bool) : Rule := ⟨[.sym (.constant v)], [neg, .sym (.constant !v)]⟩
  have hspread : ∀ v, (spread v).LiesAt s.formula i ↔
      s.formula.cell i = .constant v ∧ s.formula.hasRoom 1 := by
    simp [spread, Rule.LiesAt, Formula.Holds, Nat.succ_le_of_lt hi, and_comm]
  have hrules : ∀ r ∈ bothWays [neg, tru] [fls] ++ bothWays [neg, fls] [tru],
      ∃ v, r = reduce v ∨ r = spread v := by
    simp [bothWays, reduce, spread, Symbol.constant, tru, fls]
  apply Makes.ite
  · intro hneg
    have hreduce : ∀ r ∈ bothWays [neg, tru] [fls] ++ bothWays [neg, fls] [tru],
        r.LiesAt s.formula i → ∃ v, r = reduce v := by
      intro r hr hlies
      obtain ⟨v, rfl | rfl⟩ := hrules r hr
      · exact ⟨v, rfl⟩
      · have hv := hneg.symm.trans ((hspread v).mp hlies).1
        cases v <;> simp [Symbol.constant] at hv
    apply Makes.ite
    · intro hlen
      apply makes_of hi
      · intro r hr hlies
        obtain ⟨v, rfl⟩ := hreduce r hr hlies
        rw [run_load, hlies.2.2.2.1, Symbol.value?_constant]
        simp only [run_store, run_shiftLeft, run_pure, State.perform]
        congr 2
        exact Formula.shift_stores 2 1 [(0, .constant !v)] hlies.1 (by decide) (by simp)
      · intro hno
        rw [run_load]
        cases hv : (s.formula.cell (i + 1)).value? with
        | none => rfl
        | some v =>
          refine absurd ⟨hlen, s.formula.hasRoom_zero, hneg, Symbol.eq_constant hv, trivial⟩
            (hno (reduce v) ?_)
          cases v <;> simp [bothWays, reduce, Symbol.constant, tru, fls]
    · intro hlen
      apply makes_fail
      apply State.firstEdit?_eq_none hi
      intro r hr hlies
      obtain ⟨v, rfl⟩ := hreduce r hr hlies
      exact hlen hlies.1
  · intro hneg
    apply makes_onConstant (r := spread) hi
    · exact fun v => by cases v <;> simp [bothWays, spread, Symbol.constant, tru, fls]
    · intro r hr hlies
      obtain ⟨v, rfl | rfl⟩ := hrules r hr
      · exact absurd hlies.2.2.1 hneg
      · exact ⟨v, rfl⟩
    · exact hspread
    · intro v hv hroom
      exact congrArg (fun f => ((), (⟨f, s.table⟩ : State))) (Formula.stores_shift 1 2
        [(0, .neg), (1, .constant !v)] hi hroom (by simp))

/-! ## Substitution -/

omit hi in
theorem run_collapse {d : Definition} {n : Nat} (hn : d.symbols.length = n)
    (hlen : i + n ≤ s.formula.stop) :
    (do
      Op.store i (← Op.define d)
      Op.shiftLeft (i + n) (i + 1)
      return true : Work Bool).run s = (true, s.perform i (Law.collapse s.table d)) := by
  subst hn
  have hpos : 1 ≤ d.symbols.length := by simp [Definition.symbols]
  simp only [run_define, run_store, run_shiftLeft, run_pure, State.perform]
  congr 2
  exact Formula.shift_stores _ 1 [(0, .var (s.table.define d).1)] hlen hpos (by simp)

theorem makes_collapseUnary (h : s.formula.cell i = .neg) :
    (collapseUnary i).Makes s i
      (Law.substitute? s.table s.formula.slack (s.formula.body.drop i)) := by
  rw [Formula.drop_body hi, h]
  by_cases hlen : s.formula.stop < i + 2
  · rw [Formula.drop_body_of_le (by omega)]
    exact .ite (fun hp => absurd hp.1 (by omega)) fun _ => makes_fail rfl
  · rw [Formula.drop_body (by omega)]
    apply Makes.ite
    · rintro ⟨hlen, ha⟩
      exact makes_edit (if_pos ha) (run_collapse rfl hlen)
    · intro hp
      exact makes_fail (if_neg fun ha => hp ⟨by omega, ha⟩)

theorem makes_collapseBinary (h : (s.formula.cell i).isBinary) :
    (collapseBinary i).Makes s i
      (Law.substitute? s.table s.formula.slack (s.formula.body.drop i)) := by
  have hedit : Law.substitute? s.table s.formula.slack (s.formula.body.drop i) =
      if i + 3 ≤ s.formula.stop ∧ (s.formula.cell (i + 1)).isOperand ∧
        (s.formula.cell (i + 2)).isOperand then
        (Definition.binary? (s.formula.cell i) (s.formula.cell (i + 1))
          (s.formula.cell (i + 2))).map (Law.collapse s.table)
      else none := by
    have hop : s.formula.cell i = .disj ∨ s.formula.cell i = .conj := by
      revert h
      cases s.formula.cell i <;> simp [Symbol.isBinary]
    rw [Formula.drop_body hi]
    by_cases h1 : s.formula.stop ≤ i + 1
    · rw [Formula.drop_body_of_le h1, if_neg (by omega)]
      rcases hop with hop | hop <;> rw [hop] <;> rfl
    rw [Formula.drop_body (by omega)]
    by_cases h2 : s.formula.stop ≤ i + 2
    · rw [Formula.drop_body_of_le h2, if_neg (by omega)]
      rcases hop with hop | hop <;> rw [hop] <;> rfl
    have hlen : i + 3 ≤ s.formula.stop := by omega
    rw [Formula.drop_body (by omega)]
    rcases hop with hop | hop <;>
      cases ha : (s.formula.cell (i + 1)).isOperand <;>
      cases hb : (s.formula.cell (i + 2)).isOperand <;>
      simp [hop, ha, hb, hlen, Law.substitute?, Definition.binary?]
  rw [hedit]
  apply Makes.ite
  · intro hp
    rw [if_pos hp]
    unfold Makes
    simp only [run_load]
    cases hd : Definition.binary? (s.formula.cell i) (s.formula.cell (i + 1))
        (s.formula.cell (i + 2)) with
    | none => rfl
    | some d =>
      have hlen : d.symbols.length = 3 := by
        cases hop : s.formula.cell i <;> rw [hop] at hd <;> simp [Definition.binary?] at hd <;>
          rw [← hd] <;> rfl
      exact run_collapse hlen hp.1
  · exact fun hp => makes_fail (if_neg hp)

theorem makes_expand {v : Var} {d : Definition} (h : s.formula.cell i = .var v)
    (hd : s.table.definition? v = some d) :
    (expand d i).Makes s i (Law.substitute? s.table s.formula.slack (s.formula.body.drop i)) := by
  have hedit : Law.substitute? s.table s.formula.slack (s.formula.body.drop i) =
      if s.formula.hasRoom (d.symbols.length - 1) then
        some ⟨1, d.symbols, s.table.expand (s.formula.cell i)⟩ else none := by
    simp only [Formula.drop_body hi, h, Law.substitute?, hd, Formula.hasRoom_iff]
  rw [hedit]
  cases d with
  | neg a =>
    apply Makes.ite
    · intro hroom
      apply makes_edit (if_pos hroom)
      simp only [run_load, run_spellOut, run_store, run_shiftRight, run_pure, State.perform]
      simp (disch := omega) only [Formula.cell_shift]
      congr 2
      exact Formula.stores_shift 1 2 [(0, .neg), (1, a)] hi hroom (by simp)
    · exact fun hroom => makes_fail (if_neg hroom)
  | disj a b | conj a b =>
    apply Makes.ite
    · intro hroom
      apply makes_edit (if_pos hroom)
      simp only [run_load, run_spellOut, run_store, run_shiftRight, run_pure, State.perform]
      simp (disch := omega) only [Formula.cell_shift]
      congr 2
      exact Formula.stores_shift 1 3 [(0, _), (1, a), (2, b)] hi hroom (by simp)
    · exact fun hroom => makes_fail (if_neg hroom)

theorem makes_substitution :
    (substitution i).Makes s i
      (Law.substitute? s.table s.formula.slack (s.formula.body.drop i)) := by
  unfold substitution Makes
  rw [run_load]
  cases h : s.formula.cell i with
  | neg => exact makes_collapseUnary hi h
  | disj | conj => exact makes_collapseBinary hi (by rw [h]; rfl)
  | var v =>
    simp only
    rw [run_load, run_definition?, h]
    simp only [Symbol.var?, Option.bind_some]
    cases hd : s.table.definition? v with
    | some d => exact makes_expand hi h hd
    | none =>
      simp only [Formula.drop_body hi, h, Law.substitute?, hd]
      rfl
  | _ =>
    simp only [Formula.drop_body hi, h, Law.substitute?]
    rfl

/-! ## All the laws -/

theorem makes_apply (law : Law) :
    (apply law i).Makes s i (law.edit? s.table s.formula.slack (s.formula.body.drop i)) := by
  refine .ite (fun _ => ?_) (fun h => absurd hi h)
  cases law with
  | identityOr => exact makes_identity hi .disj .fls
  | identityAnd => exact makes_identity hi .conj .tru
  | idempotentOr => exact makes_idempotent hi .disj
  | idempotentAnd => exact makes_idempotent hi .conj
  | complement => exact makes_complement hi
  | domination => exact makes_domination hi
  | absorptionOr => exact makes_absorption hi .disj .conj .tru
  | absorptionAnd => exact makes_absorption hi .conj .disj .fls
  | commutative =>
    have h := (makes_commutative hi).orElse (makes_negation hi)
    rw [← State.firstEdit?_append, ← List.append_assoc] at h
    exact h
  | associative =>
    have h := (makes_associative hi).orElse <| (makes_distribute hi).orElse <|
      (makes_factor hi).orElse <| (makes_deMorganExpand hi).orElse <|
      (makes_deMorganFactor hi).orElse <| makes_doubleNegation hi
    simp only [← State.firstEdit?_append] at h
    simp only [← List.append_assoc] at h
    exact h
  | substitution => exact makes_substitution hi

end Work

namespace State

/-- Works a law in place, with counts that have no bound. -/
def applyInPlace (s : State) (law : Law) (i : Nat) : Bool × State := s.applyBy .exact law i

theorem applyInPlace_eq (s : State) (law : Law) (i : Nat) :
    s.applyInPlace law i = s.take ⟨law, i⟩ := by
  unfold take step?
  by_cases hi : i < s.formula.stop
  · unfold applyLaw?
    rw [show s.applyInPlace law i = _ from Work.makes_apply hi law]
    cases law.edit? s.table s.formula.slack (s.formula.body.drop i) <;> rfl
  · have hnone : s.applyLaw? law i = none :=
      Option.eq_none_iff_forall_ne_some.mpr fun u hu => hi (applyLaw?_eq_some hu).inside
    rw [hnone]
    exact Work.run_if_neg hi

/-- Worked in place on any state, a law applies and leaves what it should, or it changes nothing. -/
theorem applyInPlace_atomic (s : State) (law : Law) (i : Nat) :
    let u := (s.applyInPlace law i).2
    ((s.applyInPlace law i).1 = true → s.applyLaw? law i = some u) ∧
      ((s.applyInPlace law i).1 = false →
        s.applyLaw? law i = none ∧ u.formula.cells = s.formula.cells ∧
          u.formula.stop = s.formula.stop ∧ u.formula.capacity = s.formula.capacity ∧
          u.formula.vars = s.formula.vars ∧ u.table.entries = s.table.entries ∧
          u.table.next = s.table.next) := by
  rw [s.applyInPlace_eq law i]
  unfold take step?
  cases s.applyLaw? law i with
  | none => simp
  | some u => simp

/-- One cell is free, and the conjunction could be distributed over if there were two. -/
theorem applyInPlace_atomic_full :
    ∃ s : State, s.formula.body = [.disj, .x 0, .conj, .x 1, .x 2] ∧ s.formula.slack = 1 ∧
      (s.applyInPlace .associative 0).1 = false ∧
      (s.applyInPlace .associative 0).2.formula.cells = s.formula.cells ∧
      (s.applyInPlace .associative 0).2.table.entries = s.table.entries := by
  let s : State := .ofFormula (.ofParts [.disj, .x 0, .conj, .x 1, .x 2] 1 3)
  have hfails : (s.applyInPlace .associative 0).1 = false := by decide +kernel
  obtain ⟨-, hcells, -, -, -, hentries, -⟩ := (applyInPlace_atomic s .associative 0).2 hfails
  exact ⟨s, by decide, by decide, hfails, hcells, hentries⟩

/-! ## Runs in place -/

/-- Works all steps in turn. What one has left is where the next one starts, whether it applied or
not. -/
def afterBy {m : Type → Type} [Monad m] (c : Counting m) : State → Proof → m State
  | s, [] => pure s
  | s, step :: p => do
    let r ← s.applyBy c step.law step.position
    r.2.afterBy c p

/-- Seeds the table of a formula, and then works all steps in turn. -/
def runBy {m : Type → Type} [Monad m] (c : Counting m) (f : Formula) (p : Proof) : m State := do
  let table ← Bindings.ofBodyBy c f.body
  afterBy c ⟨f, table⟩ p

theorem snd_take (s : State) (step : Step) : (s.take step).2 = s.attempt step := by
  unfold take attempt
  cases s.step? step <;> rfl

end State

end LawProof
