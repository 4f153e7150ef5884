import LawProof.Proofs.Translations

/-!
# Duality

The opposite of a formula has conjunctions for disjunctions and true for false, and the other way
round. So have the definitions in the opposite of a table; ids and counts stay. Each rule of a law
has its opposite among the rules of the opposite law, with one exception: the complement law expands
both constants with the help of true. Apart from that, a law does to a state what the opposite law
does to the opposite state.
-/

namespace LawProof

/-! ## Opposites -/

/-- Exchanges the connectives with each other, and the constants. -/
def Symbol.opposite : Symbol → Symbol
  | .disj => .conj
  | .conj => .disj
  | .fls => .tru
  | .tru => .fls
  | s => s

namespace Symbol

@[simp] theorem opposite_opposite (s : Symbol) : s.opposite.opposite = s := by cases s <;> rfl
@[simp] theorem opposite_var (v : Var) : (Symbol.var v).opposite = .var v := rfl
@[simp] theorem isOperand_opposite (s : Symbol) : s.opposite.isOperand = s.isOperand := by
  cases s <;> rfl
@[simp] theorem isConstant_opposite (s : Symbol) : s.opposite.isConstant = s.isConstant := by
  cases s <;> rfl

end Symbol

def Definition.opposite : Definition → Definition
  | .neg a => .neg a.opposite
  | .disj a b => .conj a.opposite b.opposite
  | .conj a b => .disj a.opposite b.opposite

@[simp] theorem Definition.opposite_opposite (d : Definition) : d.opposite.opposite = d := by
  cases d <;> simp [opposite]

@[simp] theorem Definition.operands_opposite (d : Definition) :
    d.opposite.operands = d.operands.map Symbol.opposite := by
  cases d <;> rfl

@[simp] theorem Definition.symbols_opposite (d : Definition) :
    d.opposite.symbols = d.symbols.map Symbol.opposite := by
  cases d <;> rfl

/-- Opposites as a translation: every variable stays what it is. -/
def Translation.opposite : Translation where
  symbol := Symbol.opposite
  var := id
  definition := Definition.opposite
  var?_symbol := by
    intro s
    cases s <;> rfl
  isOperand_symbol := Symbol.isOperand_opposite
  symbols_definition := Definition.symbols_opposite

def Binding.opposite (b : Binding) : Binding := Translation.opposite.binding b

@[simp] theorem Binding.opposite_opposite (b : Binding) : b.opposite.opposite = b := by
  obtain ⟨count, definition⟩ := b
  cases definition <;> simp [opposite, Translation.binding, Translation.opposite]

/-- The table with the opposites of all definitions. -/
def Bindings.opposite (t : Bindings) : Bindings := t.map Binding.opposite

/-- The formula with the opposites of all symbols on its tape. -/
def Formula.opposite (f : Formula) : Formula := f.map Symbol.opposite

def State.opposite (s : State) : State := ⟨s.formula.opposite, s.table.opposite⟩

/-- The law for the other connective, where a law is about one of them. -/
def Law.opposite : Law → Law
  | .identityOr => .identityAnd
  | .identityAnd => .identityOr
  | .idempotentOr => .idempotentAnd
  | .idempotentAnd => .idempotentOr
  | .absorptionOr => .absorptionAnd
  | .absorptionAnd => .absorptionOr
  | law => law

@[simp] theorem Law.opposite_opposite (law : Law) : law.opposite.opposite = law := by
  cases law <;> rfl

def Step.opposite (step : Step) : Step := ⟨step.law.opposite, step.position⟩

/-! ## Tables -/

namespace Bindings

theorem opposite_opposite (t : Bindings) : t.opposite.opposite = t :=
  t.map_map_of_inverse Binding.opposite_opposite

theorem define_opposite (t : Bindings) (d : Definition) :
    t.opposite.define d.opposite = ((t.define d).1, (t.define d).2.opposite) := by
  unfold define fresh opposite
  simp only [freshId_map, put_map]
  rfl

end Bindings

theorem Translation.carries_opposite : Translation.opposite.Carries fun t u => u = t.opposite where
  get? := by
    rintro t _ rfl v
    exact t.get?_map Binding.opposite v
  put := by
    rintro t _ rfl v b
    exact (t.put_map Binding.opposite v b).symm
  remove := by
    rintro t _ rfl v
    exact (t.remove_map Binding.opposite v).symm
  chainBound := by
    rintro t _ rfl
    exact t.chainBound_map Binding.opposite

/-! ## Rules -/

def Piece.isConstant : Piece → Bool
  | .sym s => s.isConstant
  | .slot _ => false

def Rule.opposite (r : Rule) : Rule := Translation.opposite.rule r

theorem Law.opposite_mem_rules {law : Law} {r : Rule} (hr : r ∈ law.rules)
    (h : law = .complement → r.source.head?.any Piece.isConstant = false) :
    r.opposite ∈ law.opposite.rules := by
  have hall : ∀ r ∈ law.rules, (law = .complement → r.source.head?.any Piece.isConstant = false) →
      r.opposite ∈ law.opposite.rules := by
    cases law <;> decide
  exact hall r hr h

/-! ## Formulas -/

theorem Formula.opposite_opposite (f : Formula) : f.opposite.opposite = f :=
  f.map_map_of_inverse Symbol.opposite_opposite

theorem Formula.body_opposite (f : Formula) : f.opposite.body = f.body.map Symbol.opposite :=
  f.body_map Symbol.opposite

/-! ## Steps -/

namespace State

theorem opposite_opposite (s : State) : s.opposite.opposite = s := by
  unfold opposite
  rw [Formula.opposite_opposite, Bindings.opposite_opposite]

theorem ofFormula_opposite (f : Formula) : (ofFormula f).opposite = ofFormula f.opposite := by
  have htable := Translation.carries_opposite.ofBody rfl f.body
  unfold ofFormula opposite Bindings.ofFormula
  rw [Formula.body_opposite, ← htable]
  rfl

/-- The complement law is tried where a constant stands. -/
def ExpandsConstant (s : State) (law : Law) (position : Nat) : Prop :=
  law = .complement ∧ s.formula.body[position]?.any Symbol.isConstant = true

theorem rule_opposite_mem {s : State} {law : Law} {position : Nat}
    (h : ¬ s.ExpandsConstant law position) {r : Rule} (hr : r ∈ law.rules) {σ : Filling}
    (hσ : r.source.map σ.fill <+: s.formula.body.drop position) :
    r.opposite ∈ law.opposite.rules := by
  apply Law.opposite_mem_rules hr
  intro hlaw
  rw [Bool.eq_false_iff]
  intro hany
  cases hsource : r.source with
  | nil => simp [hsource] at hany
  | cons p rest =>
    rw [hsource] at hany hσ
    cases p with
    | slot x => simp [Piece.isConstant] at hany
    | sym c =>
      -- A constant that the rule asks for is the constant that is there.
      obtain ⟨tail, htail⟩ := hσ
      have hthere : s.formula.body[position]? = some c := by
        rw [← List.head?_drop, ← htail]
        rfl
      exact h ⟨hlaw, hthere ▸ hany⟩

theorem applyLaw?_opposite_of_some {s u : State} {law : Law} {position : Nat}
    (h : ¬ s.ExpandsConstant law position) (hu : s.applyLaw? law position = some u) :
    s.opposite.applyLaw? law.opposite position = some u.opposite := by
  have hlaw : law = .substitution → law.opposite = .substitution := by
    rintro rfl
    rfl
  obtain ⟨⟨_, _⟩, hw, rfl, rfl⟩ := Translation.carries_opposite.applyLaw?
    (u := s.opposite) rfl rfl (fun _ hr _ hσ => rule_opposite_mem h hr hσ) hlaw
    (fun d => Prod.ext_iff.mp (s.table.define_opposite d)) hu
  exact hw

theorem expandsConstant_opposite {s : State} {law : Law} {position : Nat} :
    s.opposite.ExpandsConstant law.opposite position ↔ s.ExpandsConstant law position := by
  have hlaw : law.opposite = .complement ↔ law = .complement := by cases law <;> decide
  unfold ExpandsConstant
  rw [hlaw, show s.opposite.formula = s.formula.opposite from rfl, Formula.body_opposite,
    List.getElem?_map, Option.any_map]
  simp

theorem applyLaw?_opposite_of_none {s : State} {law : Law} {position : Nat}
    (h : ¬ s.ExpandsConstant law position) (hs : s.applyLaw? law position = none) :
    s.opposite.applyLaw? law.opposite position = none := by
  -- What the opposite law did there could be done back here.
  rw [Option.eq_none_iff_forall_ne_some]
  intro w hw
  have hback := applyLaw?_opposite_of_some (mt expandsConstant_opposite.mp h) hw
  rw [opposite_opposite, Law.opposite_opposite, hs] at hback
  simp at hback

/-- The opposite law does to the opposite state what the law does to the state. -/
theorem applyLaw?_opposite (s : State) (law : Law) (position : Nat)
    (h : ¬ s.ExpandsConstant law position) :
    s.opposite.applyLaw? law.opposite position = (s.applyLaw? law position).map opposite := by
  cases hs : s.applyLaw? law position with
  | some u => exact applyLaw?_opposite_of_some h hs
  | none => exact applyLaw?_opposite_of_none h hs

theorem applyLaw?_opposite_named :
    ∃ f s u, Formula.ofBody [.disj, .conj, .x 0, .tru, .neg, .x 0] 7 = .ok f ∧
      s = (ofFormula f).after [⟨.substitution, 1⟩, ⟨.substitution, 2⟩] ∧
      ¬ s.ExpandsConstant .absorptionOr 1 ∧ s.applyLaw? .absorptionOr 1 = some u ∧
      s.opposite.applyLaw? .absorptionAnd 1 = some u.opposite ∧
      u.opposite.formula.body =
        [.conj, .conj, .var ⟨64⟩, .disj, .var ⟨64⟩, .fls, .var ⟨65⟩] ∧
      u.opposite.table.definition? ⟨64⟩ = some (.disj (.x 0) .fls) ∧
      u.opposite.table.count (.x 0) = 3 := by
  have hf : Formula.ofBody [.disj, .conj, .x 0, .tru, .neg, .x 0] 7 =
      .ok (.ofParts [.disj, .conj, .x 0, .tru, .neg, .x 0] 7 1) := by cbv
  obtain ⟨s, hs⟩ : ∃ s, s = (ofFormula (.ofParts [.disj, .conj, .x 0, .tru, .neg, .x 0] 7 1)).after
      [⟨.substitution, 1⟩, ⟨.substitution, 2⟩] := ⟨_, rfl⟩
  have hplain : ¬ s.ExpandsConstant .absorptionOr 1 := fun h => by cases h.1
  have hopp := applyLaw?_opposite s .absorptionOr 1 hplain
  subst hs
  exact ⟨_, _, _, hf, rfl, hplain, rfl, hopp, by decide, by decide, by decide⟩

-- The complement law puts the negation of true behind either constant.
example : ((ofFormula (.ofParts [.fls] 7 0)).applyLaw? .complement 0).map (·.formula.body) ≠
    (((ofFormula (.ofParts [.tru] 7 0)).applyLaw? .complement 0).map opposite).map
      (·.formula.body) := by decide

/-! ## Runs -/

theorem attempt_opposite {s : State} {step : Step}
    (h : ¬ s.ExpandsConstant step.law step.position) :
    s.opposite.attempt step.opposite = (s.attempt step).opposite := by
  show (s.opposite.applyLaw? step.law.opposite step.position).getD s.opposite =
    ((s.applyLaw? step.law step.position).getD s).opposite
  cases hs : s.applyLaw? step.law step.position with
  | some u => rw [applyLaw?_opposite_of_some h hs, Option.getD_some, Option.getD_some]
  | none => rw [applyLaw?_opposite_of_none h hs, Option.getD_none, Option.getD_none]

theorem after_opposite {s : State} {p : Proof}
    (h : ∀ q step, q ++ [step] <+: p → ¬ (s.after q).ExpandsConstant step.law step.position) :
    s.opposite.after (p.map Step.opposite) = (s.after p).opposite := by
  induction p generalizing s with
  | nil => rfl
  | cons step p ih =>
    have hstep : ¬ s.ExpandsConstant step.law step.position := h [] step ⟨p, rfl⟩
    rw [List.map_cons, after_cons, after_cons, attempt_opposite hstep]
    apply ih
    intro q next hq
    have hnext := h (step :: q) next (List.cons_prefix_cons.mpr ⟨rfl, hq⟩)
    rwa [after_cons] at hnext

theorem after_ofFormula_opposite {f : Formula} {p : Proof}
    (h : ∀ q step, q ++ [step] <+: p →
      ¬ ((ofFormula f).after q).ExpandsConstant step.law step.position) :
    (ofFormula f.opposite).after (p.map Step.opposite) = ((ofFormula f).after p).opposite := by
  rw [← ofFormula_opposite]
  exact after_opposite h

end State

end LawProof
