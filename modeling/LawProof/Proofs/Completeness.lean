import LawProof.Proofs.Minimality
import LawProof.Proofs.Naming
import LawProof.Proofs.Readings
import LawProof.Sum
import Mathlib.Data.Nat.Init

/-!
# What is so can be proved

A formula that is true under every assignment leads to the constant, if there is room. It is taken
as a disjunction of trees, and one tree after another is taken apart until only variables and
negated variables are left. Then some variable stands there with its negation, and the complement
law does the rest. A formula that is false under every assignment is negated twice first.
-/

namespace LawProof

open Body (varsOf stack under)

/-! ## Values of trees -/

theorem Tree.value_eq_of_evaluate {t : Tree Var} {c : Bool} (hplain : Plain t.text)
    (h : ∀ bits, bits < Nat.pow 2 maxVariables → Body.evaluate t.text bits = some c)
    (ρ : Var → Bool) : t.value ρ = c := by
  have hbits := h (Nat.ofBits fun i : Fin maxVariables => ρ ⟨i⟩) (Nat.ofBits_lt_two_pow _)
  rw [Body.evaluate_eq_under hplain, Body.value?_eq_some_iff] at hbits
  have hsame : stack (under ρ) t.text = some [c] := by
    rw [← hbits]
    apply Body.stack_congr
    intro v hv
    have hlt := Bindings.isSynthetic_eq_false_iff.mp (hplain v hv)
    simp [under, Nat.testBit_ofBits_lt _ _ hlt]
  rw [Body.stack_text] at hsame
  simpa using hsame

/-! ## The laws on trees -/

namespace Tree.Becomes

/-- Operands for the slots. -/
def fill (a b c : Tree Var) : Slot → Tree Var
  | .a => a
  | .b => b
  | .c => c

section

variable (a b c : Tree Var)

theorem or_false : (Tree.disj a (.const false)).Becomes a :=
  Equation.becomes .identityOr ⟨.disj (.leaf .a) (.const false), .leaf .a⟩ (fill a a a)
    (by decide) (by decide)

theorem to_or_false : a.Becomes (.disj a (.const false)) :=
  Equation.becomes .identityOr ⟨.leaf .a, .disj (.leaf .a) (.const false)⟩ (fill a a a)
    (by decide) (by decide)

theorem and_true : (Tree.conj a (.const true)).Becomes a :=
  Equation.becomes .identityAnd ⟨.conj (.leaf .a) (.const true), .leaf .a⟩ (fill a a a)
    (by decide) (by decide)

theorem or_true : (Tree.disj a (.const true)).Becomes (.const true) :=
  Equation.becomes .domination ⟨.disj (.leaf .a) (.const true), .const true⟩ (fill a a a)
    (by decide) (by decide)

theorem or_comm : (Tree.disj a b).Becomes (.disj b a) :=
  Equation.becomes .commutative ⟨.disj (.leaf .a) (.leaf .b), .disj (.leaf .b) (.leaf .a)⟩
    (fill a b a) (by decide) (by decide)

theorem or_assoc : (Tree.disj (.disj a b) c).Becomes (.disj a (.disj b c)) :=
  Equation.becomes .associative
    ⟨.disj (.disj (.leaf .a) (.leaf .b)) (.leaf .c), .disj (.leaf .a) (.disj (.leaf .b) (.leaf .c))⟩
    (fill a b c) (by decide) (by decide)

theorem or_assoc_back : (Tree.disj a (.disj b c)).Becomes (.disj (.disj a b) c) :=
  Equation.becomes .associative
    ⟨.disj (.leaf .a) (.disj (.leaf .b) (.leaf .c)), .disj (.disj (.leaf .a) (.leaf .b)) (.leaf .c)⟩
    (fill a b c) (by decide) (by decide)

theorem or_and : (Tree.disj a (.conj b c)).Becomes (.conj (.disj a b) (.disj a c)) :=
  Equation.becomes .associative (Equation.distribution .disj) (fill a b c) (by decide) (by decide)

theorem neg_binary (op : Connective) :
    (Tree.neg (.binary op a b)).Becomes (.binary op.dual (.neg a) (.neg b)) :=
  Equation.becomes .associative (Equation.deMorgan op) (fill a b a) (by cases op <;> decide)
    (by cases op <;> decide)

theorem neg_neg : (Tree.neg (.neg a)).Becomes a :=
  Equation.becomes .associative ⟨.neg (.neg (.leaf .a)), .leaf .a⟩ (fill a a a)
    (by decide) (by decide)

theorem to_neg_neg : a.Becomes (.neg (.neg a)) :=
  Equation.becomes .associative ⟨.leaf .a, .neg (.neg (.leaf .a))⟩ (fill a a a)
    (by decide) (by decide)

end

theorem neg_const (c : Bool) : (Tree.neg (.const c)).Becomes (.const !c) :=
  Equation.becomes .commutative ⟨.neg (.const c), .const !c⟩ (fun _ => .const c)
    (by cases c <;> decide) (by cases c <;> decide)

theorem or_neg (v : Var) : (Tree.disj (.leaf v) (.neg (.leaf v))).Becomes (.const true) :=
  -- The operand stands on the left side twice, so it has to be a single symbol.
  Equation.becomes_of_isOperand .complement ⟨.disj (.leaf .a) (.neg (.leaf .a)), .const true⟩
    (fun _ => .leaf v) (by decide) (fun _ => rfl)

end Tree.Becomes

/-! ## Disjunctions -/

/-- The disjunction of a list of trees. -/
def anyOf : List (Tree Var) → Tree Var
  | [] => .const false
  | t :: ts => .disj t (anyOf ts)

theorem value_anyOf {ρ : Var → Bool} {ts : List (Tree Var)} :
    (anyOf ts).value ρ = true ↔ ∃ t ∈ ts, t.value ρ = true := by
  induction ts with
  | nil => simp [anyOf, Tree.value]
  | cons t ts ih => simp [anyOf, Tree.value, Connective.value, ih]

open LawProof.Tree (Becomes)

theorem anyOf_perm {ts us : List (Tree Var)} (h : ts.Perm us) :
    (anyOf ts).Becomes (anyOf us) := by
  induction h with
  | nil => exact .refl _
  | cons t _ ih => exact ih.right .disj t
  | swap t u ts =>
    have hback := Becomes.or_assoc_back u t (anyOf ts)
    have hcomm := (Becomes.or_comm u t).left .disj (anyOf ts)
    exact (hback.trans hcomm).trans (.or_assoc t u (anyOf ts))
  | trans _ _ ih₁ ih₂ => exact ih₁.trans ih₂

theorem or_becomes_true {t : Tree Var} (h : t.Becomes (.const true)) (u : Tree Var) :
    (Tree.disj t u).Becomes (.const true) :=
  ((h.left .disj u).trans (.or_comm _ _)).trans (.or_true u)

/-! ## Taking trees apart -/

/-- Goes down with every step in which a tree of a disjunction is taken apart. -/
def Tree.weight : Tree Var → Nat
  | .const _ | .leaf _ => 1
  | .neg a => 2 * a.weight
  | .binary _ a b => a.weight + b.weight + 1

theorem Tree.weight_pos (t : Tree Var) : 0 < t.weight := by
  induction t with
  | const | leaf => exact Nat.one_pos
  | neg a ih =>
    unfold weight
    omega
  | binary op a b _ _ =>
    unfold weight
    omega

/-- A variable or a negated variable. -/
def Tree.isLiteral : Tree Var → Bool
  | .leaf _ | .neg (.leaf _) => true
  | _ => false

/-- True under every valuation. -/
def Tree.Tautology (t : Tree Var) : Prop := ∀ ρ, t.value ρ = true

theorem exists_pair {ts : List (Tree Var)} (h : (anyOf ts).Tautology)
    (hlit : ∀ t ∈ ts, t.isLiteral = true) : ∃ v, .leaf v ∈ ts ∧ .neg (.leaf v) ∈ ts := by
  -- Otherwise make a variable true exactly if its negation is there: then no literal holds.
  obtain ⟨t, ht, hvalue⟩ := value_anyOf.mp (h fun v => decide (.neg (.leaf v) ∈ ts))
  have hliteral := hlit t ht
  unfold Tree.isLiteral at hliteral
  split at hliteral
  · rename_i v
    exact ⟨v, ht, by simpa [Tree.value] using hvalue⟩
  · rename_i v
    simp [Tree.value, ht] at hvalue
  · simp at hliteral

theorem becomes_true_of_pair {ts : List (Tree Var)} {v : Var} (h : .leaf v ∈ ts)
    (hneg : .neg (.leaf v) ∈ ts) : (anyOf ts).Becomes (.const true) := by
  have hmem : Tree.neg (.leaf v) ∈ ts.erase (.leaf v) := (List.mem_erase_of_ne (by simp)).mpr hneg
  have hfront := (List.perm_cons_erase h).trans ((List.perm_cons_erase hmem).cons _)
  have hpair := or_becomes_true (.or_neg v) (anyOf ((ts.erase (.leaf v)).erase (.neg (.leaf v))))
  exact ((anyOf_perm hfront).trans (.or_assoc_back _ _ _)).trans hpair

theorem becomes_true_of_cons {t : Tree Var} {ts : List (Tree Var)} (ht : t.isLiteral = false)
    (h : (anyOf (t :: ts)).Tautology)
    (ih : ∀ us, sumOf Tree.weight us < sumOf Tree.weight (t :: ts) → (anyOf us).Tautology →
      (anyOf us).Becomes (.const true)) : (anyOf (t :: ts)).Becomes (.const true) := by
  unfold Tree.Tautology at h ih
  simp only [anyOf, Tree.value, Connective.value, Bool.or_eq_true, sumOf_cons] at h ih ⊢
  match t with
  | .leaf v | .neg (.leaf v) => simp [Tree.isLiteral] at ht
  | .const true => exact or_becomes_true (.refl _) _
  | .const false =>
    refine ((Becomes.or_comm _ _).trans (.or_false _)).trans (ih ts ?_ ?_)
    · simp [Tree.weight]
    · simpa [Tree.value] using h
  | .neg (.const c) =>
    refine ((Becomes.neg_const c).left .disj _).trans (ih (.const (!c) :: ts) ?_ ?_)
    · simp [Tree.weight]
    · simpa [anyOf, Tree.value, Connective.value] using h
  | .neg (.neg a) =>
    refine ((Becomes.neg_neg a).left .disj _).trans (ih (a :: ts) ?_ ?_)
    · have := a.weight_pos
      simp only [sumOf_cons, Tree.weight]
      omega
    · simpa [anyOf, Tree.value, Connective.value] using h
  | .neg (.binary op a b) =>
    refine ((Becomes.neg_binary a b op).left .disj _).trans
      (ih (.binary op.dual (.neg a) (.neg b) :: ts) ?_ ?_)
    · simp only [sumOf_cons, Tree.weight]
      omega
    · cases op <;> simpa [anyOf, Tree.value, Connective.value, Connective.dual] using h
  | .disj a b =>
    refine (Becomes.or_assoc a b _).trans (ih (a :: b :: ts) ?_ ?_)
    · simp only [sumOf_cons, Tree.weight]
      omega
    · simpa [anyOf, Tree.value, Connective.value, or_assoc] using h
  | .conj a b =>
    -- With the rest of the disjunction, each side is a tautology of its own.
    have hside : ∀ u : Tree Var, u.weight < (Tree.conj a b).weight →
        (∀ ρ, (Tree.conj a b).value ρ = true → u.value ρ = true) →
        (Tree.disj (anyOf ts) u).Becomes (.const true) := by
      intro u hlt hvalue
      refine (Becomes.or_comm _ _).trans (ih (u :: ts) (by simpa using hlt) ?_)
      intro ρ
      simp only [anyOf, Tree.value, Connective.value, Bool.or_eq_true]
      exact (h ρ).imp_left (hvalue ρ)
    have hleft := hside a (by simp only [Tree.weight]; omega)
      (by simp +contextual [Tree.value, Connective.value])
    have hright := hside b (by simp only [Tree.weight]; omega)
      (by simp [Tree.value, Connective.value])
    have hsplit := (Becomes.or_comm _ _).trans (.or_and (anyOf ts) a b)
    exact ((hsplit.trans (hleft.left .conj _)).trans (hright.right .conj _)).trans (.and_true _)

theorem anyOf_becomes_true {ts : List (Tree Var)} (h : (anyOf ts).Tautology) :
    (anyOf ts).Becomes (.const true) := by
  induction hn : sumOf Tree.weight ts using Nat.strongRecOn generalizing ts with
  | ind n ih =>
    by_cases hcomplex : ∃ t ∈ ts, t.isLiteral = false
    · obtain ⟨t, ht, hcomplex⟩ := hcomplex
      have hperm := List.perm_cons_erase ht
      refine (anyOf_perm hperm).trans (becomes_true_of_cons hcomplex ?_ ?_)
      · intro ρ
        have := h ρ
        rw [value_anyOf] at this ⊢
        obtain ⟨u, hu, hvalue⟩ := this
        exact ⟨u, hperm.mem_iff.mp hu, hvalue⟩
      · intro us hlt hus
        rw [← sumOf_perm _ hperm, hn] at hlt
        exact ih _ hlt hus rfl
    · have hlit : ∀ t ∈ ts, t.isLiteral = true := by simpa using hcomplex
      obtain ⟨v, hv, hneg⟩ := exists_pair h hlit
      exact becomes_true_of_pair hv hneg

/-- A tree with one value under all valuations leads to that constant. -/
theorem Tree.becomes_const {t : Tree Var} {c : Bool} (h : ∀ ρ, t.value ρ = c) :
    t.Becomes (.const c) := by
  have htrue : ∀ u : Tree Var, u.Tautology → u.Becomes (.const true) := by
    intro u hu
    have hone : (anyOf [u]).Tautology := fun ρ => by simp [anyOf, value, Connective.value, hu ρ]
    exact (Becomes.to_or_false u).trans (anyOf_becomes_true hone)
  cases c with
  | true => exact htrue t h
  | false =>
    have hneg : (Tree.neg t).Becomes (.const true) := htrue _ fun ρ => by simp [value, h ρ]
    exact ((Becomes.to_neg_neg t).trans hneg.neg).trans (.neg_const true)

/-! ## On the tape -/

theorem Content.Moves.exists_step {x y : Content} (h : Moves x y) :
    ∃ step : Step, ∀ s : State, s.formula.body = x.body → s.table = x.table →
      y.body.length < s.formula.capacity →
      ∃ u, s.step? step = some u ∧ u.formula.body = y.body ∧ u.table = y.table ∧
        u.formula.capacity = s.formula.capacity := by
  obtain ⟨pre, old, new, post, law, hx, hy, hr⟩ := h
  refine ⟨⟨law, pre.length⟩, ?_⟩
  intro s hbody htable hroom
  have hfits : new.length ≤ old.length + s.formula.slack := by
    have hlen := congrArg List.length (hbody.trans hx)
    have hcapacity := s.formula.stop_add_slack
    rw [hy] at hroom
    simp only [Formula.length_body, List.length_append] at hlen hroom
    omega
  rw [← htable] at hr
  obtain ⟨u, hu, hbody', htable'⟩ := State.applyLaw?_of_rewrites (hbody.trans hx) hr hfits
  exact ⟨u, hu, hbody'.trans hy.symm, htable', (State.applyLaw?_eq_some hu).capacity⟩

theorem Content.exists_proof {x y : Content} (h : Relation.TransGen Moves x y) {goal : Goal}
    (hy : y.body = [goal.symbol]) :
    ∃ p : Proof, p ≠ [] ∧ ∃ room, ∀ s : State, s.formula.body = x.body → s.table = x.table →
      room ≤ s.formula.capacity → ∀ i, ∃ n, (State.replay goal i s p).1 = .proved n := by
  induction h using Relation.TransGen.head_induction_on with
  | single h =>
    obtain ⟨step, hstep⟩ := h.exists_step
    refine ⟨[step], by simp, y.body.length + 1, ?_⟩
    intro s hbody htable hroom i
    obtain ⟨u, hu, hbody', -⟩ := hstep s hbody htable hroom
    have hgoal : u.formula.isGoal goal = true := beq_iff_eq.mpr (hbody'.trans hy)
    exact ⟨i + 1, by simp [State.replay_cons, hu, hgoal]⟩
  | @head x z h _ ih =>
    obtain ⟨step, hstep⟩ := h.exists_step
    obtain ⟨p, -, room, hp⟩ := ih
    refine ⟨step :: p, by simp, max room (z.body.length + 1), ?_⟩
    intro s hbody htable hroom i
    obtain ⟨u, hu, hbody', htable', hcapacity⟩ := hstep s hbody htable (by omega)
    obtain ⟨n, hn⟩ := hp u hbody' htable' (by omega) (i + 1)
    -- The constant may have come up before, and then the replay ends there.
    cases hgoal : u.formula.isGoal goal with
    | true => exact ⟨i + 1, by simp [State.replay_cons, hu, hgoal]⟩
    | false => exact ⟨n, by simp [State.replay_cons, hu, hgoal, hn]⟩

theorem Content.written_ofBody {body : List Symbol} (h : Formula.Written body) :
    Content.Written ⟨body, .ofBody body⟩ := by
  have hplain : Plain body := fun v hv => h.inputs v (Body.mem_varsOf.mp hv)
  refine ⟨hplain, .leaf, Bindings.tracks_ofBody hplain, fun _ _ => rfl, ?_⟩
  intro v d hd
  rw [Bindings.definition?_ofBody] at hd
  simp at hd

theorem exists_proof_of_evaluate {body : List Symbol} (h : Formula.Written body) {goal : Goal}
    (hvalue : ∀ bits, bits < Nat.pow 2 maxVariables → Body.evaluate body bits = some goal.value) :
    ∃ p : Proof, p ≠ [] ∧ ∃ room, ∀ f : Formula, f.body = body → room ≤ f.capacity →
      isProof f goal p = true := by
  obtain ⟨t, rfl⟩ := Body.checkSyntax_eq_ok_iff.mp h.wellFormed
  have hconst := Tree.value_eq_of_evaluate (fun v hv => h.inputs v (Body.mem_varsOf.mp hv)) hvalue
  have hstart : Content.Written ⟨[] ++ t.text ++ [], .ofBody t.text⟩ := by
    simpa using Content.written_ofBody h
  -- The first step makes the formula longer, so the proof is not empty whatever comes after it.
  obtain ⟨t₁, hwritten, hleads⟩ := Becomes.to_or_false t [] [] _ hstart
  have hrest : (Tree.disj t (.const false)).Becomes (.const goal.value) := by
    apply Tree.becomes_const
    simp [Tree.value, Connective.value, hconst]
  obtain ⟨t₂, -, hleads'⟩ := hrest [] [] t₁ hwritten
  have hmoves : Relation.TransGen Content.Moves ⟨t.text, .ofBody t.text⟩ ⟨[goal.symbol], t₂⟩ := by
    simp only [List.nil_append, List.append_nil] at hleads hleads'
    rcases Relation.reflTransGen_iff_eq_or_transGen.mp hleads with heq | hmoves
    · have hlen := congrArg (fun x : Content => x.body.length) heq
      simp at hlen
      omega
    · exact hmoves.trans_left hleads'
  obtain ⟨p, hne, room, hp⟩ := Content.exists_proof hmoves rfl
  refine ⟨p, hne, room, ?_⟩
  intro f hbody hroom
  apply isProof_iff.mpr
  exact hp (.ofFormula f) hbody (congrArg Bindings.ofBody hbody) hroom 0

/-- For every written formula with the goal's value under all assignments there is a proof, and a
search that goes up to its length on a tape that is long enough finds one. -/
theorem exists_proof_of_ofBody {body : List Symbol} {slack : Nat} {f : Formula}
    (hf : Formula.ofBody body slack = .ok f) {goal : Goal}
    (h : ∀ bits, bits < Nat.pow 2 maxVariables → Body.evaluate body bits = some goal.value) :
    ∃ steps : Proof, steps ≠ [] ∧ ∃ least, minSlack ≤ least ∧ ∀ k, least ≤ k →
      ∃ g, Formula.ofBody body k = .ok g ∧ isProof g goal steps = true ∧
        ∀ n, steps.length ≤ n → ∃ p, searchUpTo g goal n = .proved p := by
  obtain ⟨p, hne, room, hp⟩ := exists_proof_of_evaluate (Formula.ofBody_eq_ok hf).1 h
  obtain ⟨-, hforbidden, hsyntax, vars, hvars, -⟩ := Formula.ofBody_eq_ok_iff.mp hf
  refine ⟨p, hne, max minSlack room, by omega, ?_⟩
  intro k hk
  have hg : Formula.ofBody body k = .ok (.ofParts body k vars) :=
    Formula.ofBody_eq_ok_iff.mpr ⟨by omega, hforbidden, hsyntax, vars, hvars, rfl⟩
  have hproof : isProof (.ofParts body k vars) goal p = true := by
    apply hp _ (Formula.body_ofParts ..)
    rw [← Formula.stop_add_slack, Formula.slack_ofParts]
    omega
  exact ⟨_, hg, hproof, fun n hn => exists_proved_of_isProof hproof hn⟩

/-- `x0 ∧ x1` or its negation: no law is about the two sides as they stand. -/
theorem exists_proof_of_ofBody_conj :
    (∃ f, Formula.ofBody [.disj, .conj, .x 0, .x 1, .neg, .conj, .x 0, .x 1] 7 = .ok f) ∧
      (∀ bits, bits < Nat.pow 2 maxVariables →
        Body.evaluate [.disj, .conj, .x 0, .x 1, .neg, .conj, .x 0, .x 1] bits = some true) ∧
      ∃ steps : Proof, steps ≠ [] ∧ ∃ least, 7 ≤ least ∧ ∀ k, least ≤ k →
        ∃ g, Formula.ofBody [.disj, .conj, .x 0, .x 1, .neg, .conj, .x 0, .x 1] k = .ok g ∧
          isProof g .tautology steps = true ∧
          ∀ n, steps.length ≤ n → ∃ p, searchUpTo g .tautology n = .proved p := by
  have hf : Formula.ofBody [.disj, .conj, .x 0, .x 1, .neg, .conj, .x 0, .x 1] 7 =
      .ok (.ofParts [.disj, .conj, .x 0, .x 1, .neg, .conj, .x 0, .x 1] 7 2) := by cbv
  have h : ∀ bits, bits < Nat.pow 2 maxVariables →
      Body.evaluate [.disj, .conj, .x 0, .x 1, .neg, .conj, .x 0, .x 1] bits = some true := by
    intro bits _
    show some (_ && _ || !(_ && _)) = some true
    rw [Bool.or_not_self]
  exact ⟨⟨_, hf⟩, h, exists_proof_of_ofBody hf h⟩

end LawProof
