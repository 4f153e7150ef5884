import LawProof.Proofs.Matching
import LawProof.Proofs.Runs
import LawProof.Proofs.Trees

/-!
# Laws on trees

The laws as equations between trees, and what they do to a tree: the first equation of a law that a
subtree is a case of puts another subtree there. On the tape nothing is known of trees. The symbols
from a position on are matched with short patterns, and some cells are moved and overwritten. That
this comes to the same is what this module shows.
-/

namespace LawProof

/-! ## Equations -/

/-- Two trees over slots for operands, to be used from left to right. -/
structure Equation where
  left : Tree Slot
  right : Tree Slot
deriving DecidableEq, Repr

def Tree.pieces (t : Tree Slot) : List Piece := t.nodes .sym .slot

namespace Equation

def flip (e : Equation) : Equation := ⟨e.right, e.left⟩

def rule (e : Equation) : Rule := ⟨e.left.pieces, e.right.pieces⟩

/-- For some constants and variables in the slots, `u` is the left side and `w` the right. -/
def Relates (e : Equation) (u w : Tree Var) : Prop :=
  ∃ σ : Slot → Tree Var, (∀ x, (σ x).isOperand = true) ∧ u = e.left.bind σ ∧ w = e.right.bind σ

def a : Tree Slot := .leaf .a
def b : Tree Slot := .leaf .b
def c : Tree Slot := .leaf .c
def tru : Tree Slot := .const true
def fls : Tree Slot := .const false

def both (long short : Tree Slot) : List Equation := [⟨long, short⟩, ⟨short, long⟩]

/-- Both ways: `(a op b) op c = a op (b op c)`. -/
def association (op : Connective) : List Equation :=
  both (.binary op (.binary op a b) c) (.binary op a (.binary op b c))

/-- From `a op (b co c)` to `(a op b) co (a op c)`. -/
def distribution (op : Connective) : Equation where
  left := .binary op a (.binary op.dual b c)
  right := .binary op.dual (.binary op a b) (.binary op a c)

/-- From `¬(a op b)` to `¬a co ¬b`. -/
def deMorgan (op : Connective) : Equation where
  left := .neg (.binary op a b)
  right := .binary op.dual (.neg a) (.neg b)

end Equation

open Equation (a b tru fls both) in
/-- The equations of each law in the order in which they are tried. -/
def Law.equations : Law → List Equation
  | .identityOr => both (.disj a fls) a
  | .identityAnd => both (.conj a tru) a
  | .idempotentOr => both (.disj a a) a
  | .idempotentAnd => both (.conj a a) a
  | .commutative =>
    [⟨.disj a b, .disj b a⟩, ⟨.conj a b, .conj b a⟩] ++ both (.neg tru) fls ++ both (.neg fls) tru
  | .associative =>
    Equation.association .disj ++ Equation.association .conj ++
      [.distribution .disj, .distribution .conj] ++
      [(Equation.distribution .disj).flip, (Equation.distribution .conj).flip] ++
      [.deMorgan .disj, .deMorgan .conj] ++
      [(Equation.deMorgan .disj).flip, (Equation.deMorgan .conj).flip] ++
      both (.neg (.neg a)) a
  | .complement =>
    [⟨.disj a (.neg a), tru⟩, ⟨.conj a (.neg a), fls⟩,
      ⟨tru, .disj tru (.neg tru)⟩, ⟨fls, .conj tru (.neg tru)⟩]
  | .domination =>
    [⟨.disj a tru, tru⟩, ⟨.conj a fls, fls⟩, ⟨tru, .disj tru tru⟩, ⟨fls, .conj fls fls⟩]
  | .absorptionOr => [⟨.disj a (.conj a b), a⟩, ⟨a, .disj a (.conj a tru)⟩]
  | .absorptionAnd => [⟨.conj a (.disj a b), a⟩, ⟨a, .conj a (.disj a fls)⟩]
  | .substitution => []

theorem Law.rules_eq_map (law : Law) : law.rules = law.equations.map Equation.rule := by
  cases law <;> rfl

def Definition.tree : Definition → Tree Var
  | .neg a => .neg (.ofSymbol a)
  | .disj a b => .disj (.ofSymbol a) (.ofSymbol b)
  | .conj a b => .conj (.ofSymbol a) (.ofSymbol b)

/-- `law.Turns t u w`: the first equation of the law that `u` is a case of makes it `w`.
Substitution gives a connective over operands a name that is not in the table `t`, or puts what a
name stands for in its place. -/
inductive Law.Turns (t : Bindings) : Law → Tree Var → Tree Var → Prop where
  | equation {law : Law} {before after : List Equation} {e : Equation} {u w : Tree Var} :
      law.equations = before ++ e :: after → (∀ e' ∈ before, ∀ w', ¬ e'.Relates u w') →
      e.Relates u w → Turns t law u w
  | name {d : Definition} : (∀ s ∈ d.operands, s.isOperand = true) →
      Turns t .substitution d.tree (.leaf (t.define d).1)
  | meaning {v : Var} {d : Definition} : t.definition? v = some d →
      Turns t .substitution (.leaf v) d.tree

/-! ## Equations and rules -/

/-- The operands of a filling as trees. -/
def Filling.trees (σ : Filling) (x : Slot) : Tree Var := .ofSymbol (σ.fill (.slot x))

theorem Filling.map_fill_pieces {σ : Filling} (h : σ.Simple) (t : Tree Slot) :
    t.pieces.map σ.fill = (t.bind σ.trees).text := by
  unfold Tree.pieces
  rw [Tree.map_nodes, Tree.text_bind_of_single (g := σ.fill ∘ .slot)]
  · rfl
  · intro x _
    exact Tree.text_ofSymbol (isOperand_fill_slot h x)

theorem Filling.exists_trees_eq {σ : Slot → Tree Var} (h : ∀ x, (σ x).isOperand = true) :
    ∃ τ : Filling, (∀ pieces, τ.Fills pieces) ∧ τ.trees = σ := by
  obtain ⟨ra, ha, hσa⟩ := Tree.exists_ofSymbol (h .a)
  obtain ⟨rb, hb, hσb⟩ := Tree.exists_ofSymbol (h .b)
  obtain ⟨rc, hc, hσc⟩ := Tree.exists_ofSymbol (h .c)
  refine ⟨⟨some ra, some rb, some rc⟩, fun pieces => ⟨?_, ?_⟩, ?_⟩
  · intro x _
    cases x <;> exact ⟨_, rfl⟩
  · intro x s hs
    cases x <;> simp_all [get?]
  · funext x
    cases x
    · exact hσa.symm
    · exact hσb.symm
    · exact hσc.symm

theorem Definition.text_tree {d : Definition} (h : ∀ s ∈ d.operands, s.isOperand = true) :
    d.tree.text = d.symbols := by
  cases d <;>
    simp_all [tree, symbols, operands, operator, Tree.text_ofSymbol, Connective.symbol]

namespace Law

variable {law : Law} {t : Bindings}

theorem exists_equation {r : Rule} (h : r ∈ law.rules) : ∃ e ∈ law.equations, e.rule = r := by
  rw [rules_eq_map] at h
  exact List.mem_map.mp h

theorem rule_mem_rules {e : Equation} (h : e ∈ law.equations) : e.rule ∈ law.rules := by
  rw [rules_eq_map]
  exact List.mem_map_of_mem h

theorem rules_nodup (law : Law) : law.rules.Nodup := by
  cases law <;> decide

theorem rewrites_of_relates {e : Equation} (he : e ∈ law.equations) {u w : Tree Var}
    (h : e.Relates u w) (t : Bindings) : ∃ t', law.Rewrites t u.text w.text t' := by
  obtain ⟨σ, hσ, rfl, rfl⟩ := h
  obtain ⟨τ, hτ, rfl⟩ := Filling.exists_trees_eq hσ
  have hrewrites := Rewrites.rule (t := t) (rule_mem_rules he) (hτ e.rule.source)
  have hsimple : τ.Simple := (hτ []).operand
  unfold Equation.rule at hrewrites
  rw [Filling.map_fill_pieces hsimple, Filling.map_fill_pieces hsimple] at hrewrites
  exact ⟨_, hrewrites⟩

theorem equation_unique {e e' : Equation} (he : e ∈ law.equations) (he' : e' ∈ law.equations)
    {u w w' : Tree Var} (h : e.Relates u w) (h' : e'.Relates u w') : e.rule = e'.rule := by
  obtain ⟨σ, hσ, hu, -⟩ := h
  obtain ⟨σ', hσ', hu', -⟩ := h'
  obtain ⟨τ, hτ, rfl⟩ := Filling.exists_trees_eq hσ
  obtain ⟨τ', hτ', rfl⟩ := Filling.exists_trees_eq hσ'
  have hsimple : τ.Simple := (hτ []).operand
  have hsimple' : τ'.Simple := (hτ' []).operand
  have hpre : e.rule.source.map τ.fill <+: u.text := by
    rw [hu, ← Filling.map_fill_pieces hsimple]
    exact List.prefix_rfl
  have hpre' : e'.rule.source.map τ'.fill <+: u.text := by
    rw [hu', ← Filling.map_fill_pieces hsimple']
    exact List.prefix_rfl
  exact rule_unique (rule_mem_rules he) (rule_mem_rules he') hsimple hsimple' hpre hpre'

theorem turns_of_relates {e : Equation} (he : e ∈ law.equations) {u w : Tree Var}
    (h : e.Relates u w) (t : Bindings) : law.Turns t u w := by
  obtain ⟨before, after, hsplit⟩ := List.append_of_mem he
  refine .equation hsplit ?_ h
  intro e' he' w' h'
  have hmem : e' ∈ law.equations := by
    rw [hsplit]
    exact List.mem_append_left _ he'
  have hnodup := rules_nodup law
  rw [rules_eq_map, hsplit, List.map_append, List.nodup_append] at hnodup
  exact hnodup.2.2 _ (List.mem_map_of_mem he') _ (by simp) (equation_unique hmem he h' h)

/-- What the tape knows as one list of symbols for another is one tree for another. -/
theorem Rewrites.turns {t' : Bindings} {old new : List Symbol} (h : law.Rewrites t old new t')
    (hsimple : t.Simple) : ∃ u w, old = u.text ∧ new = w.text ∧ law.Turns t u w := by
  cases h with
  | rule hr hσ =>
    obtain ⟨e, he, rfl⟩ := exists_equation hr
    refine ⟨_, _, Filling.map_fill_pieces hσ.operand e.left,
      Filling.map_fill_pieces hσ.operand e.right, turns_of_relates he ⟨_, ?_, rfl, rfl⟩ t⟩
    intro x
    exact Tree.isOperand_ofSymbol _
  | @collapse d hd => exact ⟨_, _, (Definition.text_tree hd).symm, rfl, .name hd⟩
  | @spellOut v d hd =>
    exact ⟨_, _, rfl, (Definition.text_tree (hsimple v d hd)).symm, .meaning hd⟩

theorem Turns.rewrites {u w : Tree Var} (h : law.Turns t u w) (hsound : t.Sound) :
    ∃ t', law.Rewrites t u.text w.text t' := by
  cases h with
  | equation hsplit _ hrelates =>
    apply rewrites_of_relates _ hrelates
    rw [hsplit]
    simp
  | @name d hd =>
    rw [Definition.text_tree hd]
    exact ⟨_, .collapse hd⟩
  | @meaning v d hd =>
    rw [Definition.text_tree (hsound.simple v d hd)]
    exact ⟨_, .spellOut hd⟩

theorem Turns.unique {u w w' : Tree Var} (h : law.Turns t u w) (h' : law.Turns t u w')
    (hsound : t.Sound) : w = w' := by
  obtain ⟨t₁, hr⟩ := h.rewrites hsound
  obtain ⟨t₂, hr'⟩ := h'.rewrites hsound
  -- With room for both, the edit that is made is the one and the other.
  have hroom : w.text.length ≤ u.text.length + (w.size + w'.size) := by
    simp
    omega
  have hroom' : w'.text.length ≤ u.text.length + (w.size + w'.size) := by
    simp
    omega
  have hedit := edit?_of_rewrites hr hroom []
  have hedit' := edit?_of_rewrites hr' hroom' []
  rw [hedit, Option.some.injEq, Edit.mk.injEq] at hedit'
  exact Tree.text_inj hedit'.2.1

end Law

/-! ## The working formula is a tree -/

namespace State

def IsTree (s : State) : Prop := ∃ t : Tree Var, t.text = s.formula.body

theorem IsTree.steps {s u : State} {law : Law} {position : Nat} (h : s.IsTree)
    (hsimple : s.table.Simple) (hstep : s.Steps u law position) : u.IsTree := by
  obtain ⟨t, ht⟩ := h
  obtain ⟨old, new, rest, hbefore, hafter, hr⟩ := hstep.replaced
  obtain ⟨x, y, rfl, rfl, -⟩ := hr.turns hsimple
  obtain ⟨-, hrep⟩ := Tree.at?_of_text_eq (ht.trans hbefore)
  exact ⟨_, (hrep y).trans hafter.symm⟩

theorem isTree_ofFormula {body : List Symbol} {slack : Nat} {f : Formula}
    (hf : Formula.ofBody body slack = .ok f) : (ofFormula f).IsTree := by
  obtain ⟨hwritten, hbody⟩ := Formula.ofBody_eq_ok hf
  obtain ⟨t, ht⟩ := Body.checkSyntax_eq_ok_iff.mp hwritten.wellFormed
  exact ⟨t, ht.trans hbody.symm⟩

theorem IsTree.after {s : State} (h : s.IsTree) (htracked : s.Tracked) (p : Proof) :
    (s.after p).IsTree := by
  have hboth : (s.after p).Tracked ∧ (s.after p).IsTree := by
    refine after_preserves (P := fun u => u.Tracked ∧ u.IsTree) ?_ ⟨htracked, h⟩ p
    rintro u w law position ⟨hu, htree⟩ hstep
    exact ⟨hu.steps hstep, htree.steps hu.simple hstep⟩
  exact hboth.2

/-! ## A law on the tape -/

section

variable {s : State} {t u : Tree Var} {law : Law} {i : Nat}

theorem turns_of_applyLaw? {w : State} (htracked : s.Tracked) (ht : t.text = s.formula.body)
    (hu : t.at? i = some u) (h : s.applyLaw? law i = some w) :
    ∃ u', law.Turns s.table u u' ∧ s.formula.stop + u'.size < s.formula.capacity + u.size ∧
      w.formula.body = (t.replaceAt i u').text := by
  have hstep := applyLaw?_eq_some h
  obtain ⟨old, new, rest, hbefore, hafter, hr⟩ := hstep.replaced
  obtain ⟨x, y, rfl, rfl, hturns⟩ := hr.turns htracked.simple
  have hpre : (s.formula.body.take i).length = i := by
    have := hstep.inside
    rw [List.length_take, s.formula.length_body]
    omega
  obtain ⟨hat, hrep⟩ := Tree.at?_of_text_eq (ht.trans hbefore)
  rw [hpre] at hat hrep
  obtain rfl : x = u := Option.some.inj (hat.symm.trans hu)
  refine ⟨y, hturns, ?_, hafter.trans (hrep y).symm⟩
  have hlen := congrArg List.length hbefore
  have hlen' := congrArg List.length hafter
  have hlt := w.formula.stop_lt
  have hcap := hstep.capacity
  unfold Formula.capacity at hcap ⊢
  simp only [List.length_append, Tree.length_text, Formula.length_body] at hlen hlen'
  omega

theorem applyLaw?_of_turns {u' : Tree Var} (htracked : s.Tracked) (ht : t.text = s.formula.body)
    (hi : i < s.formula.stop) (hu : t.at? i = some u) (h : law.Turns s.table u u')
    (hroom : s.formula.stop + u'.size < s.formula.capacity + u.size) :
    (s.applyLaw? law i).isSome = true := by
  obtain ⟨t', hr⟩ := h.rewrites htracked.toSound
  have hsize : t.size = s.formula.stop := by
    rw [← Tree.length_text, ht, Formula.length_body]
  obtain ⟨x, pre, post, hat, rfl, htext, -⟩ := Tree.exists_at? (t := t) (i := i) (by omega)
  obtain rfl : x = u := Option.some.inj (hat.symm.trans hu)
  have hslack := s.formula.stop_add_slack
  obtain ⟨w, hw, -⟩ := applyLaw?_of_rewrites (ht.symm.trans htext) hr
    (by simp only [Tree.length_text]; omega)
  rw [hw]
  rfl

end

/-- A law applies at a position exactly if it turns the subtree that starts there into one for which
there is room, and nothing else of the formula changes. -/
theorem applyLaw?_iff_turns {body : List Symbol} {slack : Nat} {f : Formula}
    (hf : Formula.ofBody body slack = .ok f) (p : Proof) :
    let s := (ofFormula f).after p
    (∃ t : Tree Var, t.text = s.formula.body) ∧
      ∀ t : Tree Var, t.text = s.formula.body → ∀ law i, i < s.formula.stop →
        ∃ u, t.at? i = some u ∧
          ((s.applyLaw? law i).isSome = true ↔ ∃ u', law.Turns s.table u u' ∧
            s.formula.stop + u'.size < s.formula.capacity + u.size) ∧
          ∀ w u', s.applyLaw? law i = some w → law.Turns s.table u u' →
            w.formula.body = (t.replaceAt i u').text ∧
              w.formula.body = s.formula.body.take i ++ u'.text ++
                s.formula.body.drop (i + u.size) := by
  intro s
  have htracked : s.Tracked := (tracked_ofFormula hf).after p
  refine ⟨(isTree_ofFormula hf).after (tracked_ofFormula hf) p, ?_⟩
  intro t ht law i hi
  have hsize : t.size = s.formula.stop := by
    rw [← Tree.length_text, ht, Formula.length_body]
  obtain ⟨u, pre, post, hu, hpre, htext, hrep⟩ := Tree.exists_at? (t := t) (i := i) (by omega)
  refine ⟨u, hu, ⟨?_, ?_⟩, ?_⟩
  · intro hsome
    obtain ⟨w, hw⟩ := Option.isSome_iff_exists.mp hsome
    obtain ⟨u', hturns, hroom, -⟩ := turns_of_applyLaw? htracked ht hu hw
    exact ⟨u', hturns, hroom⟩
  · rintro ⟨u', hturns, hroom⟩
    exact applyLaw?_of_turns htracked ht hi hu hturns hroom
  · intro w u' hw hturns
    obtain ⟨u'', hturns', -, hbody⟩ := turns_of_applyLaw? htracked ht hu hw
    obtain rfl := hturns.unique hturns' htracked.toSound
    refine ⟨hbody, ?_⟩
    rw [hbody, hrep, ← ht, htext, ← hpre, List.append_assoc pre u.text, List.take_left,
      ← List.drop_drop, List.drop_left, ← u.length_text, List.drop_left]

theorem applyLaw?_iff_turns_named :
    ∃ f, Formula.ofBody [.disj, .x 0, .neg, .conj, .x 0, .x 1] 7 = .ok f ∧
      ∃ s, s = (ofFormula f).after [⟨.substitution, 3⟩] ∧
      s.formula.body = [.disj, .x 0, .neg, .var ⟨64⟩] ∧
      Law.Turns s.table .substitution (.leaf ⟨64⟩) (.conj (.leaf ⟨0⟩) (.leaf ⟨1⟩)) ∧
      ∃ w, s.applyLaw? .substitution 3 = some w ∧
        w.formula.body = [.disj, .x 0, .neg, .conj, .x 0, .x 1] := by
  have hf : Formula.ofBody [.disj, .x 0, .neg, .conj, .x 0, .x 1] 7 =
      .ok (.ofParts [.disj, .x 0, .neg, .conj, .x 0, .x 1] 7 2) := by cbv
  obtain ⟨-, h⟩ := applyLaw?_iff_turns hf [⟨.substitution, 3⟩]
  obtain ⟨u, hu, hiff, hbody⟩ :=
    h (.disj (.leaf ⟨0⟩) (.neg (.leaf ⟨64⟩))) (by decide) .substitution 3 (by decide)
  obtain rfl := Option.some.inj hu
  have hturns := Law.Turns.meaning (t := ((ofFormula (.ofParts
    [.disj, .x 0, .neg, .conj, .x 0, .x 1] 7 2)).after [⟨.substitution, 3⟩]).table) (v := ⟨64⟩)
    (d := .conj (.x 0) (.x 1)) (by decide)
  obtain ⟨w, hw⟩ := Option.isSome_iff_exists.mp (hiff.mpr ⟨_, hturns, by decide⟩)
  exact ⟨_, hf, _, rfl, by decide, hturns, w, hw, (hbody w _ hw hturns).1⟩

end State

end LawProof
