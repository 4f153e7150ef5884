import LawProof.Clause
import LawProof.Proofs.Readings
import LawProof.Proofs.TruthTables

/-!
# Formulas from clauses

The body that is written for a list of clauses is the text of a tree: a conjunction of disjunctions
of literals, nested to the right. Its value is that of the clauses, and its inputs are the names
that the literals have. So what the reading of clauses has to refuse is told by these names alone.
That they run up to no more than the number of all literals follows from there being no gap.
-/

namespace LawProof

namespace Clause

/-! ## Trees -/

/-- The input that a literal speaks of. -/
def input (l : Int) : Var := ⟨l.natAbs - 1⟩

def literalTree (l : Int) : Tree Var :=
  if l < 0 then .neg (.leaf (input l)) else .leaf (input l)

def tree (c : Clause) : Tree Var :=
  .disj (literalTree c.first) (.disj (literalTree c.second) (literalTree c.third))

/-- The tree of one clause and those that follow it. -/
def conjunctionTree : Clause → List Clause → Tree Var
  | c, [] => c.tree
  | c, d :: rest => .conj c.tree (conjunctionTree d rest)

theorem text_literalTree (l : Int) : (literalTree l).text = literal l := by
  unfold literalTree literal
  split <;> rfl

theorem text_tree (c : Clause) : c.tree.text = c.body := by
  unfold tree body
  simp [text_literalTree, Connective.symbol]

theorem text_conjunctionTree (c : Clause) (rest : List Clause) :
    (conjunctionTree c rest).text = conjunction (c :: rest) := by
  induction rest generalizing c with
  | nil => exact text_tree c
  | cons d rest ih =>
    unfold conjunctionTree conjunction
    rw [Tree.text_binary, text_tree, ih]
    rfl

theorem leaves_literalTree (l : Int) : (literalTree l).leaves = [input l] := by
  unfold literalTree
  split <;> rfl

theorem leaves_tree (c : Clause) : c.tree.leaves = c.literals.map input := by
  unfold tree literals
  simp [Tree.leaves, leaves_literalTree]

theorem leaves_conjunctionTree (c : Clause) (rest : List Clause) :
    (conjunctionTree c rest).leaves = ((c :: rest).flatMap literals).map input := by
  induction rest generalizing c with
  | nil => simp [conjunctionTree, leaves_tree]
  | cons d rest ih => simp [conjunctionTree, Tree.leaves, leaves_tree, ih]

theorem exists_text_eq_conjunction {clauses : List Clause} (h : clauses ≠ []) :
    ∃ t : Tree Var, t.text = conjunction clauses ∧
      t.leaves = (clauses.flatMap literals).map input := by
  obtain ⟨c, rest, rfl⟩ := List.exists_cons_of_ne_nil h
  exact ⟨_, text_conjunctionTree c rest, leaves_conjunctionTree c rest⟩

theorem var_mem_conjunction {clauses : List Clause} (h : clauses ≠ []) {v : Var} :
    .var v ∈ conjunction clauses ↔ ∃ l ∈ clauses.flatMap literals, input l = v := by
  obtain ⟨t, htext, hleaves⟩ := exists_text_eq_conjunction h
  rw [← htext, ← Body.mem_varsOf, Tree.varsOf_text, hleaves, List.mem_map]

/-! ## Values -/

/-- The input has the value that the sign of the literal asks for. -/
def IsTrue (bits : Nat) (l : Int) : Prop :=
  0 < l ∧ bits.testBit (l.natAbs - 1) = true ∨ l < 0 ∧ bits.testBit (l.natAbs - 1) = false

section

variable {bits : Nat}

theorem value_literalTree {l : Int} (h : l ≠ 0) :
    (literalTree l).value (fun v => bits.testBit v.id) = true ↔ IsTrue bits l := by
  unfold literalTree IsTrue
  split
  · rename_i hneg
    simp [Tree.value, input, hneg, Int.not_lt.mpr (Int.le_of_lt hneg)]
  · rename_i hpos
    simp [Tree.value, input, hpos, show 0 < l by omega]

theorem value_tree {c : Clause} (h : ∀ l ∈ c.literals, l ≠ 0) :
    c.tree.value (fun v => bits.testBit v.id) = true ↔ ∃ l ∈ c.literals, IsTrue bits l := by
  simp only [literals, List.forall_mem_cons] at h
  simp only [tree, Tree.value, Connective.value, Bool.or_eq_true, value_literalTree h.1,
    value_literalTree h.2.1, value_literalTree h.2.2.1, literals, List.exists_mem_cons_iff]
  simp

theorem value_conjunctionTree {c : Clause} {rest : List Clause}
    (h : ∀ l ∈ (c :: rest).flatMap literals, l ≠ 0) :
    (conjunctionTree c rest).value (fun v => bits.testBit v.id) = true ↔
      ∀ d ∈ c :: rest, ∃ l ∈ d.literals, IsTrue bits l := by
  induction rest generalizing c with
  | nil =>
    simp only [conjunctionTree, List.forall_mem_singleton]
    exact value_tree (by simpa using h)
  | cons d rest ih =>
    rw [List.flatMap_cons, List.forall_mem_append] at h
    rw [List.forall_mem_cons, ← ih h.2, ← value_tree h.1]
    simp [conjunctionTree, Tree.value, Connective.value]

end

/-! ## Faults -/

theorem literalFault?_eq_none_iff {bound i : Nat} {l : Int} :
    literalFault? bound i l = none ↔ l ≠ 0 ∧ l.natAbs ≤ bound ∧ l.natAbs ≤ maxVariables := by
  unfold literalFault?
  split
  · simp
    omega
  · split
    · simp
      omega
    · simp
      omega

theorem fault?_eq_none_iff {bound i : Nat} {clauses : List Clause} :
    fault? bound i clauses = none ↔
      ∀ l ∈ clauses.flatMap literals, l ≠ 0 ∧ l.natAbs ≤ bound ∧ l.natAbs ≤ maxVariables := by
  induction clauses generalizing i with
  | nil => simp [fault?]
  | cons c rest ih =>
    rw [fault?, Option.or_eq_none_iff, ih, List.findSome?_eq_none_iff, List.flatMap_cons,
      List.forall_mem_append]
    simp only [literalFault?_eq_none_iff]

theorem length_flatMap_literals (clauses : List Clause) :
    (clauses.flatMap literals).length = 3 * clauses.length := by
  induction clauses with
  | nil => rfl
  | cons c rest ih =>
    rw [List.flatMap_cons, List.length_append, ih, List.length_cons]
    simp [literals]
    omega

theorem le_of_names {clauses : List Clause} {k : Nat}
    (h : ∀ n, n ∈ (clauses.flatMap literals).map Int.natAbs ↔ 1 ≤ n ∧ n ≤ k) :
    k ≤ 3 * clauses.length := by
  have hsub : List.range' 1 k ⊆ (clauses.flatMap literals).map Int.natAbs := by
    intro n hn
    rw [List.mem_range'_1] at hn
    exact (h n).mpr (by omega)
  have hnodup : (List.range' 1 k).Nodup := List.nodup_range'
  have hle := hnodup.length_le_of_subset hsub
  rwa [List.length_range', List.length_map, length_flatMap_literals] at hle

end Clause

/-! ## The formula -/

namespace Formula

open Clause (literals conjunction input)

variable {clauses : List Clause} {slack : Nat} {f : Formula}

theorem ofClauses_eq_ok_iff :
    ofClauses clauses slack = .ok f ↔ clauses ≠ [] ∧
      (∀ l ∈ clauses.flatMap literals,
        l ≠ 0 ∧ l.natAbs ≤ 3 * clauses.length ∧ l.natAbs ≤ maxVariables) ∧
      ofBody (conjunction clauses) slack = .ok f := by
  rw [← Clause.fault?_eq_none_iff (i := 0)]
  unfold ofClauses
  cases clauses with
  | nil => simp
  | cons c rest => cases Clause.fault? (3 * (c :: rest).length) 0 (c :: rest) <;> simp

theorem dense_conjunction_iff (hne : clauses ≠ []) (h : ∀ l ∈ clauses.flatMap literals, l ≠ 0)
    {k : Nat} :
    (∀ i, .x i ∈ conjunction clauses ↔ i < k) ↔
      ∀ n, n ∈ (clauses.flatMap literals).map Int.natAbs ↔ 1 ≤ n ∧ n ≤ k := by
  have hname : ∀ i, .x i ∈ conjunction clauses ↔
      i + 1 ∈ (clauses.flatMap literals).map Int.natAbs := by
    intro i
    unfold Symbol.x
    rw [Clause.var_mem_conjunction hne, List.mem_map]
    apply exists_congr
    intro l
    apply and_congr_right
    intro hl
    have := h l hl
    simp only [input, Var.mk.injEq]
    omega
  simp only [hname]
  constructor
  · intro hdense n
    cases n with
    | zero =>
      rw [List.mem_map]
      refine iff_of_false ?_ (by omega)
      rintro ⟨l, hl, habs⟩
      exact h l hl (Int.natAbs_eq_zero.mp habs)
    | succ i =>
      rw [hdense i]
      omega
  · intro hnames i
    rw [hnames (i + 1)]
    omega

theorem inputs_conjunction (hne : clauses ≠ [])
    (h : ∀ l ∈ clauses.flatMap literals, l ≠ 0 ∧ l.natAbs ≤ maxVariables) (v : Var)
    (hv : .var v ∈ conjunction clauses) : v.isSynthetic = false := by
  obtain ⟨l, hl, rfl⟩ := (Clause.var_mem_conjunction hne).mp hv
  have := h l hl
  rw [Bindings.isSynthetic_eq_false_iff]
  simp only [input]
  omega

/-- Clauses become a formula exactly if the names of their literals run from 1 up to at most 64
without a gap, and it is true under an assignment exactly if each clause has a literal that is. -/
theorem ofClauses_iff_names (clauses : List Clause) (slack : Nat) :
    ((∃ f, ofClauses clauses slack = .ok f) ↔
        minSlack ≤ slack ∧ clauses ≠ [] ∧ (∀ l ∈ clauses.flatMap literals, l ≠ 0) ∧
          ∃ k ≤ maxVariables,
            ∀ n, n ∈ (clauses.flatMap literals).map Int.natAbs ↔ 1 ≤ n ∧ n ≤ k) ∧
      ∀ f, ofClauses clauses slack = .ok f → ∀ bits,
        ∃ value, Body.evaluate f.body bits = some value ∧
          (value = true ↔ ∀ c ∈ clauses, ∃ l ∈ c.literals,
            0 < l ∧ bits.testBit (l.natAbs - 1) = true ∨
              l < 0 ∧ bits.testBit (l.natAbs - 1) = false) := by
  constructor
  · constructor
    · rintro ⟨f, hf⟩
      obtain ⟨hne, hliterals, hbody⟩ := ofClauses_eq_ok_iff.mp hf
      obtain ⟨hslack, -, -, k, hk, rfl⟩ := ofBody_eq_ok_iff.mp hbody
      have hnonzero : ∀ l ∈ clauses.flatMap literals, l ≠ 0 := fun l hl => (hliterals l hl).1
      have hinputs := inputs_conjunction hne fun l hl => ⟨(hliterals l hl).1, (hliterals l hl).2.2⟩
      have hdense := (Body.countVariables_iff_dense hinputs).mp hk
      exact ⟨hslack, hne, hnonzero, k, vars_le_of_ofBody hbody,
        (dense_conjunction_iff hne hnonzero).mp hdense⟩
    · rintro ⟨hslack, hne, hnonzero, k, hk, hnames⟩
      have hle := Clause.le_of_names hnames
      have hbound : ∀ l ∈ clauses.flatMap literals, l.natAbs ≤ k :=
        fun l hl => ((hnames l.natAbs).mp (List.mem_map_of_mem hl)).2
      have hinputs := inputs_conjunction hne fun l hl =>
        ⟨hnonzero l hl, Nat.le_trans (hbound l hl) hk⟩
      have hdense := (dense_conjunction_iff hne hnonzero).mpr hnames
      obtain ⟨t, htext, -⟩ := Clause.exists_text_eq_conjunction hne
      have hstop : .stop ∉ conjunction clauses := htext ▸ Body.stop_notMem_text t
      refine ⟨ofParts (conjunction clauses) slack k, ofClauses_eq_ok_iff.mpr ⟨hne, ?_, ?_⟩⟩
      · intro l hl
        have := hbound l hl
        exact ⟨hnonzero l hl, by omega, by omega⟩
      · exact ofBody_eq_ok_iff.mpr ⟨hslack, forbidden?_eq_none hstop hinputs 0,
          Body.checkSyntax_eq_ok_iff.mpr ⟨t, htext⟩, k,
          (Body.countVariables_iff_dense hinputs).mpr hdense, rfl⟩
  · intro f hf bits
    obtain ⟨hne, hliterals, hbody⟩ := ofClauses_eq_ok_iff.mp hf
    obtain ⟨hwritten, hfbody⟩ := ofBody_eq_ok hbody
    obtain ⟨c, rest, rfl⟩ := List.exists_cons_of_ne_nil hne
    refine ⟨_, ?_, Clause.value_conjunctionTree fun l hl => (hliterals l hl).1⟩
    rw [hfbody, ← Clause.text_conjunctionTree]
    apply Body.evaluate_text
    intro v hv
    rw [Clause.text_conjunctionTree, Body.mem_varsOf] at hv
    exact hwritten.inputs v hv

theorem ofClauses_iff_names_two :
    ∃ f, ofClauses [⟨1, -2, 3⟩, ⟨-1, 2, 2⟩] 7 = .ok f ∧ Body.evaluate f.body 1 = some false ∧
      Body.evaluate f.body 3 = some true := by
  obtain ⟨hiff, hvalue⟩ := ofClauses_iff_names [⟨1, -2, 3⟩, ⟨-1, 2, 2⟩] 7
  have hnames : ∀ n, n ∈ [1, 2, 3, 1, 2, 2] ↔ 1 ≤ n ∧ n ≤ 3 := by
    intro n
    simp only [List.mem_cons, List.not_mem_nil, or_false]
    omega
  obtain ⟨f, hf⟩ := hiff.mpr ⟨by decide, by decide, by decide, 3, by decide, hnames⟩
  obtain ⟨a, ha, hfirst⟩ := hvalue f hf 1
  obtain ⟨b, hb, hthird⟩ := hvalue f hf 3
  have hfalse : a = false := Bool.eq_false_iff.mpr fun htrue => absurd (hfirst.mp htrue) (by decide)
  have htrue : b = true := hthird.mpr (by decide)
  exact ⟨f, hf, hfalse ▸ ha, htrue ▸ hb⟩

end Formula

end LawProof
