import LawProof.Proofs.Odometer
import LawProof.Proofs.Trees
import LawProof.Proofs.TruthTables

/-!
# The formulas of a size

An accepted body of two symbols or more starts with an operator, and its variables are numbered
without gaps, so that it is among the words of its size. The enumeration lists each of them once.
-/

namespace LawProof

/-- The order of the codes, read from the left. -/
def Formula.Before (f g : Formula) : Prop :=
  List.Lex (· < ·) (f.body.map Symbol.code) (g.body.map Symbol.code)

theorem Formula.Before.body_ne {f g : Formula} (h : f.Before g) : f.body ≠ g.body := by
  intro heq
  unfold Formula.Before at h
  rw [heq] at h
  exact List.lex_irrefl Nat.lt_irrefl _ h

namespace Enumeration

/-! ## Words -/

theorem pos_of_minSymbols_le {n : Nat} (h : minSymbols ≤ n) : 0 < n :=
  Nat.lt_of_lt_of_le (by decide) h

/-- The codes of a word of `n` symbols: the letters are the operators, the constants and the first
`n` variables, and the first of them is an operator. -/
structure IsWord (n : Nat) (w : List Nat) : Prop where
  length : w.length = n
  letters : ∀ c ∈ w, 1 ≤ c ∧ c ≤ n + 5
  operator : ∀ c ∈ w.head?, c ≤ operators

/-- The words of `n` symbols, by their numbers. -/
def words (n : Nat) : List (List Nat) :=
  (List.range (operators * Nat.pow (n + 5) (n - 1))).map (codesAt (n + 5) n)

theorem length_words (n : Nat) : (words n).length = operators * Nat.pow (n + 5) (n - 1) := by
  unfold words
  rw [List.length_map, List.length_range]

theorem space_le_pow {n : Nat} (hn : 0 < n) :
    operators * Nat.pow (n + 5) (n - 1) ≤ Nat.pow (n + 5) n := by
  obtain ⟨m, rfl⟩ : ∃ m, n = m + 1 := ⟨n - 1, by omega⟩
  show 3 * Nat.pow (m + 1 + 5) m ≤ Nat.pow (m + 1 + 5) m * (m + 1 + 5)
  rw [Nat.mul_comm 3]
  exact Nat.mul_le_mul_left _ (by omega)

theorem pairwise_words {n : Nat} (hn : 0 < n) : (words n).Pairwise (List.Lex (· < ·)) := by
  refine List.pairwise_map.mpr (List.pairwise_lt_range.imp_of_mem ?_)
  intro i j _ hj hij
  exact codesAt_lex hij (Nat.lt_of_lt_of_le (List.mem_range.mp hj) (space_le_pow hn))

theorem isWord_codesAt {n k : Nat} (hn : 0 < n)
    (hk : k < operators * Nat.pow (n + 5) (n - 1)) : IsWord n (codesAt (n + 5) n k) := by
  refine ⟨length_codesAt .., ?_, ?_⟩
  · intro c hc
    exact bounds_of_mem_codesAt (Nat.lt_of_lt_of_le hk (space_le_pow hn)) hc
  · obtain ⟨m, rfl⟩ : ∃ m, n = m + 1 := ⟨n - 1, by omega⟩
    rw [codesAt_succ]
    rintro _ ⟨⟩
    exact Nat.div_lt_of_lt_mul (Nat.mul_comm .. ▸ hk)

theorem IsWord.exists_number {n : Nat} {w : List Nat} (h : IsWord n w) (hn : 0 < n) :
    ∃ k, k < operators * Nat.pow (n + 5) (n - 1) ∧ codesAt (n + 5) n k = w := by
  obtain ⟨rfl, hletters, hoperator⟩ := h
  cases w with
  | nil => simp at hn
  | cons c cs =>
    obtain ⟨k, hk, hcodes⟩ := exists_codesAt fun d hd => hletters d (List.mem_cons_of_mem c hd)
    obtain ⟨m, hm, hcons⟩ :=
      exists_codesAt_cons hk (hletters c List.mem_cons_self).1 (hoperator c rfl)
    rw [hcodes] at hcons
    exact ⟨m, hm, hcons⟩

theorem mem_words_iff {n : Nat} (hn : 0 < n) {w : List Nat} : w ∈ words n ↔ IsWord n w := by
  unfold words
  simp only [List.mem_map, List.mem_range]
  constructor
  · rintro ⟨k, hk, rfl⟩
    exact isWord_codesAt hn hk
  · intro h
    exact h.exists_number hn

/-! ## Formulas among the words -/

/-- The formula with the given codes, if there is one. -/
def formulaOf? (slack : Nat) (w : List Nat) : Option Formula :=
  (Formula.ofBody (w.map Symbol.ofCode) slack).toOption

theorem formulaOf?_eq_some_iff {slack : Nat} {w : List Nat} {f : Formula} :
    formulaOf? slack w = some f ↔ Formula.ofBody (w.map Symbol.ofCode) slack = .ok f := by
  unfold formulaOf?
  cases Formula.ofBody (w.map Symbol.ofCode) slack <;> simp [Except.toOption]

theorem map_ofCode_code (body : List Symbol) :
    (body.map Symbol.code).map Symbol.ofCode = body := by
  simp [Function.comp_def, Symbol.ofCode_code]

theorem map_code_ofCode (w : List Nat) : (w.map Symbol.ofCode).map Symbol.code = w := by
  simp [Function.comp_def, Symbol.code_ofCode]

theorem codes_of_formulaOf? {slack : Nat} {w : List Nat} {f : Formula}
    (h : formulaOf? slack w = some f) : f.body.map Symbol.code = w := by
  obtain ⟨-, hbody⟩ := Formula.ofBody_eq_ok (formulaOf?_eq_some_iff.mp h)
  rw [hbody, map_code_ofCode]

theorem code_head_text (t : Tree Var) (ht : minSymbols ≤ t.size) :
    ∀ c ∈ (t.text.map Symbol.code).head?, c ≤ operators := by
  cases t with
  | const c => exact absurd ht (by simp [Tree.size, minSymbols])
  | leaf v => exact absurd ht (by simp [Tree.size, minSymbols])
  | neg a =>
    rintro _ ⟨⟩
    decide
  | binary op a b =>
    rintro _ ⟨⟩
    cases op <;> decide

theorem isWord_of_ofBody {body : List Symbol} {slack : Nat} {f : Formula}
    (hf : Formula.ofBody body slack = .ok f) (h : minSymbols ≤ body.length) :
    IsWord body.length (body.map Symbol.code) := by
  obtain ⟨hwritten, -⟩ := Formula.ofBody_eq_ok hf
  obtain ⟨t, rfl⟩ := Body.checkSyntax_eq_ok_iff.mp hwritten.wellFormed
  refine ⟨by simp, ?_, code_head_text t (by simpa using h)⟩
  intro c hc
  obtain ⟨s, hs, rfl⟩ := List.mem_map.mp hc
  cases s with
  | stop => exact absurd hs (Body.stop_notMem_text t)
  | var v =>
    -- The ids have no gaps, so there are not more variables than symbols.
    have hid := Formula.id_lt_vars_of_ofBody hf hs
    have hvars := Formula.vars_le_length_of_ofBody hf
    show 1 ≤ 6 + v.id ∧ 6 + v.id ≤ t.text.length + 5
    omega
  | _ => simp [Symbol.code]

/-- The formulas with `n` symbols, in the order of their codes. -/
def formulas (n slack : Nat) : List Formula := (words n).filterMap (formulaOf? slack)

theorem mem_formulas_iff {n slack : Nat} (hn : minSymbols ≤ n) {f : Formula} :
    f ∈ formulas n slack ↔
      ∃ body : List Symbol, body.length = n ∧ Formula.ofBody body slack = .ok f := by
  have hpos := pos_of_minSymbols_le hn
  unfold formulas
  rw [List.mem_filterMap]
  constructor
  · rintro ⟨w, hw, hf⟩
    refine ⟨w.map Symbol.ofCode, ?_, formulaOf?_eq_some_iff.mp hf⟩
    rw [List.length_map, ((mem_words_iff hpos).mp hw).length]
  · rintro ⟨body, rfl, hf⟩
    refine ⟨body.map Symbol.code, (mem_words_iff hpos).mpr (isWord_of_ofBody hf hn), ?_⟩
    rw [formulaOf?_eq_some_iff, map_ofCode_code]
    exact hf

theorem pairwise_formulas {n : Nat} (hn : 0 < n) (slack : Nat) :
    (formulas n slack).Pairwise Formula.Before := by
  refine (pairwise_words hn).filterMap _ ?_
  intro w w' hlex f hf g hg
  unfold Formula.Before
  rw [codes_of_formulaOf? hf, codes_of_formulaOf? hg]
  exact hlex

/-! ## The enumeration -/

/-- The formulas among the `count` words from number `n` on. -/
def formulasFrom (e : Enumeration) (n count : Nat) : List Formula :=
  (List.range' n count).filterMap e.formula?

theorem formulasFrom_succ (e : Enumeration) (n count : Nat) :
    e.formulasFrom n (count + 1) = (e.formula? n).toList ++ e.formulasFrom (n + 1) count := by
  unfold formulasFrom
  rw [List.range'_succ, List.filterMap_cons]
  cases e.formula? n <;> rfl

theorem word_eq (e : Enumeration) (n : Nat) :
    e.word n = (codesAt e.letters e.symbols n).map Symbol.ofCode := by
  unfold word codesAt
  rw [List.map_map]
  rfl

theorem words_eq (n slack : Nat) :
    words n = (List.range (space ⟨n, slack⟩)).map fun k => (word ⟨n, slack⟩ k).map Symbol.code := by
  simp only [word_eq, map_code_ofCode]
  rfl

theorem formula?_eq (e : Enumeration) (n : Nat) :
    e.formula? n = formulaOf? e.slack (codesAt e.letters e.symbols n) := by
  unfold formula? formulaOf?
  rw [word_eq]

theorem formulasFrom_eq_drop {n slack : Nat} (k : Nat) :
    formulasFrom ⟨n, slack⟩ k (space ⟨n, slack⟩ - k) =
      ((words n).drop k).filterMap (formulaOf? slack) := by
  unfold words formulasFrom
  rw [← List.map_drop, List.range_eq_range', List.drop_range', List.filterMap_map, Nat.zero_add,
    Nat.mul_one]
  exact List.filterMap_congr fun i _ => formula?_eq ⟨n, slack⟩ i

theorem formulasFrom_space {n slack : Nat} :
    formulasFrom ⟨n, slack⟩ 0 (space ⟨n, slack⟩) = formulas n slack :=
  formulasFrom_eq_drop 0

theorem foldFrom_eq {α : Type} (e : Enumeration) (step : α → Formula → α) (count n : Nat)
    (acc : α) : e.foldFrom step count n acc = (e.formulasFrom n count).foldl step acc := by
  fun_induction foldFrom e step count n acc with
  | case1 => rfl
  | case2 count n acc h ih => rw [formulasFrom_succ, h, ih]; rfl
  | case3 count n acc f h ih => rw [formulasFrom_succ, h, ih]; rfl

theorem drawFrom_spec (e : Enumeration) (count n take : Nat) :
    (e.drawFrom count n take).1 = (e.formulasFrom n count).take take ∧
    e.formulasFrom (e.drawFrom count n take).2 (n + count - (e.drawFrom count n take).2) =
      (e.formulasFrom n count).drop take := by
  fun_induction drawFrom e count n take with
  | case1 n take => simp [formulasFrom]
  | case2 count n => simp
  | case3 count n take h ih =>
    rw [formulasFrom_succ, h, show n + (count + 1) = n + 1 + count by omega]
    exact ih
  | case4 count n take f h rest next heq ih =>
    rw [heq] at ih
    rw [formulasFrom_succ, h, show n + (count + 1) = n + 1 + count by omega]
    exact ⟨congrArg (f :: ·) ih.1, ih.2⟩

theorem draw_spec {n slack : Nat} (take : Nat) :
    (draw ⟨n, slack⟩ take).1 = (formulas n slack).take take ∧
    ((words n).drop (draw ⟨n, slack⟩ take).2).filterMap (formulaOf? slack) =
      (formulas n slack).drop take := by
  have h := drawFrom_spec ⟨n, slack⟩ (space ⟨n, slack⟩) 0 take
  rwa [Nat.zero_add, formulasFrom_space, formulasFrom_eq_drop] at h

theorem new_eq_ok {n slack : Nat} (hmin : minSymbols ≤ n) (hmax : n ≤ maxVariables)
    (hslack : minSlack ≤ slack) : new n slack = .ok ⟨n, slack⟩ := by
  unfold new
  rw [if_neg (by omega), if_neg (by omega), if_neg (by omega)]

theorem start_shows_words {n : Nat} (hn : 0 < n) :
    Odometer.Shows (n + 5) (Odometer.start n) (words n) := by
  obtain ⟨m, rfl⟩ : ∃ m, n = m + 1 := ⟨n - 1, by omega⟩
  exact Odometer.start_shows (by omega) m

/-- What it is to list the formulas with `n` symbols: the odometer shows the words, and the formulas
among them are drawn one after the other. -/
structure Lists (e : Enumeration) (n slack : Nat) (words : List (List Nat)) (fs : List Formula) :
    Prop where
  shown : Odometer.Shows (n + 5) (Odometer.start n) words
  numbered : words = (List.range e.space).map fun k => (e.word k).map Symbol.code
  mem_words : ∀ w, w ∈ words ↔ IsWord n w
  words_ascend : words.Pairwise (List.Lex (· < ·))
  length_words : words.length = 3 * Nat.pow (n + 5) (n - 1)
  reported : e.reportedSpace = min words.length countCap
  filtered : fs = words.filterMap (formulaOf? slack)
  mem_formulas : ∀ f, f ∈ fs ↔
    ∃ body : List Symbol, body.length = n ∧ Formula.ofBody body slack = .ok f
  formulas_ascend : fs.Pairwise Formula.Before
  drawn : ∀ k, (e.draw k).1 = fs.take k
  /-- From the word at which a drawing stops, the rest can be drawn. -/
  left : ∀ k, (words.drop (e.draw k).2).filterMap (formulaOf? slack) = fs.drop k

/-- The enumeration of a size lists every formula of that size once, in the order of the codes. -/
theorem new_lists {n slack : Nat} (hmin : minSymbols ≤ n) (hmax : n ≤ maxVariables)
    (hslack : minSlack ≤ slack) :
    ∃ e words fs, new n slack = .ok e ∧ e.Lists n slack words fs := by
  have hpos := pos_of_minSymbols_le hmin
  refine ⟨⟨n, slack⟩, words n, formulas n slack, new_eq_ok hmin hmax hslack, ?_⟩
  exact {
    shown := start_shows_words hpos
    numbered := words_eq n slack
    mem_words := fun w => mem_words_iff hpos
    words_ascend := pairwise_words hpos
    length_words := length_words n
    reported := by
      rw [length_words]
      rfl
    filtered := rfl
    mem_formulas := fun f => mem_formulas_iff hmin
    formulas_ascend := pairwise_formulas hpos slack
    drawn := fun k => (draw_spec k).1
    left := fun k => (draw_spec k).2 }

theorem new_lists_largest :
    ∃ e words fs, new maxVariables minSlack = .ok e ∧ e.Lists maxVariables minSlack words fs :=
  new_lists (by decide) (by decide) (by decide)

end Enumeration

end LawProof
