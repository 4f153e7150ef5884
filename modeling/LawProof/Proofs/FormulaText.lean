import LawProof.Formula.Parser
import LawProof.Proofs.ProofText
import LawProof.Proofs.Trees
import LawProof.Proofs.TruthTables
import Mathlib.Data.Finset.Card
import Mathlib.Data.List.TakeWhile

/-!
# The text of a formula

`Layout` is the grammar of formula texts: symbols one after another, with gaps of blanks, commas and
brackets around them that may be empty. No symbol and no gap starts with a digit, so where the
digits of a variable end can be told without a separator. Reading accepts exactly the texts that lay
out the body of a formula, among them the one that the formula is written as.
-/

namespace LawProof.Formula

open Body (varsOf)

/-! ## The grammar -/

/-- A run of characters, possibly none, that stand for nothing. -/
def IsGap (cs : List Char) : Prop :=
  ∀ c ∈ cs, Text.isBlank c = true ∨ c = ',' ∨ c = '[' ∨ c = ']'

/-- `Spells cs s`: the characters are one way to write the symbol. The index of a variable may have
zeros in front. -/
inductive Spells : List Char → Symbol → Prop where
  | neg : Spells ['-'] .neg
  | disj : Spells ['+'] .disj
  | conj : Spells ['*'] .conj
  | fls : Spells ['F'] .fls
  | tru : Spells ['T'] .tru
  | input {digits : List Char} {i : Nat} : Text.IsNumeral digits i → i < maxVariables →
      Spells ('x' :: digits) (.x i)

/-- `Layout cs body`: the text is that of the symbols, with gaps before, between and after them. -/
inductive Layout : List Char → List Symbol → Prop where
  | gap {cs : List Char} : IsGap cs → Layout cs []
  | token {gap token rest : List Char} {s : Symbol} {body : List Symbol} :
      IsGap gap → Spells token s → Layout rest body → Layout (gap ++ token ++ rest) (s :: body)

theorem isFiller_iff {c : Char} :
    isFiller c = true ↔ Text.isBlank c = true ∨ c = ',' ∨ c = '[' ∨ c = ']' := by
  simp [isFiller, or_assoc]

theorem isDigit_of_isFiller {c : Char} (h : isFiller c = true) : c.isDigit = false := by
  rcases isFiller_iff.mp h with hblank | rfl | rfl | rfl
  · cases hdigit : c.isDigit with
    | false => rfl
    | true =>
      have := Proof.isBlank_of_isSeparator (Proof.isSeparator_of_isDigit hdigit)
      simp [this] at hblank
  · rfl
  · rfl
  · rfl

theorem Spells.exists_cons {token : List Char} {s : Symbol} (h : Spells token s) :
    ∃ c cs, token = c :: cs ∧ isFiller c = false ∧ c.isDigit = false := by
  cases h with
  | input _ _ => exact ⟨'x', _, rfl, by decide, by decide⟩
  | _ => exact ⟨_, [], rfl, by decide, by decide⟩

theorem Spells.isInput {token : List Char} {s : Symbol} (h : Spells token s) :
    s ≠ .stop ∧ ∀ v, s = .var v → v.isSynthetic = false := by
  cases h with
  | input _ hlt =>
    refine ⟨by simp [Symbol.x], ?_⟩
    rintro v ⟨⟩
    exact Bindings.isSynthetic_eq_false_iff.mpr hlt
  | _ => simp

theorem Layout.head_not_digit {cs : List Char} {body : List Symbol} (h : Layout cs body) :
    ∀ c ∈ cs.head?, c.isDigit = false := by
  intro c hc
  cases h with
  | gap hgap =>
    exact isDigit_of_isFiller (isFiller_iff.mpr (hgap c (List.mem_of_mem_head? hc)))
  | @token gap token rest s body hgap hspells _ =>
    cases gap with
    | nil =>
      obtain ⟨d, ds, rfl, -, hdigit⟩ := hspells.exists_cons
      obtain rfl := Option.some.inj hc
      exact hdigit
    | cons d gap =>
      obtain rfl := Option.some.inj hc
      exact isDigit_of_isFiller (isFiller_iff.mpr (hgap d List.mem_cons_self))

theorem Layout.isInput {cs : List Char} {body : List Symbol} (h : Layout cs body) :
    .stop ∉ body ∧ ∀ v, .var v ∈ body → v.isSynthetic = false := by
  induction h with
  | gap _ => simp
  | token _ hspells _ ih =>
    obtain ⟨hstop, hinput⟩ := hspells.isInput
    refine ⟨by simp [hstop.symm, ih.1], ?_⟩
    intro v hv
    rcases List.mem_cons.mp hv with heq | hv
    · exact hinput v heq.symm
    · exact ih.2 v hv

theorem Layout.cons {cs : List Char} {body : List Symbol} (h : Layout cs body) {c : Char}
    (hc : isFiller c = true) : Layout (c :: cs) body := by
  have hcons : ∀ {gap}, IsGap gap → IsGap (c :: gap) := by
    intro gap hgap d hd
    rcases List.mem_cons.mp hd with rfl | hd
    · exact isFiller_iff.mp hc
    · exact hgap d hd
  cases h with
  | gap hgap => exact .gap (hcons hgap)
  | token hgap hspells hrest => exact .token (hcons hgap) hspells hrest

theorem Layout.append {token rest : List Char} {s : Symbol} {body : List Symbol}
    (hspells : Spells token s) (h : Layout rest body) : Layout (token ++ rest) (s :: body) := by
  have hnil : IsGap [] := by simp [IsGap]
  exact .token hnil hspells h

/-! ## Reading -/

theorem spells_of_ofChar? {c : Char} {s : Symbol} (h : ofChar? c = some s) : Spells [c] s := by
  unfold ofChar? at h
  split at h
  · obtain rfl := Option.some.inj h
    exact .neg
  · obtain rfl := Option.some.inj h
    exact .disj
  · obtain rfl := Option.some.inj h
    exact .conj
  · obtain rfl := Option.some.inj h
    exact .fls
  · obtain rfl := Option.some.inj h
    exact .tru
  · simp at h

theorem readVariable_eq_ok_iff {letter : Char} {digits : List Char} {offset : Nat} {s : Symbol}
    (hletter : letter = 'x' ∨ letter = 's') :
    readVariable letter digits offset = .ok s ↔
      letter = 'x' ∧ ∃ i, Text.IsNumeral digits i ∧ i < maxVariables ∧ .x i = s := by
  simp only [← Text.digits?_eq_some_iff]
  unfold readVariable
  cases hread : Text.digits? digits with
  | none => simp
  | some i =>
    by_cases hword : i < Nat.pow 2 32
    · rw [Option.filter_some_pos (by simpa using hword)]
      rcases hletter with rfl | rfl
      · by_cases hmax : maxVariables ≤ i
        · simp [hmax]
        · simp [hmax]
          omega
      · simp
    · rw [Option.filter_some_neg (by simpa using hword)]
      have hlarge : ¬ i < maxVariables := by
        have : maxVariables ≤ Nat.pow 2 32 := by decide
        omega
      simp [hlarge]

theorem exists_of_map_eq_ok {ε α β : Type} {f : α → β} {x : Except ε α} {b : β}
    (h : x.map f = .ok b) : ∃ a, x = .ok a ∧ f a = b := by
  cases x with
  | error e => simp [Except.map] at h
  | ok a => exact ⟨a, rfl, Except.ok.inj h⟩

theorem layout_of_tokens {offset : Nat} {cs : List Char} {body : List Symbol}
    (h : tokens offset cs = .ok body) : Layout cs body := by
  fun_induction tokens offset cs generalizing body with
  | case1 =>
    obtain rfl := Except.ok.inj h
    exact .gap (by simp [IsGap])
  | case2 offset c rest hfiller ih => exact (ih h).cons hfiller
  | case3 offset c rest _ s hchar ih =>
    obtain ⟨later, hlater, rfl⟩ := exists_of_map_eq_ok h
    exact .append (spells_of_ofChar? hchar) (ih hlater)
  | case4 => simp at h
  | case5 offset c rest _ _ hletter digits s hread =>
    rename_i ih
    obtain ⟨later, hlater, rfl⟩ := exists_of_map_eq_ok h
    obtain ⟨rfl, i, hnumeral, hlt, rfl⟩ := (readVariable_eq_ok_iff hletter).mp hread
    have hprefix : digits <+: rest := List.takeWhile_prefix Char.isDigit
    rw [← List.prefix_iff_eq_append.mp hprefix]
    exact .append (.input hnumeral hlt) (ih hlater)
  | case6 => simp at h

theorem tokens_nil (offset : Nat) : tokens offset [] = .ok [] := by
  rw [tokens.eq_def]

theorem tokens_filler_cons {c : Char} (h : isFiller c = true) (offset : Nat) (cs : List Char) :
    tokens offset (c :: cs) = tokens (offset + c.utf8Size) cs := by
  rw [tokens.eq_def]
  simp only [h, if_true]

theorem tokens_gap_append {gap cs : List Char} {body : List Symbol} (hgap : IsGap gap)
    (h : ∀ offset, tokens offset cs = .ok body) (offset : Nat) :
    tokens offset (gap ++ cs) = .ok body := by
  induction gap generalizing offset with
  | nil => exact h offset
  | cons c gap ih =>
    rw [List.cons_append, tokens_filler_cons (isFiller_iff.mpr (hgap c List.mem_cons_self))]
    exact ih (fun d hd => hgap d (List.mem_cons_of_mem c hd)) _

theorem tokens_spells_append {token rest : List Char} {s : Symbol} {body : List Symbol}
    (hspells : Spells token s) (hhead : ∀ c ∈ rest.head?, c.isDigit = false)
    (h : ∀ offset, tokens offset rest = .ok body) (offset : Nat) :
    tokens offset (token ++ rest) = .ok (s :: body) := by
  have hmark : ∀ {c}, isFiller c = false → ofChar? c = some s →
      tokens offset ([c] ++ rest) = .ok (s :: body) := by
    intro c hfiller hchar
    rw [List.singleton_append, tokens.eq_def]
    simp only [hfiller, hchar, h]
    rfl
  cases hspells with
  | @input digits i hnumeral hlt =>
    have htake : (digits ++ rest).takeWhile Char.isDigit = digits := by
      rw [List.takeWhile_append_of_pos hnumeral.2.1]
      cases rest with
      | nil => simp
      | cons c rest => simp [hhead c rfl]
    have hread : readVariable 'x' digits offset = .ok (.x i) :=
      (readVariable_eq_ok_iff (Or.inl rfl)).mpr ⟨rfl, i, hnumeral, hlt, rfl⟩
    have hfiller : isFiller 'x' = false := by decide
    have hchar : ofChar? 'x' = none := rfl
    rw [List.cons_append, tokens.eq_def]
    simp only [hfiller, hchar, htake, hread, List.drop_left, h]
    rfl
  | _ => exact hmark (by decide) rfl

theorem tokens_eq_ok_iff {offset : Nat} {cs : List Char} {body : List Symbol} :
    tokens offset cs = .ok body ↔ Layout cs body := by
  constructor
  · exact layout_of_tokens
  · intro h
    induction h generalizing offset with
    | @gap cs hgap =>
      simpa using tokens_gap_append hgap tokens_nil offset
    | token hgap hspells hrest ih =>
      rw [List.append_assoc]
      refine tokens_gap_append hgap (fun offset => ?_) offset
      exact tokens_spells_append hspells hrest.head_not_digit (fun offset => ih) offset

/-! ## Formulas -/

/-- `IsReading cs slack f`: the text is laid out as the body of the formula, which is the text of a
tree over the first inputs without a gap, and the rest of the tape is free. -/
structure IsReading (cs : List Char) (slack : Nat) (f : Formula) : Prop where
  room : minSlack ≤ slack
  layout : Layout cs f.body
  tree : ∃ t : Tree Var, t.text = f.body
  dense : ∃ k, ∀ i, .x i ∈ f.body ↔ i < k
  vars : f.vars = (varsOf f.body).toFinset.card
  capacity : f.capacity = f.body.length + 1 + slack
  free : ∀ s ∈ f.cells.drop f.stop, s = .stop

theorem card_varsOf {body : List Symbol} {k : Nat} (h : ∀ i, .x i ∈ body ↔ i < k) :
    (varsOf body).toFinset.card = k := by
  have himage : (varsOf body).toFinset = (Finset.range k).image Var.mk := by
    ext v
    rw [List.mem_toFinset, Body.mem_varsOf, Finset.mem_image]
    constructor
    · intro hv
      exact ⟨v.id, Finset.mem_range.mpr ((h v.id).mp hv), rfl⟩
    · rintro ⟨i, hi, rfl⟩
      exact (h i).mpr (Finset.mem_range.mp hi)
  have hinjective : Function.Injective Var.mk := fun i j hij => congrArg Var.id hij
  rw [himage, Finset.card_image_of_injective _ hinjective, Finset.card_range]

theorem eq_ofParts {f : Formula} {slack : Nat} (hcapacity : f.capacity = f.body.length + 1 + slack)
    (hfree : ∀ s ∈ f.cells.drop f.stop, s = .stop) : f = ofParts f.body slack f.vars := by
  have hlength := f.length_body
  have hrest : f.cells.drop f.stop = List.replicate (slack + 1) .stop := by
    rw [List.eq_replicate_iff]
    refine ⟨?_, hfree⟩
    unfold capacity at hcapacity
    rw [List.length_drop]
    omega
  have hcells : f.cells = f.body ++ List.replicate (slack + 1) .stop := by
    rw [← hrest]
    exact (List.take_append_drop ..).symm
  cases f
  simp only [ofParts, mk.injEq]
  exact ⟨hcells, hlength.symm, trivial⟩

theorem isReading_iff {cs : List Char} {slack : Nat} {f : Formula} :
    IsReading cs slack f ↔ ∃ body, Layout cs body ∧ ofBody body slack = .ok f := by
  constructor
  · rintro ⟨hslack, hlayout, htree, ⟨k, hdense⟩, hvars, hcapacity, hfree⟩
    obtain ⟨hstop, hinputs⟩ := hlayout.isInput
    have hcount : Body.countVariables f.body = .ok f.vars := by
      rw [hvars, card_varsOf hdense]
      exact (Body.countVariables_iff_dense hinputs).mpr hdense
    exact ⟨f.body, hlayout, ofBody_eq_ok_iff.mpr ⟨hslack, forbidden?_eq_none hstop hinputs 0,
      Body.checkSyntax_eq_ok_iff.mpr htree, f.vars, hcount, eq_ofParts hcapacity hfree⟩⟩
  · rintro ⟨body, hlayout, hf⟩
    obtain ⟨hslack, -, hsyntax, vars, hvars, rfl⟩ := ofBody_eq_ok_iff.mp hf
    have hbody := body_ofParts body slack vars
    have hdense := (Body.countVariables_iff_dense hlayout.isInput.2).mp hvars
    exact {
      room := hslack
      layout := by rwa [hbody]
      tree := by
        rw [hbody]
        exact Body.checkSyntax_eq_ok_iff.mp hsyntax
      dense := ⟨vars, by rwa [hbody]⟩
      vars := by
        rw [hbody]
        exact (card_varsOf hdense).symm
      capacity := by
        rw [hbody]
        simp [capacity, ofParts]
        omega
      free := by
        intro s hs
        simp only [ofParts, List.drop_left] at hs
        exact List.eq_of_mem_replicate hs }

theorem parse_eq_ok_iff {text : String} {slack : Nat} {f : Formula} :
    parse text slack = .ok f ↔ ∃ body, Layout text.toList body ∧ ofBody body slack = .ok f := by
  unfold parse
  split
  · rename_i e htokens
    refine ⟨by simp, ?_⟩
    rintro ⟨body, hlayout, -⟩
    rw [tokens_eq_ok_iff.mpr hlayout] at htokens
    simp at htokens
  · rename_i htokens
    refine ⟨by simp, ?_⟩
    rintro ⟨body, hlayout, hf⟩
    rw [tokens_eq_ok_iff.mpr hlayout] at htokens
    obtain rfl := Except.ok.inj htokens
    -- no tree has an empty text
    obtain ⟨-, -, hsyntax, -⟩ := ofBody_eq_ok_iff.mp hf
    obtain ⟨t, ht⟩ := Body.checkSyntax_eq_ok_iff.mp hsyntax
    have hpos := t.size_pos
    rw [← t.length_text, ht] at hpos
    simp at hpos
  · rename_i body _ htokens
    refine ⟨fun hf => ⟨body, tokens_eq_ok_iff.mp htokens, hf⟩, ?_⟩
    rintro ⟨body', hlayout, hf⟩
    rw [tokens_eq_ok_iff.mpr hlayout] at htokens
    obtain rfl := Except.ok.inj htokens
    exact hf

/-! ## The text of a formula -/

theorem spells_text {s : Symbol} (hstop : s ≠ .stop)
    (hinput : ∀ v, s = .var v → v.isSynthetic = false) : Spells s.text.toList s := by
  cases s with
  | stop => exact absurd rfl hstop
  | neg => exact .neg
  | disj => exact .disj
  | conj => exact .conj
  | fls => exact .fls
  | tru => exact .tru
  | var v =>
    have hv := hinput v rfl
    have htext : (Symbol.var v).text.toList = 'x' :: Nat.toDigits 10 v.id := by
      simp [Symbol.text, Var.text, hv]
    rw [htext]
    exact .input (Text.isNumeral_toDigits v.id) (Bindings.isSynthetic_eq_false_iff.mp hv)

theorem layout_intercalate {body : List Symbol} (hstop : .stop ∉ body)
    (hinputs : ∀ v, .var v ∈ body → v.isSynthetic = false) :
    Layout ([' '].intercalate (body.map fun s => s.text.toList) ++ [']']) body := by
  induction body with
  | nil => exact .gap (by simp [IsGap])
  | cons s body ih =>
    have hspells : Spells s.text.toList s := by
      apply spells_text
      · exact fun hs => hstop (hs ▸ List.mem_cons_self)
      · exact fun v hv => hinputs v (hv ▸ List.mem_cons_self)
    have hrest := ih (fun hs => hstop (List.mem_cons_of_mem s hs))
      fun v hv => hinputs v (List.mem_cons_of_mem s hv)
    cases body with
    | nil => simpa using Layout.append hspells hrest
    | cons s' body =>
      have hblank : isFiller ' ' = true := by decide
      simpa [List.intercalate_cons_cons] using Layout.append hspells (hrest.cons hblank)

theorem layout_text {f : Formula} (hstop : .stop ∉ f.body)
    (hinputs : ∀ v, .var v ∈ f.body → v.isSynthetic = false) : Layout f.text.toList f.body := by
  have hbracket : isFiller '[' = true := by decide
  have htext : f.text.toList =
      '[' :: ([' '].intercalate (f.body.map fun s => s.text.toList) ++ [']']) := by
    simp [text, String.toList_intercalate, Function.comp_def]
  rw [htext]
  exact (layout_intercalate hstop hinputs).cons hbracket

theorem exists_parse_text {body : List Symbol} {k slack : Nat} {f : Formula}
    (hf : ofBody body k = .ok f) (hslack : minSlack ≤ slack) :
    ∃ g, parse f.text slack = .ok g ∧ g.body = f.body := by
  obtain ⟨hwritten, rfl⟩ := ofBody_eq_ok hf
  obtain ⟨-, hforbidden, hsyntax, vars, hvars, -⟩ := ofBody_eq_ok_iff.mp hf
  obtain ⟨t, ht⟩ := Body.checkSyntax_eq_ok_iff.mp hsyntax
  have hstop : .stop ∉ f.body := ht ▸ Body.stop_notMem_text t
  refine ⟨ofParts f.body slack vars, ?_, body_ofParts ..⟩
  exact parse_eq_ok_iff.mpr ⟨f.body, layout_text hstop hwritten.inputs,
    ofBody_eq_ok_iff.mpr ⟨hslack, hforbidden, hsyntax, vars, hvars, rfl⟩⟩

/-- Reading gives a formula exactly if the text lays out its body and the tape is as asked for, and
the text of any formula that can be built reads as its body again. -/
theorem parse_iff_isReading (slack : Nat) (f : Formula) :
    (∀ text, parse text slack = .ok f ↔ IsReading text.toList slack f) ∧
      (∀ body k, ofBody body k = .ok f → minSlack ≤ slack →
        ∃ g, parse f.text slack = .ok g ∧ g.body = f.body) := by
  refine ⟨fun text => ?_, fun body k hf hslack => exists_parse_text hf hslack⟩
  rw [parse_eq_ok_iff, isReading_iff]

end LawProof.Formula
