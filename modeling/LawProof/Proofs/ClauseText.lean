import LawProof.Clause
import LawProof.Proofs.ProofText
import Mathlib.Data.List.TakeWhile

/-!
# The text of clauses

Clauses are written one after the other, each of them as three numbers. A clause ends at a semicolon
or with its line. The numbers of a clause are kept apart by commas and blanks, and where nothing but
blanks is left between two ends, no clause is meant. `Layout` lists all these texts. Each of them is
read as the clauses that it writes down, and no other text is read at all.
-/

namespace LawProof

namespace Text

/-! ## Signed numbers -/

/-- `Signed cs i`: the characters are one way to write the number. -/
inductive Signed : List Char → Int → Prop where
  | plain {digits : List Char} {n : Nat} : IsNumeral digits n → Signed digits n
  | plus {digits : List Char} {n : Nat} : IsNumeral digits n → Signed ('+' :: digits) n
  | minus {digits : List Char} {n : Nat} : IsNumeral digits n → Signed ('-' :: digits) (-n)

theorem signed_toString (i : Int) : Signed (toString i).toList i := by
  rw [Int.toString_eq_repr]
  cases i with
  | ofNat n =>
    rw [Int.repr, Nat.toList_repr]
    exact .plain (isNumeral_toDigits n)
  | negSucc n =>
    rw [Int.repr, String.toList_append, Nat.toList_repr]
    exact .minus (isNumeral_toDigits (n + 1))

theorem integer?_eq_some_iff {bound : Nat} {cs : List Char} {i : Int} :
    integer? bound cs = some i ↔ Signed cs i ∧ -(bound : Int) ≤ i ∧ i < bound := by
  unfold integer?
  rw [Option.filter_eq_some_iff]
  refine and_congr ?_ (by simp)
  constructor
  · intro h
    have hread {digits : List Char} {f : Int → Int}
        (h : (digits? digits >>= fun n => pure (n : Int)).map f = some i) :
        ∃ n : Nat, IsNumeral digits n ∧ f n = i := by
      cases hn : digits? digits with
      | none => simp [hn] at h
      | some n => exact ⟨n, digits?_eq_some_iff.mp hn, by simpa [hn] using h⟩
    split at h
    · obtain ⟨n, hn, rfl⟩ := hread h
      exact .minus hn
    · obtain ⟨n, hn, rfl⟩ := hread h
      exact .plus hn
    · obtain ⟨n, hn, rfl⟩ := hread h
      exact .plain hn
  · intro h
    cases h with
    | plain hn =>
      -- A sign is no digit.
      have hsign : ∀ rest, cs ≠ '-' :: rest ∧ cs ≠ '+' :: rest := by
        intro rest
        constructor <;> rintro rfl <;> simpa using hn.2.1 _ List.mem_cons_self
      split
      · exact absurd rfl (hsign _).1
      · exact absurd rfl (hsign _).2
      · rw [digits?_eq_some_iff.mpr hn]
        rfl
    | plus hn => simp [digits?_eq_some_iff.mpr hn]
    | minus hn => simp [digits?_eq_some_iff.mpr hn]

theorem Signed.ne_nil {cs : List Char} {i : Int} (h : Signed cs i) : cs ≠ [] := by
  cases h with
  | plain hn => exact hn.1
  | plus => exact List.cons_ne_nil _ _
  | minus => exact List.cons_ne_nil _ _

theorem Signed.mem {cs : List Char} {i : Int} (h : Signed cs i) {c : Char} (hc : c ∈ cs) :
    c.isDigit = true ∨ c = '+' ∨ c = '-' := by
  cases h with
  | plain hn => exact Or.inl (hn.2.1 c hc)
  | plus hn =>
    rcases List.mem_cons.mp hc with rfl | hc
    · exact Or.inr (Or.inl rfl)
    · exact Or.inl (hn.2.1 c hc)
  | minus hn =>
    rcases List.mem_cons.mp hc with rfl | hc
    · exact Or.inr (Or.inr rfl)
    · exact Or.inl (hn.2.1 c hc)

/-! ## Pieces and fields -/

theorem exists_trim (cs : List Char) :
    ∃ before after, cs = before ++ trim cs ++ after ∧
      (∀ c ∈ before, isBlank c = true) ∧ ∀ c ∈ after, isBlank c = true := by
  have htake : ∀ ds : List Char, ∀ c ∈ ds.takeWhile isBlank, isBlank c = true :=
    fun ds c hc => List.mem_takeWhile_imp hc
  refine ⟨cs.takeWhile isBlank, ((cs.dropWhile isBlank).reverse.takeWhile isBlank).reverse, ?_,
    htake cs, fun c hc => htake _ c (List.mem_reverse.mp hc)⟩
  unfold trim
  rw [List.append_assoc, ← List.reverse_append, List.takeWhile_append_dropWhile,
    List.reverse_reverse, List.takeWhile_append_dropWhile]

theorem trim_eq_nil_iff {cs : List Char} : trim cs = [] ↔ ∀ c ∈ cs, isBlank c = true := by
  constructor
  · intro h
    obtain ⟨before, after, hcs, hbefore, hafter⟩ := exists_trim cs
    rw [hcs, h, List.append_nil]
    exact List.forall_mem_append.mpr ⟨hbefore, hafter⟩
  · intro h
    unfold trim
    rw [List.dropWhile_eq_nil_iff.mpr h]
    rfl

variable {sep : Char → Bool}

theorem clear_or_exists_sep (sep : Char → Bool) (cs : List Char) :
    (∀ c ∈ cs, sep c = false) ∨
      ∃ piece d rest, cs = piece ++ d :: rest ∧ (∀ c ∈ piece, sep c = false) ∧ sep d = true := by
  induction cs with
  | nil => simp
  | cons c cs ih =>
    cases hc : sep c with
    | true => exact Or.inr ⟨[], c, cs, rfl, by simp, hc⟩
    | false =>
      rcases ih with hclear | ⟨piece, d, rest, rfl, hpiece, hd⟩
      · exact Or.inl (List.forall_mem_cons.mpr ⟨hc, hclear⟩)
      · exact Or.inr ⟨c :: piece, d, rest, rfl, List.forall_mem_cons.mpr ⟨hc, hpiece⟩, hd⟩

@[elab_as_elim]
theorem cut_induction (sep : Char → Bool) {motive : List Char → Prop}
    (clear : ∀ cs : List Char, (∀ c ∈ cs, sep c = false) → motive cs)
    (cut : ∀ (piece : List Char) (d : Char) (rest : List Char), (∀ c ∈ piece, sep c = false) →
      sep d = true → motive rest → motive (piece ++ d :: rest)) (cs : List Char) : motive cs := by
  induction hn : cs.length using Nat.strongRecOn generalizing cs with
  | ind n ih =>
    rcases clear_or_exists_sep sep cs with hclear | ⟨piece, d, rest, rfl, hpiece, hd⟩
    · exact clear cs hclear
    · refine cut piece d rest hpiece hd (ih rest.length ?_ rest rfl)
      rw [← hn, List.length_append, List.length_cons]
      omega

theorem fields_of_sep {gap : List Char} (h : ∀ c ∈ gap, sep c = true) : fields sep gap = [] := by
  rw [← List.append_nil gap, fields_append_of_sep h]
  rfl

theorem fields_append_gap {gap : List Char} (h : ∀ c ∈ gap, sep c = true) (cs : List Char) :
    fields sep (cs ++ gap) = fields sep cs := by
  cases gap with
  | nil => rw [List.append_nil]
  | cons d gap =>
    obtain ⟨hd, hgap⟩ := List.forall_mem_cons.mp h
    rw [fields_append_sep hd, fields_of_sep hgap, List.append_nil]

theorem fields_append_gap_append {gap : List Char} (hne : gap ≠ []) (h : ∀ c ∈ gap, sep c = true)
    (xs ys : List Char) : fields sep (xs ++ gap ++ ys) = fields sep xs ++ fields sep ys := by
  cases gap with
  | nil => exact absurd rfl hne
  | cons d gap =>
    obtain ⟨hd, hgap⟩ := List.forall_mem_cons.mp h
    rw [List.append_assoc, List.cons_append, fields_append_sep hd, fields_append_of_sep hgap]

theorem fields_trim (hsep : ∀ c, isBlank c = true → sep c = true) (cs : List Char) :
    fields sep (trim cs) = fields sep cs := by
  obtain ⟨before, after, hcs, hbefore, hafter⟩ := exists_trim cs
  conv => rhs; rw [hcs]
  rw [fields_append_gap fun c hc => hsep c (hafter c hc),
    fields_append_of_sep fun c hc => hsep c (hbefore c hc)]

theorem fields_cases (sep : Char → Bool) (cs : List Char) :
    ((∀ c ∈ cs, sep c = true) ∧ fields sep cs = []) ∨
      ∃ gap token rest, cs = gap ++ (token ++ rest) ∧ (∀ c ∈ gap, sep c = true) ∧
        (∀ c ∈ rest.head?, sep c = true) ∧ fields sep cs = token :: fields sep rest := by
  induction cs using cut_induction sep with
  | clear cs hcs =>
    by_cases hne : cs = []
    · subst hne
      exact Or.inl ⟨by simp, rfl⟩
    · exact Or.inr ⟨[], cs, [], by simp, by simp, by simp, fields_of_clear hne hcs⟩
  | cut piece d rest hpiece hd ih =>
    by_cases hne : piece = []
    · subst hne
      rw [List.nil_append, fields_cons_of_sep hd]
      rcases ih with ⟨hrest, hnone⟩ | ⟨gap, token, rest, rfl, hgap, hfirst⟩
      · exact Or.inl ⟨List.forall_mem_cons.mpr ⟨hd, hrest⟩, hnone⟩
      · exact Or.inr ⟨d :: gap, token, rest, rfl, List.forall_mem_cons.mpr ⟨hd, hgap⟩, hfirst⟩
    · refine Or.inr ⟨[], piece, d :: rest, rfl, by simp, by simpa using hd, ?_⟩
      rw [fields_append_cons hne hpiece hd, fields_cons_of_sep hd]

end Text

namespace Clause

open Text (Signed)

/-! ## Layouts -/

/-- Commas and blanks, if any, but no newline. -/
def IsGap (cs : List Char) : Prop := ∀ c ∈ cs, c = ',' ∨ Text.isBlank c = true ∧ c ≠ '\n'

/-- `Writes cs c`: the characters are the three literals of the clause, with a gap between two of
them and possibly around them. -/
inductive Writes : List Char → Clause → Prop where
  | mk {before first gap second gap' third after : List Char} {c : Clause} :
      IsGap before → Signed first c.first → IsGap gap → gap ≠ [] →
      Signed second c.second → IsGap gap' → gap' ≠ [] → Signed third c.third → IsGap after →
      Writes (before ++ first ++ gap ++ second ++ gap' ++ third ++ after) c

/-- `Layout cs clauses`: the clauses are written in their order, each but the last up to a semicolon
or a newline. Before, between and after them there may be blanks that end in the same way. -/
inductive Layout : List Char → List Clause → Prop where
  | blank {cs : List Char} : (∀ c ∈ cs, Text.isBlank c = true ∧ c ≠ '\n') → Layout cs []
  | last {cs : List Char} {c : Clause} : Writes cs c → Layout cs [c]
  | skip {cs rest : List Char} {e : Char} {clauses : List Clause} :
      (∀ c ∈ cs, Text.isBlank c = true ∧ c ≠ '\n') → e = ';' ∨ e = '\n' → Layout rest clauses →
      Layout (cs ++ e :: rest) clauses
  | clause {cs rest : List Char} {e : Char} {c : Clause} {clauses : List Clause} :
      Writes cs c → e = ';' ∨ e = '\n' → Layout rest clauses →
      Layout (cs ++ e :: rest) (c :: clauses)

theorem isGroupEnd_iff {c : Char} : isGroupEnd c = true ↔ c = ';' ∨ c = '\n' := by
  simp [isGroupEnd]

theorem isGap_iff {c : Char} : isGap c = true ↔ c = ',' ∨ Text.isBlank c = true := by
  simp [isGap, or_comm]

theorem isGroupEnd_of_blank {c : Char} (h : Text.isBlank c = true ∧ c ≠ '\n') :
    isGroupEnd c = false := by
  rw [← Bool.not_eq_true, isGroupEnd_iff]
  rintro (rfl | rfl)
  · exact absurd h.1 (by decide)
  · exact h.2 rfl

theorem IsGap.isGap {cs : List Char} (h : IsGap cs) : ∀ c ∈ cs, Clause.isGap c = true :=
  fun c hc => isGap_iff.mpr ((h c hc).imp_right And.left)

theorem IsGap.isGroupEnd {cs : List Char} (h : IsGap cs) :
    ∀ c ∈ cs, Clause.isGroupEnd c = false := by
  intro c hc
  rcases h c hc with rfl | hblank
  · decide
  · exact isGroupEnd_of_blank hblank

theorem isGap_of_clear {cs : List Char} (hend : ∀ c ∈ cs, Clause.isGroupEnd c = false)
    (hgap : ∀ c ∈ cs, Clause.isGap c = true) : IsGap cs := by
  intro c hc
  refine (isGap_iff.mp (hgap c hc)).imp_right fun hblank => ⟨hblank, ?_⟩
  rintro rfl
  exact absurd (hend _ hc) (by decide)

theorem isGap_of_signed {cs : List Char} {i : Int} (h : Signed cs i) :
    ∀ c ∈ cs, Clause.isGap c = false := by
  intro c hc
  rcases h.mem hc with hdigit | rfl | rfl
  · have hsep := Proof.isSeparator_of_isDigit hdigit
    unfold Proof.isSeparator at hsep
    rwa [Clause.isGap, Bool.or_comm]
  · decide
  · decide

theorem isGroupEnd_of_signed {cs : List Char} {i : Int} (h : Signed cs i) :
    ∀ c ∈ cs, Clause.isGroupEnd c = false := by
  intro c hc
  rw [← Bool.not_eq_true, isGroupEnd_iff]
  rintro (rfl | rfl) <;> simpa using h.mem hc

theorem Writes.isGroupEnd {cs : List Char} {c : Clause} (h : Writes cs c) :
    ∀ ch ∈ cs, Clause.isGroupEnd ch = false := by
  obtain ⟨hbefore, hfirst, hgap, -, hsecond, hgap', -, hthird, hafter⟩ := h
  simp only [List.forall_mem_append]
  exact ⟨⟨⟨⟨⟨⟨hbefore.isGroupEnd, isGroupEnd_of_signed hfirst⟩, hgap.isGroupEnd⟩,
    isGroupEnd_of_signed hsecond⟩, hgap'.isGroupEnd⟩, isGroupEnd_of_signed hthird⟩,
    hafter.isGroupEnd⟩

/-! ## One clause -/

/-- Each literal is a number of 32 bits. -/
def InRange (c : Clause) : Prop := ∀ l ∈ c.literals, -(literalBound : Int) ≤ l ∧ l < literalBound

theorem ofLiterals?_eq_some_iff {ls : List Int} {c : Clause} :
    ofLiterals? ls = some c ↔ ls = c.literals := by
  constructor
  · intro h
    unfold ofLiterals? at h
    split at h
    · rw [← Option.some.inj h]
      rfl
    · simp at h
  · rintro rfl
    rfl

theorem readLiterals_eq_ok_iff {i : Nat} {tokens : List (List Char)} {ls : List Int} :
    readLiterals i tokens = .ok ls ↔ tokens.map (Text.integer? literalBound) = ls.map some := by
  induction tokens generalizing ls with
  | nil => cases ls <;> simp [readLiterals]
  | cons token rest ih =>
    unfold readLiterals
    cases hl : Text.integer? literalBound token with
    | none => cases ls <;> simp [hl]
    | some l =>
      cases hrest : readLiterals i rest with
      | error e => cases ls <;> simp [hl, ← ih, hrest]
      | ok ls' => cases ls <;> simp [hl, ← ih, hrest]

theorem readGroup_eq_ok_iff {i : Nat} {group : List Char} {c : Clause} :
    readGroup i group = .ok c ↔
      (Text.fields isGap group).map (Text.integer? literalBound) = c.literals.map some := by
  unfold readGroup
  rw [← readLiterals_eq_ok_iff (i := i)]
  cases readLiterals i (Text.fields isGap group) with
  | error e => simp
  | ok ls =>
    rw [Except.ok.injEq, ← ofLiterals?_eq_some_iff]
    cases hc : ofLiterals? ls <;> simp [hc]

theorem exists_literal {cs : List Char} {l : Int} {ls : List (Option Int)}
    (h : (Text.fields isGap cs).map (Text.integer? literalBound) = some l :: ls) :
    ∃ gap token rest, cs = gap ++ (token ++ rest) ∧ (∀ c ∈ gap, isGap c = true) ∧ Signed token l ∧
      (-(literalBound : Int) ≤ l ∧ l < literalBound) ∧ (∀ c ∈ rest.head?, isGap c = true) ∧
      (Text.fields isGap rest).map (Text.integer? literalBound) = ls := by
  rcases Text.fields_cases isGap cs with ⟨-, hnone⟩ | ⟨gap, token, rest, hcs, hgap, hrest, hfields⟩
  · simp [hnone] at h
  · rw [hfields, List.map_cons] at h
    obtain ⟨htoken, hls⟩ := List.cons.inj h
    obtain ⟨hsigned, hrange⟩ := Text.integer?_eq_some_iff.mp htoken
    exact ⟨gap, token, rest, hcs, hgap, hsigned, hrange, hrest, hls⟩

theorem gap_ne_nil {gap token rest : List Char} {l : Int} (htoken : Signed token l)
    (h : ∀ c ∈ (gap ++ (token ++ rest)).head?, isGap c = true) : gap ≠ [] := by
  rintro rfl
  cases token with
  | nil => exact htoken.ne_nil rfl
  | cons c token =>
    have hc : isGap c = true := h c rfl
    rw [isGap_of_signed htoken c List.mem_cons_self] at hc
    simp at hc

theorem fields_of_signed {cs : List Char} {l : Int} (h : Signed cs l) :
    Text.fields isGap cs = [cs] := Text.fields_of_clear h.ne_nil (isGap_of_signed h)

theorem Writes.fields {cs : List Char} {c : Clause} (h : Writes cs c) (hc : c.InRange) :
    (Text.fields isGap cs).map (Text.integer? literalBound) = c.literals.map some := by
  obtain ⟨hbefore, hfirst, hgap, hne, hsecond, hgap', hne', hthird, hafter⟩ := h
  rw [Text.fields_append_gap hafter.isGap, Text.fields_append_gap_append hne' hgap'.isGap,
    Text.fields_append_gap_append hne hgap.isGap, Text.fields_append_of_sep hbefore.isGap,
    fields_of_signed hfirst, fields_of_signed hsecond, fields_of_signed hthird]
  unfold InRange at hc
  simp only [literals, List.forall_mem_cons] at hc
  obtain ⟨hx, hy, hz, -⟩ := hc
  simp [literals, Text.integer?_eq_some_iff.mpr ⟨hfirst, hx⟩,
    Text.integer?_eq_some_iff.mpr ⟨hsecond, hy⟩, Text.integer?_eq_some_iff.mpr ⟨hthird, hz⟩]

theorem readGroup_trim_iff {i : Nat} {group : List Char} {c : Clause}
    (hgroup : ∀ ch ∈ group, isGroupEnd ch = false) :
    readGroup i (Text.trim group) = .ok c ↔ c.InRange ∧ Writes group c := by
  rw [readGroup_eq_ok_iff, Text.fields_trim fun ch hch => isGap_iff.mpr (Or.inr hch)]
  constructor
  · intro h
    obtain ⟨before, first, cs, rfl, hbefore, hfirst, hx, hcs, h⟩ := exists_literal h
    obtain ⟨gap, second, cs, rfl, hgap, hsecond, hy, hcs', h⟩ := exists_literal h
    obtain ⟨gap', third, after, rfl, hgap', hthird, hz, -, h⟩ := exists_literal h
    have hafter : ∀ ch ∈ after, isGap ch = true := by
      rcases Text.fields_cases isGap after with ⟨hafter, -⟩ | ⟨_, _, _, -, -, -, hfields⟩
      · exact hafter
      · simp [hfields] at h
    refine ⟨by simpa [InRange, literals] using ⟨hx, hy, hz⟩, ?_⟩
    simp only [List.forall_mem_append] at hgroup
    obtain ⟨hb, -, hg, -, hg', -, ha⟩ := hgroup
    have hwrites := Writes.mk (isGap_of_clear hb hbefore) hfirst (isGap_of_clear hg hgap)
      (gap_ne_nil hsecond hcs) hsecond (isGap_of_clear hg' hgap') (gap_ne_nil hthird hcs')
      hthird (isGap_of_clear ha hafter)
    simpa only [List.append_assoc] using hwrites
  · rintro ⟨hrange, hwrites⟩
    exact hwrites.fields hrange

/-! ## All clauses -/

theorem readGroups_cons_eq_ok_iff {i : Nat} {group : List Char} {rest : List (List Char)}
    {clauses : List Clause} (hgroup : ∀ c ∈ group, isGroupEnd c = false) :
    readGroups i (group :: rest) = .ok clauses ↔
      (∀ c ∈ group, Text.isBlank c = true) ∧ readGroups i rest = .ok clauses ∨
      ∃ c cs, clauses = c :: cs ∧ (c.InRange ∧ Writes group c) ∧
        readGroups (i + 1) rest = .ok cs := by
  simp only [← readGroup_trim_iff (i := i) hgroup, ← Text.trim_eq_nil_iff]
  rw [readGroups]
  by_cases hblank : Text.trim group = []
  · -- No clause is read from nothing.
    have hnone (c : Clause) : readGroup i [] ≠ .ok c := by
      rw [ne_eq, readGroup_eq_ok_iff]
      simp [Text.fields, Text.split, literals]
    simp [hblank, hnone]
  · cases hc : readGroup i (Text.trim group) with
    | error e => simp [hblank]
    | ok c =>
      cases hcs : readGroups (i + 1) rest with
      | error e => simp [hblank]
      | ok cs =>
        simp only [hblank, false_and, false_or, Except.ok.injEq, List.isEmpty_iff, if_false]
        constructor
        · rintro rfl
          exact ⟨c, cs, rfl, rfl, rfl⟩
        · rintro ⟨_, _, rfl, rfl, rfl⟩
          rfl

theorem Layout.readGroups {cs : List Char} {clauses : List Clause} (h : Layout cs clauses)
    (hrange : ∀ c ∈ clauses, c.InRange) (i : Nat) :
    Clause.readGroups i (Text.split isGroupEnd cs) = .ok clauses := by
  induction h generalizing i with
  | blank hcs =>
    have hclear := fun c hc => isGroupEnd_of_blank (hcs c hc)
    rw [Text.split_of_clear hclear, readGroups_cons_eq_ok_iff hclear]
    exact Or.inl ⟨fun c hc => (hcs c hc).1, rfl⟩
  | @last cs c hcs =>
    rw [Text.split_of_clear hcs.isGroupEnd, readGroups_cons_eq_ok_iff hcs.isGroupEnd]
    exact Or.inr ⟨c, [], rfl, ⟨hrange c List.mem_cons_self, hcs⟩, rfl⟩
  | skip hcs he hrest ih =>
    have hclear := fun c hc => isGroupEnd_of_blank (hcs c hc)
    rw [Text.split_append_cons hclear (isGroupEnd_iff.mpr he), readGroups_cons_eq_ok_iff hclear]
    exact Or.inl ⟨fun c hc => (hcs c hc).1, ih hrange i⟩
  | @clause cs rest e c clauses hcs he hrest ih =>
    obtain ⟨hc, hclauses⟩ := List.forall_mem_cons.mp hrange
    rw [Text.split_append_cons hcs.isGroupEnd (isGroupEnd_iff.mpr he),
      readGroups_cons_eq_ok_iff hcs.isGroupEnd]
    exact Or.inr ⟨c, clauses, rfl, ⟨hc, hcs⟩, ih hclauses (i + 1)⟩

theorem layout_of_readGroups {i : Nat} {cs : List Char} {clauses : List Clause}
    (h : readGroups i (Text.split isGroupEnd cs) = .ok clauses) :
    (∀ c ∈ clauses, c.InRange) ∧ Layout cs clauses := by
  have hline {group : List Char} (hclear : ∀ c ∈ group, isGroupEnd c = false)
      (hblank : ∀ c ∈ group, Text.isBlank c = true) :
      ∀ c ∈ group, Text.isBlank c = true ∧ c ≠ '\n' := by
    intro c hc
    refine ⟨hblank c hc, ?_⟩
    rintro rfl
    exact absurd (hclear _ hc) (by decide)
  induction cs using Text.cut_induction isGroupEnd generalizing i clauses with
  | clear cs hclear =>
    rw [Text.split_of_clear hclear, readGroups_cons_eq_ok_iff hclear] at h
    rcases h with ⟨hblank, hnil⟩ | ⟨c, cs', rfl, ⟨hrange, hwrites⟩, hnil⟩
    · cases hnil
      exact ⟨by simp, .blank (hline hclear hblank)⟩
    · cases hnil
      exact ⟨by simpa using hrange, .last hwrites⟩
  | cut group e rest hclear he ih =>
    rw [Text.split_append_cons hclear he, readGroups_cons_eq_ok_iff hclear] at h
    have hend := isGroupEnd_iff.mp he
    rcases h with ⟨hblank, hrest⟩ | ⟨c, cs', rfl, ⟨hrange, hwrites⟩, hrest⟩
    · obtain ⟨hranges, hlayout⟩ := ih hrest
      exact ⟨hranges, .skip (hline hclear hblank) hend hlayout⟩
    · obtain ⟨hranges, hlayout⟩ := ih hrest
      exact ⟨List.forall_mem_cons.mpr ⟨hrange, hranges⟩, .clause hwrites hend hlayout⟩

/-! ## The text of a list of clauses -/

def text (clauses : List Clause) : String :=
  "; ".intercalate (clauses.map fun c => " ".intercalate (c.literals.map toString))

theorem isGap_blank : IsGap [' '] := by simp [IsGap, Text.isBlank]

theorem writes_literals (c : Clause) :
    Writes (" ".intercalate (c.literals.map toString)).toList c := by
  have hnil : IsGap [] := by simp [IsGap]
  have hwrites := Writes.mk hnil (Text.signed_toString c.first) isGap_blank (List.cons_ne_nil _ _)
    (Text.signed_toString c.second) isGap_blank (List.cons_ne_nil _ _)
    (Text.signed_toString c.third) hnil
  rw [String.toList_intercalate]
  simpa [literals, List.intercalate_cons_cons] using hwrites

theorem Layout.cons {cs : List Char} {clauses : List Clause} (h : Layout cs clauses) :
    Layout (' ' :: cs) clauses := by
  have hblank {cs : List Char} (hcs : ∀ c ∈ cs, Text.isBlank c = true ∧ c ≠ '\n') :
      ∀ c ∈ ' ' :: cs, Text.isBlank c = true ∧ c ≠ '\n' :=
    List.forall_mem_cons.mpr ⟨by decide, hcs⟩
  have hwrites {cs : List Char} {c : Clause} (hcs : Writes cs c) : Writes (' ' :: cs) c := by
    obtain ⟨hbefore, hfirst, hgap, hne, hsecond, hgap', hne', hthird, hafter⟩ := hcs
    exact .mk (List.forall_mem_cons.mpr ⟨by decide, hbefore⟩) hfirst hgap hne hsecond hgap' hne'
      hthird hafter
  cases h with
  | blank hcs => exact .blank (hblank hcs)
  | last hcs => exact .last (hwrites hcs)
  | skip hcs he hrest => exact .skip (hblank hcs) he hrest
  | clause hcs he hrest => exact .clause (hwrites hcs) he hrest

theorem layout_text (clauses : List Clause) : Layout (text clauses).toList clauses := by
  unfold text
  rw [String.toList_intercalate, List.map_map]
  induction clauses with
  | nil => exact .blank (by simp)
  | cons c clauses ih =>
    cases clauses with
    | nil =>
      rw [List.map_singleton, List.intercalate_singleton]
      exact .last (writes_literals c)
    | cons d clauses =>
      rw [List.map_cons, List.map_cons, List.intercalate_cons_cons, List.append_assoc]
      exact .clause (writes_literals c) (Or.inl rfl) ih.cons

/-- Clauses whose literals are numbers of 32 bits are read from all the texts that lay them out and
from no other, and other clauses from no text. There is such a layout for every list of clauses. -/
theorem readAll_iff_layout (clauses : List Clause) :
    Layout (text clauses).toList clauses ∧
    ∀ written : String, readAll written = .ok clauses ↔
      (∀ c ∈ clauses, c.InRange) ∧ Layout written.toList clauses :=
  ⟨layout_text clauses, fun _ => ⟨layout_of_readGroups, fun h => h.2.readGroups h.1 0⟩⟩

example : readAll " \n1,-2\t+003 ;; -2147483648 , 5 -0\n\n" =
    .ok [⟨1, -2, 3⟩, ⟨-2147483648, 5, 0⟩] := by decide +kernel

end Clause

end LawProof
