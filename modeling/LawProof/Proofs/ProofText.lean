import LawProof.Proof.Step
import Mathlib.Data.List.Forall2

/-!
# The text of a proof

There are many ways to write a proof down. A law goes by its index or by a name, in letters of
either case, and the names are put together with `-` or `_`. A number may have a plus sign and zeros
in front. Between two steps there are commas and blanks. `Layout` lists all of these texts, and each
of them is read as the proof that it writes down, among them the text of the proof. No character of
a step is a separator, so the steps come apart where they were put together. Within a step the law
ends at the `@`.
-/

namespace LawProof

namespace Text

/-! ## Numbers -/

/-- `IsNumeral digits n`: one or more digits with the value `n`, zeros in front allowed. -/
def IsNumeral (digits : List Char) (n : Nat) : Prop :=
  digits ≠ [] ∧ (∀ c ∈ digits, c.isDigit = true) ∧ Nat.ofDigitChars 10 digits 0 = n

/-- `Denotes cs n`: the characters are one way to write the number. -/
inductive Denotes : List Char → Nat → Prop where
  | plain {digits : List Char} {n : Nat} : IsNumeral digits n → Denotes digits n
  | plus {digits : List Char} {n : Nat} : IsNumeral digits n → Denotes ('+' :: digits) n

theorem digitsFrom?_eq {cs : List Char} (h : ∀ c ∈ cs, c.isDigit = true) (acc : Nat) :
    digitsFrom? acc cs = some (Nat.ofDigitChars 10 cs acc) := by
  induction cs generalizing acc with
  | nil => rfl
  | cons c cs ih =>
    unfold digitsFrom?
    rw [if_pos (h c List.mem_cons_self), ih fun d hd => h d (List.mem_cons_of_mem c hd)]
    rfl

theorem isDigit_of_mem_toDigits {n : Nat} {c : Char} (h : c ∈ Nat.toDigits 10 n) :
    c.isDigit = true :=
  Nat.isDigit_of_mem_toDigits (by omega) (by omega) h

theorem isDigit_of_digitsFrom? {cs : List Char} {acc n : Nat} (h : digitsFrom? acc cs = some n) :
    ∀ c ∈ cs, c.isDigit = true := by
  induction cs generalizing acc with
  | nil => simp
  | cons c cs ih =>
    unfold digitsFrom? at h
    split at h
    · rename_i hc
      exact List.forall_mem_cons.mpr ⟨hc, ih h⟩
    · simp at h

theorem digits?_eq_some_iff {cs : List Char} {n : Nat} : digits? cs = some n ↔ IsNumeral cs n := by
  unfold digits? IsNumeral
  by_cases hcs : cs = []
  · simp [hcs]
  · rw [if_neg (by simpa using hcs)]
    constructor
    · intro h
      have hdigits := isDigit_of_digitsFrom? h
      rw [digitsFrom?_eq hdigits, Option.some.injEq] at h
      exact ⟨hcs, hdigits, h⟩
    · rintro ⟨-, hdigits, rfl⟩
      exact digitsFrom?_eq hdigits 0

theorem isNumeral_toDigits (n : Nat) : IsNumeral (Nat.toDigits 10 n) n :=
  ⟨Nat.toDigits_ne_nil, fun _ => isDigit_of_mem_toDigits, Nat.ofDigitChars_ten_toDigits⟩

theorem Denotes.natural? {cs : List Char} {n bound : Nat} (h : Denotes cs n) (hn : n < bound) :
    natural? bound cs = some n := by
  unfold Text.natural?
  cases h with
  | plain hnumeral =>
    split
    · -- A sign is no digit.
      have := hnumeral.2.1 '+' List.mem_cons_self
      simp at this
    · rw [digits?_eq_some_iff.mpr hnumeral]
      simp [hn]
  | plus hnumeral =>
    simp only [digits?_eq_some_iff.mpr hnumeral]
    simp [hn]

/-! ## Fields -/

theorem trim_of_clear {cs : List Char} (h : ∀ c ∈ cs, isBlank c = false) : trim cs = cs := by
  have hdrop : ∀ ds : List Char, (∀ c ∈ ds, isBlank c = false) → ds.dropWhile isBlank = ds := by
    intro ds hds
    cases ds with
    | nil => rfl
    | cons c ds => simp [hds c List.mem_cons_self]
  unfold trim
  rw [hdrop cs h, hdrop cs.reverse (by simpa using h), List.reverse_reverse]

variable {sep : Char → Bool}

theorem split_of_clear {xs : List Char} (h : ∀ c ∈ xs, sep c = false) : split sep xs = [xs] := by
  induction xs with
  | nil => rfl
  | cons c xs ih =>
    unfold split
    rw [ih fun d hd => h d (List.mem_cons_of_mem c hd)]
    simp [h c List.mem_cons_self]

theorem split_ne_nil (cs : List Char) : split sep cs ≠ [] := by
  cases cs with
  | nil => exact List.cons_ne_nil _ _
  | cons c cs =>
    unfold split
    split
    · exact List.cons_ne_nil _ _
    · split <;> exact List.cons_ne_nil _ _

theorem split_append_sep {d : Char} (hd : sep d = true) (xs ys : List Char) :
    split sep (xs ++ d :: ys) = split sep xs ++ split sep ys := by
  induction xs with
  | nil => simp [split, hd]
  | cons c xs ih =>
    rw [List.cons_append, split, split, ih]
    cases hc : sep c with
    | true => rfl
    | false =>
      cases hxs : split sep xs with
      | nil => exact absurd hxs (split_ne_nil xs)
      | cons piece rest => rfl

theorem split_append_cons {xs : List Char} (h : ∀ c ∈ xs, sep c = false) {d : Char}
    (hd : sep d = true) (ys : List Char) : split sep (xs ++ d :: ys) = xs :: split sep ys := by
  rw [split_append_sep hd, split_of_clear h, List.singleton_append]

theorem fields_of_clear {xs : List Char} (hne : xs ≠ []) (h : ∀ c ∈ xs, sep c = false) :
    fields sep xs = [xs] := by
  unfold fields
  rw [split_of_clear h]
  simp [hne]

theorem fields_append_sep {d : Char} (hd : sep d = true) (xs ys : List Char) :
    fields sep (xs ++ d :: ys) = fields sep xs ++ fields sep ys := by
  unfold fields
  rw [split_append_sep hd, List.filter_append]

theorem fields_cons_of_sep {d : Char} (hd : sep d = true) (cs : List Char) :
    fields sep (d :: cs) = fields sep cs := fields_append_sep hd [] cs

theorem fields_append_cons {xs : List Char} (hne : xs ≠ []) (h : ∀ c ∈ xs, sep c = false)
    {d : Char} (hd : sep d = true) (ys : List Char) :
    fields sep (xs ++ d :: ys) = xs :: fields sep ys := by
  rw [fields_append_sep hd, fields_of_clear hne h, List.singleton_append]

theorem fields_append_of_sep {gap : List Char} (h : ∀ c ∈ gap, sep c = true) (ys : List Char) :
    fields sep (gap ++ ys) = fields sep ys := by
  induction gap with
  | nil => rfl
  | cons c gap ih =>
    obtain ⟨hc, hgap⟩ := List.forall_mem_cons.mp h
    rw [List.cons_append, fields_cons_of_sep hc, ih hgap]

end Text

namespace Proof

theorem isBlank_of_isSeparator {c : Char} (h : isSeparator c = false) :
    Text.isBlank c = false := by
  unfold isSeparator at h
  exact (Bool.or_eq_false_iff.mp h).2

theorem isSeparator_of_isDigit {c : Char} (h : c.isDigit = true) : isSeparator c = false := by
  rw [Char.isDigit_iff_toNat] at h
  have hlow : 48 ≤ c.toNat := h.1
  have hhigh : c.toNat ≤ 57 := h.2
  have hcomma : c ≠ ',' := by
    rintro rfl
    simp at hlow
  unfold isSeparator Text.isBlank
  simp [hcomma]
  omega

/-- A character that belongs to a step ends neither the step nor the name of its law. -/
def Clear (c : Char) : Prop := isSeparator c = false ∧ c ≠ '@'

end Proof

open Proof (Clear)

theorem Text.Denotes.clear {cs : List Char} {n : Nat} (h : Denotes cs n) {c : Char} (hc : c ∈ cs) :
    Clear c := by
  have hdigit : c.isDigit = true → Clear c := by
    intro hdigit
    refine ⟨Proof.isSeparator_of_isDigit hdigit, ?_⟩
    rintro rfl
    simp at hdigit
  cases h with
  | plain hnumeral => exact hdigit (hnumeral.2.1 c hc)
  | plus hnumeral =>
    rcases List.mem_cons.mp hc with rfl | hc
    · exact ⟨by decide, by decide⟩
    · exact hdigit (hnumeral.2.1 c hc)

/-! ## Laws -/

namespace Law

/-- All names that a law goes by: its own, and those for one of the equations it stands for. -/
def names : Law → List String
  | .commutative => ["commutative", "negation"]
  | .associative => ["associative", "distributive", "de-morgan", "double-negation"]
  | law => [law.name]

/-- A character of a name may be written in upper case, and `-` as `_`. -/
def Varies (c d : Char) : Prop := d = c ∨ d = c.toUpper ∨ c = '-' ∧ d = '_'

instance (c d : Char) : Decidable (Varies c d) :=
  inferInstanceAs (Decidable (d = c ∨ d = c.toUpper ∨ c = '-' ∧ d = '_'))

/-- `Spells cs law`: the characters are one way to write the law. -/
inductive Spells : List Char → Law → Prop where
  | index {cs : List Char} {law : Law} : Text.Denotes cs law.index → Spells cs law
  | name {cs : List Char} {law : Law} {name : String} : name ∈ law.names →
      List.Forall₂ Varies name.toList cs → Spells cs law

theorem name_mem_names (law : Law) : law.name ∈ law.names := by cases law <;> decide

theorem ofName?_of_mem {law : Law} {name : String} (h : name ∈ law.names) :
    ofName? name = some law := by
  have hall : ∀ name ∈ law.names, ofName? name = some law := by cases law <;> decide
  exact hall name h

theorem ne_empty_of_mem {law : Law} {name : String} (h : name ∈ law.names) : name.toList ≠ [] := by
  have hall : ∀ name ∈ law.names, name.toList ≠ [] := by cases law <;> decide
  exact hall name h

/-- The characters that names are made of. -/
def alphabet : List Char := "-abcdefghijklmnopqrstuvwxyz".toList

theorem mem_alphabet {law : Law} {name : String} (h : name ∈ law.names) :
    ∀ c ∈ name.toList, c ∈ alphabet := by
  have hall : ∀ name ∈ law.names, name.toList.all (· ∈ alphabet) = true := by
    cases law <;> decide
  simpa using hall name h

theorem Varies.spec {c d : Char} (hc : c ∈ alphabet) (hd : Varies c d) :
    plainName [d] = [c] ∧ Clear d ∧ d ≠ '+' ∧ d.isDigit = false := by
  have hall : alphabet.all (fun c => ([c, c.toUpper] ++ if c = '-' then ['_'] else []).all fun d =>
      plainName [d] = [c] ∧ (Proof.isSeparator d = false ∧ d ≠ '@') ∧ d ≠ '+' ∧
        d.isDigit = false) = true := by
    decide
  have hmem : d ∈ [c, c.toUpper] ++ if c = '-' then ['_'] else [] := by
    rcases hd with rfl | rfl | ⟨rfl, rfl⟩ <;> simp
  have hspec := of_decide_eq_true (List.all_eq_true.mp (List.all_eq_true.mp hall c hc) d hmem)
  exact hspec

theorem plainName_of_forall₂ {chars cs : List Char} (hchars : ∀ c ∈ chars, c ∈ alphabet)
    (h : List.Forall₂ Varies chars cs) :
    plainName cs = chars ∧ ∀ d ∈ cs, Clear d ∧ d ≠ '+' ∧ d.isDigit = false := by
  induction h with
  | nil => simp [plainName, Text.lower]
  | @cons c d chars cs hd _ ih =>
    obtain ⟨hc, hchars⟩ := List.forall_mem_cons.mp hchars
    obtain ⟨hplain, hclear⟩ := hd.spec hc
    obtain ⟨ihplain, ihclear⟩ := ih hchars
    refine ⟨?_, List.forall_mem_cons.mpr ⟨hclear, ihclear⟩⟩
    show plainName [d] ++ plainName cs = [c] ++ chars
    rw [hplain, ihplain]

theorem Spells.clear {cs : List Char} {law : Law} (h : Spells cs law) {c : Char} (hc : c ∈ cs) :
    Clear c := by
  cases h with
  | index h => exact h.clear hc
  | name hname h => exact ((plainName_of_forall₂ (mem_alphabet hname) h).2 c hc).1

theorem Spells.read {cs : List Char} {law : Law} (h : Spells cs law) : Law.read cs = .ok law := by
  have htrim : Text.trim cs = cs :=
    Text.trim_of_clear fun c hc => Proof.isBlank_of_isSeparator (h.clear hc).1
  unfold Law.read
  rw [htrim]
  cases h with
  | index h =>
    have hlt : law.index < Text.wordBound := Nat.lt_trans law.index_lt (by decide)
    simp only [h.natural? hlt, ofIndex?_index]
  | name hname h =>
    obtain ⟨hplain, hclear⟩ := plainName_of_forall₂ (mem_alphabet hname) h
    -- No name starts as a number does, so nothing is lost by trying an index first.
    have hnone : Text.natural? Text.wordBound cs = none := by
      obtain ⟨c, chars, hchars⟩ := List.exists_cons_of_ne_nil (ne_empty_of_mem hname)
      rw [hchars] at h
      cases h with
      | @cons _ d _ cs _ _ =>
        obtain ⟨-, hplus, hdigit⟩ := hclear d List.mem_cons_self
        unfold Text.natural?
        split
        · rename_i heq
          exact absurd (List.cons.inj heq).1 hplus
        · simp [Text.digits?, Text.digitsFrom?, hdigit]
    simp only [hnone, hplain, String.ofList_toList, ofName?_of_mem hname]

end Law

/-! ## Steps -/

namespace Step

/-- `Spells cs s`: the characters are one way to write the step. -/
inductive Spells : List Char → Step → Prop where
  | mk {law position : List Char} {s : Step} : Law.Spells law s.law →
      Text.Denotes position s.position → Spells (law ++ '@' :: position) s

theorem Spells.ne_nil {cs : List Char} {s : Step} (h : Spells cs s) : cs ≠ [] := by
  cases h
  simp

theorem Spells.isSeparator {cs : List Char} {s : Step} (h : Spells cs s) :
    ∀ c ∈ cs, Proof.isSeparator c = false := by
  intro c hc
  cases h with
  | mk hlaw hposition =>
    rcases List.mem_append.mp hc with hc | hc
    · exact (hlaw.clear hc).1
    · rcases List.mem_cons.mp hc with rfl | hc
      · decide
      · exact (hposition.clear hc).1

theorem Spells.read {cs : List Char} {s : Step} (h : Spells cs s)
    (hs : s.position < Text.wordBound) : Step.read cs = .ok s := by
  have htrim : Text.trim cs = cs :=
    Text.trim_of_clear fun c hc => Proof.isBlank_of_isSeparator (h.isSeparator c hc)
  cases h with
  | @mk law position _ hlaw hposition =>
    have hat : ∀ c ∈ law, decide (c ≠ '@') = true := fun c hc => decide_eq_true (hlaw.clear hc).2
    have hdrop : (law ++ '@' :: position).dropWhile (· ≠ '@') = '@' :: position := by
      rw [List.dropWhile_append_of_pos hat]
      simp
    have htake : (law ++ '@' :: position).takeWhile (· ≠ '@') = law := by
      rw [List.takeWhile_append_of_pos hat]
      simp
    have hblank : Text.trim position = position :=
      Text.trim_of_clear fun c hc => Proof.isBlank_of_isSeparator (hposition.clear hc).1
    unfold Step.read
    simp only [htrim, hdrop, htake, hlaw.read, hblank, hposition.natural? hs]

theorem spells_text (s : Step) : Spells s.text.toList s := by
  have hname : List.Forall₂ Law.Varies s.law.name.toList s.law.name.toList :=
    List.forall₂_same.mpr fun c _ => Or.inl rfl
  have htext : s.text.toList = s.law.name.toList ++ '@' :: Nat.toDigits 10 s.position := by
    unfold text
    simp
  rw [htext]
  exact .mk (.name s.law.name_mem_names hname) (.plain (Text.isNumeral_toDigits s.position))

end Step

/-! ## Proofs -/

namespace Proof

/-- A run of separators, possibly none. -/
def IsGap (cs : List Char) : Prop := ∀ c ∈ cs, c = ',' ∨ Text.isBlank c = true

/-- `Layout cs p`: the text is that of the steps in their order. Between two of them there is at
least one separator, and there may be more, as there may be before the first and after the last. -/
inductive Layout : List Char → Proof → Prop where
  | gap {cs : List Char} : IsGap cs → Layout cs []
  | last {gap token : List Char} {s : Step} : IsGap gap → Step.Spells token s →
      Layout (gap ++ token) [s]
  | step {gap token rest : List Char} {c : Char} {s : Step} {p : Proof} : IsGap gap →
      Step.Spells token s → c = ',' ∨ Text.isBlank c = true → Layout rest p →
      Layout (gap ++ token ++ c :: rest) (s :: p)

theorem isSeparator_iff {c : Char} : isSeparator c = true ↔ c = ',' ∨ Text.isBlank c = true := by
  simp [isSeparator]

theorem Layout.cons {cs : List Char} {p : Proof} (h : Layout cs p) {c : Char}
    (hc : c = ',' ∨ Text.isBlank c = true) : Layout (c :: cs) p := by
  have hgap : ∀ {gap}, IsGap gap → IsGap (c :: gap) :=
    fun hgap => List.forall_mem_cons.mpr ⟨hc, hgap⟩
  cases h with
  | gap hcs => exact .gap (hgap hcs)
  | last hcs htoken => exact .last (hgap hcs) htoken
  | step hcs htoken hd hrest => exact .step (hgap hcs) htoken hd hrest

theorem layout_text (p : Proof) : Layout (text p).toList p := by
  have htext : (text p).toList = (", ".toList).intercalate (p.map fun s => s.text.toList) := by
    unfold text
    rw [String.toList_intercalate, List.map_map]
    rfl
  rw [htext]
  clear htext
  have hnil : IsGap [] := by simp [IsGap]
  induction p with
  | nil => exact .gap hnil
  | cons s p ih =>
    cases p with
    | nil =>
      rw [List.map_singleton, List.intercalate_singleton]
      exact .last hnil s.spells_text
    | cons t p =>
      rw [List.map_cons, List.map_cons, List.intercalate_cons_cons, List.append_assoc]
      exact .step hnil s.spells_text (Or.inl rfl) (ih.cons (Or.inr rfl))

theorem Layout.readAll {cs : List Char} {p : Proof} (h : Layout cs p)
    (hp : ∀ s ∈ p, s.position < Text.wordBound) :
    Proof.readAll (Text.fields isSeparator cs) = .ok p := by
  have hsep : ∀ {gap}, IsGap gap → ∀ c ∈ gap, isSeparator c = true :=
    fun hgap c hc => isSeparator_iff.mpr (hgap c hc)
  induction h with
  | @gap cs hcs =>
    rw [← List.append_nil cs, Text.fields_append_of_sep (hsep hcs)]
    rfl
  | last hgap htoken =>
    rw [Text.fields_append_of_sep (hsep hgap),
      Text.fields_of_clear htoken.ne_nil htoken.isSeparator]
    simp only [Proof.readAll, htoken.read (hp _ List.mem_cons_self)]
    rfl
  | step hgap htoken hc hrest ih =>
    rw [List.append_assoc, Text.fields_append_of_sep (hsep hgap),
      Text.fields_append_cons htoken.ne_nil htoken.isSeparator (isSeparator_iff.mpr hc)]
    simp only [Proof.readAll, htoken.read (hp _ List.mem_cons_self),
      ih fun t ht => hp t (List.mem_cons_of_mem _ ht)]
    rfl

theorem read_text {p : Proof} (h : ∀ s ∈ p, s.position < Text.wordBound) :
    read (text p) = .ok p := (layout_text p).readAll h

/-- A proof whose positions are machine words is read back from its own text, and from every other
text that lays out its steps. -/
theorem read_layout {p : Proof} (h : ∀ s ∈ p, s.position < Text.wordBound) :
    read (text p) = .ok p ∧ ∀ written : String, Layout written.toList p → read written = .ok p :=
  ⟨read_text h, fun _ hwritten => hwritten.readAll h⟩

/-- A law by one of its other names and a law by its index, with commas and blanks all around. -/
theorem read_layout_mixed :
    (∀ s ∈ ([⟨.associative, 7⟩, ⟨.complement, 18446744073709551615⟩] : Proof),
      s.position < Text.wordBound) ∧
    Layout " De_MORGAN@+007,\t ,+06@18446744073709551615 ".toList
      [⟨.associative, 7⟩, ⟨.complement, 18446744073709551615⟩] ∧
    read " De_MORGAN@+007,\t ,+06@18446744073709551615 " =
      .ok [⟨.associative, 7⟩, ⟨.complement, 18446744073709551615⟩] := by
  have hwords : ∀ s ∈ ([⟨.associative, 7⟩, ⟨.complement, 18446744073709551615⟩] : Proof),
      s.position < Text.wordBound := by decide
  have hlayout : Layout " De_MORGAN@+007,\t ,+06@18446744073709551615 ".toList
      [⟨.associative, 7⟩, ⟨.complement, 18446744073709551615⟩] := by
    have hlaw : Law.Spells "De_MORGAN".toList .associative :=
      .name (show "de-morgan" ∈ Law.associative.names by decide) (by decide)
    have hfirst : Step.Spells ("De_MORGAN".toList ++ '@' :: "+007".toList) ⟨.associative, 7⟩ :=
      .mk hlaw (.plus (Text.digits?_eq_some_iff.mp (by decide)))
    have hsecond : Step.Spells ("+06".toList ++ '@' :: "18446744073709551615".toList)
        ⟨.complement, 18446744073709551615⟩ :=
      .mk (.index (.plus (Text.digits?_eq_some_iff.mp (by decide))))
        (.plain (Text.digits?_eq_some_iff.mp (by decide)))
    have hblank : IsGap [' '] := by simp [IsGap, Text.isBlank]
    have hmixed : IsGap "\t ,".toList := by simp [IsGap, Text.isBlank]
    exact .step hblank hfirst (Or.inl rfl)
      (.step hmixed hsecond (Or.inr rfl) (.gap (by simp [IsGap])))
  exact ⟨hwords, hlayout, (read_layout hwords).2 _ hlayout⟩

end Proof

end LawProof
