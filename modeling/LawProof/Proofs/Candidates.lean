import LawProof.Proof.Candidate

/-!
# The numbering of candidates

Candidates with greater numbers come later in the order of proofs, step by step, by law and then by
position. Every proof of the right shape has a number: its last step is no substitution and at
position 0, and the positions before it are below the bound. The chunks of a length, one after
another, are all its candidates.
-/

namespace LawProof

/-- Steps are ordered by law, then by position. -/
def Step.Before (s t : Step) : Prop :=
  s.law.index < t.law.index ∨ s.law.index = t.law.index ∧ s.position < t.position

namespace Candidate

/-- A proof that has a number. -/
inductive Shape (positions : Nat) : Proof → Prop where
  | last {law : Law} : law ≠ .substitution → Shape positions [⟨law, 0⟩]
  | step {s : Step} {p : Proof} : s.position < positions → Shape positions p →
      Shape positions (s :: p)

/-! ## Digits -/

theorem lawAt_index (law : Law) : lawAt law.index = law := by
  unfold lawAt
  rw [Law.ofIndex?_index]
  rfl

theorem index_lawAt {d : Nat} (h : d < lawCount) : (lawAt d).index = d := by
  have hall : ∀ d < 11, (lawAt d).index = d := by decide
  exact hall d h

theorem index_lt_lastLaws {law : Law} (h : law ≠ .substitution) : law.index < lastLaws := by
  cases law <;> first | decide | exact absurd rfl h

/-- The step that a digit before the last one stands for. -/
def stepAt (positions d : Nat) : Step := ⟨lawAt (d / positions), d % positions⟩

theorem nth_succ (positions m n : Nat) :
    nth positions (m + 2) n = stepAt positions (n / count positions (m + 1)) ::
      nth positions (m + 1) (n % count positions (m + 1)) := rfl

theorem length_nth (positions m n : Nat) : (nth positions m n).length = m := by
  induction m generalizing n with
  | zero => rfl
  | succ m ih =>
    cases m with
    | zero => rfl
    | succ m => rw [nth_succ, List.length_cons, ih]

theorem stepAt_digit {positions : Nat} {s : Step} (h : s.position < positions) :
    stepAt positions (s.position + positions * s.law.index) = s := by
  unfold stepAt
  rw [Nat.add_mul_div_left _ _ (by omega), Nat.add_mul_mod_self_left, Nat.div_eq_of_lt h,
    Nat.mod_eq_of_lt h, Nat.zero_add, lawAt_index]

theorem div_mod_lex {a b k : Nat} (h : a < b) : a / k < b / k ∨ a / k = b / k ∧ a % k < b % k := by
  have hle : a / k ≤ b / k := Nat.div_le_div_right (Nat.le_of_lt h)
  rcases Nat.lt_or_eq_of_le hle with hlt | heq
  · exact Or.inl hlt
  · have ha := Nat.div_add_mod a k
    have hb := Nat.div_add_mod b k
    rw [heq] at ha
    exact Or.inr ⟨heq, by omega⟩

theorem add_mul_succ {unit n : Nat} (h : n < unit) (hlast : ¬n + 1 < unit) (d : Nat) :
    n + unit * d + 1 = 0 + unit * (d + 1) := by
  rw [Nat.mul_succ]
  omega

theorem exists_add_mul {unit : Nat} (h : 0 < unit) (n : Nat) :
    ∃ rest, rest < unit ∧ ∃ d, n = rest + unit * d :=
  ⟨n % unit, Nat.mod_lt n h, n / unit, (Nat.mod_add_div n unit).symm⟩

theorem exists_add_mul_of_lt {unit bound n : Nat} (h : n < unit * bound) :
    ∃ rest, rest < unit ∧ ∃ d, d < bound ∧ n = rest + unit * d := by
  have hunit : 0 < unit := Nat.pos_of_mul_pos_right (Nat.zero_lt_of_lt h)
  obtain ⟨rest, hrest, d, rfl⟩ := exists_add_mul hunit n
  have hd : d < bound := Nat.lt_of_mul_lt_mul_left (Nat.lt_of_le_of_lt (Nat.le_add_left _ _) h)
  exact ⟨rest, hrest, d, hd, rfl⟩

theorem stepAt_before {positions d e : Nat} (h : d < e) (he : e < lawCount * positions) :
    (stepAt positions d).Before (stepAt positions e) := by
  have hlaw : e / positions < lawCount := Nat.div_lt_of_lt_mul (by rwa [Nat.mul_comm] at he)
  have hle : d / positions ≤ e / positions := Nat.div_le_div_right (Nat.le_of_lt h)
  unfold Step.Before stepAt
  rw [index_lawAt hlaw, index_lawAt (Nat.lt_of_le_of_lt hle hlaw)]
  exact div_mod_lex h

/-! ## Numbers -/

theorem nth_lex {positions m i j : Nat} (h : i < j) (hj : j < count positions m) :
    List.Lex Step.Before (nth positions m i) (nth positions m j) := by
  induction m generalizing i j with
  | zero => exact absurd hj (Nat.not_lt_zero _)
  | succ m ih =>
    cases m with
    | zero =>
      have hlaw : ∀ d, d < count positions 1 → (lawAt d).index = d :=
        fun d hd => index_lawAt (Nat.lt_of_lt_of_le hd (Nat.sub_le lawCount 1))
      refine .rel (Or.inl ?_)
      show (lawAt i).index < (lawAt j).index
      rw [hlaw j hj, hlaw i (Nat.lt_trans h hj)]
      exact h
    | succ m =>
      rw [nth_succ, nth_succ]
      have hblock : 0 < count positions (m + 1) := by
        apply Nat.pos_of_ne_zero
        intro hzero
        rw [count, hzero, Nat.mul_zero] at hj
        exact Nat.not_lt_zero _ hj
      -- The first steps decide, and where they are the same the numbers of the rest do.
      rcases div_mod_lex h with hfirst | ⟨hfirst, hrest⟩
      · exact .rel (stepAt_before hfirst
          (Nat.div_lt_of_lt_mul (by rwa [Nat.mul_comm])))
      · rw [hfirst]
        exact .cons (ih hrest (Nat.mod_lt _ hblock))

theorem Shape.exists_nth {positions : Nat} {p : Proof} (h : Shape positions p) :
    ∃ n, n < count positions p.length ∧ nth positions p.length n = p := by
  induction h with
  | @last law hlaw =>
    refine ⟨law.index, index_lt_lastLaws hlaw, ?_⟩
    show [(⟨lawAt law.index, 0⟩ : Step)] = _
    rw [lawAt_index]
  | @step s p hs hp ih =>
    obtain ⟨n, hn, hnth⟩ := ih
    obtain ⟨m, hm⟩ : ∃ m, p.length = m + 1 := by
      cases hp <;> exact ⟨_, rfl⟩
    rw [List.length_cons, hm]
    rw [hm] at hn hnth
    have hdigit : s.position + positions * s.law.index < lawCount * positions := by
      have := Nat.mul_le_mul_left positions (Nat.succ_le_of_lt s.law.index_lt)
      rw [Nat.mul_succ] at this
      rw [Nat.mul_comm lawCount]
      omega
    refine ⟨n + count positions (m + 1) * (s.position + positions * s.law.index), ?_, ?_⟩
    · have := Nat.mul_le_mul_left (count positions (m + 1)) (Nat.succ_le_of_lt hdigit)
      rw [Nat.mul_succ] at this
      rw [count, Nat.mul_comm (lawCount * positions)]
      omega
    · rw [nth_succ, Nat.add_mul_div_left _ _ (by omega), Nat.add_mul_mod_self_left,
        Nat.div_eq_of_lt hn, Nat.mod_eq_of_lt hn, Nat.zero_add, stepAt_digit hs, hnth]

theorem shape_nth {positions m n : Nat} (h : n < count positions m) :
    Shape positions (nth positions m n) := by
  induction m generalizing n with
  | zero => exact absurd h (Nat.not_lt_zero _)
  | succ m ih =>
    cases m with
    | zero =>
      have hlaw : ∀ d < 10, lawAt d ≠ .substitution := by decide
      exact .last (hlaw n h)
    | succ m =>
      have hpos : 0 < count positions (m + 2) := Nat.zero_lt_of_lt h
      rw [count] at hpos
      rw [nth_succ]
      refine .step (Nat.mod_lt _ ?_) (ih (Nat.mod_lt _ (Nat.pos_of_mul_pos_left hpos)))
      exact Nat.pos_of_mul_pos_left (Nat.pos_of_mul_pos_right hpos)

theorem shape_iff {positions : Nat} {p : Proof} :
    Shape positions p ↔ ∃ earlier law, p = earlier ++ [⟨law, 0⟩] ∧ law ≠ .substitution ∧
      ∀ s ∈ earlier, s.position < positions := by
  constructor
  · intro h
    induction h with
    | @last law hlaw => exact ⟨[], law, rfl, hlaw, by simp⟩
    | @step s p hs _ ih =>
      obtain ⟨earlier, law, rfl, hlaw, hearlier⟩ := ih
      exact ⟨s :: earlier, law, rfl, hlaw, by simpa using ⟨hs, hearlier⟩⟩
  · rintro ⟨earlier, law, rfl, hlaw, hearlier⟩
    induction earlier with
    | nil => exact .last hlaw
    | cons s earlier ih =>
      obtain ⟨hs, hearlier⟩ := List.forall_mem_cons.mp hearlier
      exact .step hs (ih hearlier)

theorem Shape.mono {positions more : Nat} {p : Proof} (h : Shape positions p)
    (hle : positions ≤ more) : Shape more p := by
  induction h with
  | last hlaw => exact .last hlaw
  | step hs _ ih => exact .step (Nat.lt_of_lt_of_le hs hle) ih

/-! ## Counts -/

theorem cappedMul_min (a b : Nat) :
    cappedMul (min a countCap) (min b countCap) = min (a * b) countCap := by
  have hcap : ∀ {x y}, countCap ≤ x → 0 < y → min (x * y) countCap = countCap :=
    fun hx hy => Nat.min_eq_right (Nat.le_trans hx (Nat.le_mul_of_pos_right _ hy))
  have hpos : ∀ {x}, 0 < x → 0 < min x countCap := fun hx => Nat.lt_min.mpr ⟨hx, by decide⟩
  unfold cappedMul
  rcases Nat.eq_zero_or_pos a with rfl | ha
  · simp
  rcases Nat.eq_zero_or_pos b with rfl | hb
  · simp
  rcases Nat.le_total a countCap with hale | hage
  · rcases Nat.le_total b countCap with hble | hbge
    · rw [Nat.min_eq_left hale, Nat.min_eq_left hble]
    · rw [Nat.mul_comm, Nat.mul_comm a, hcap hbge ha, Nat.min_eq_right hbge,
        hcap (Nat.le_refl _) (hpos ha)]
  · rw [hcap hage hb, Nat.min_eq_right hage, hcap (Nat.le_refl _) (hpos hb)]

theorem reportedCount_eq (positions m : Nat) :
    reportedCount positions m = min (count positions m) countCap := by
  induction m with
  | zero => rfl
  | succ m ih =>
    cases m with
    | zero =>
      have hle : lastLaws ≤ countCap := by decide
      exact (Nat.min_eq_left hle).symm
    | succ m =>
      rw [reportedCount, ih, count, Nat.mul_comm lawCount, Nat.mul_comm (positions * lawCount)]
      exact cappedMul_min ..

/-! ## Chunks -/

theorem count_eq (positions m : Nat) :
    count positions m = chunkCount m * chunkSize positions m := by
  match m with
  | 0 | 1 => rfl
  | m + 2 => exact Nat.mul_assoc ..

end Candidate

namespace Candidates

open Candidate

theorem get_all (length positions i : Nat) :
    (all length positions).get i = nth positions length i := by
  unfold get all
  rw [Nat.zero_add]

theorem toList_eq (c : Candidates) : c.toList = (List.range' 0 c.size).map c.get := by
  unfold toList slice
  rw [Nat.sub_zero, Nat.min_self]

theorem length_toList (c : Candidates) : c.toList.length = c.size := by
  rw [toList_eq, List.length_map, List.length_range']

theorem getElem?_toList (c : Candidates) (i : Nat) :
    c.toList[i]? = if i < c.size then some (c.get i) else none := by
  rw [toList_eq, List.getElem?_map]
  by_cases hi : i < c.size
  · rw [List.getElem?_range' hi, if_pos hi]
    simp
  · rw [List.getElem?_eq_none (by simpa using hi), if_neg hi]
    rfl

theorem mem_toList_all {length positions : Nat} {p : Proof} :
    p ∈ (all length positions).toList ↔ p.length = length ∧ Shape positions p := by
  rw [toList_eq, List.mem_map]
  constructor
  · rintro ⟨n, hn, rfl⟩
    rw [get_all]
    exact ⟨length_nth .., shape_nth (by simpa [all] using hn)⟩
  · rintro ⟨rfl, hp⟩
    obtain ⟨n, hn, hnth⟩ := hp.exists_nth
    exact ⟨n, by simpa [all] using hn, by rw [get_all, hnth]⟩

theorem pairwise_toList_all (length positions : Nat) :
    (all length positions).toList.Pairwise (List.Lex Step.Before) := by
  rw [toList_eq, List.pairwise_map]
  apply List.Pairwise.imp_of_mem _ List.pairwise_lt_range'
  intro i j _ hj hlt
  rw [get_all, get_all]
  exact nth_lex hlt (by simpa [all] using hj)

theorem toList_chunk {length positions d : Nat} (hd : d < chunkCount length) :
    (chunk length positions d).toList =
      (List.range' (d * chunkSize positions length) (chunkSize positions length)).map
        (nth positions length) := by
  rw [toList_eq]
  unfold chunk get
  simp only [if_pos hd]
  rw [List.range'_eq_map_range, List.range'_eq_map_range, List.map_map, List.map_map]
  apply List.map_congr_left
  intro i _
  simp

theorem toList_all (length positions : Nat) :
    (all length positions).toList =
      (List.range (chunkCount length)).flatMap fun d => (chunk length positions d).toList := by
  have hblocks : ∀ k s,
      List.range' 0 (k * s) = (List.range k).flatMap fun d => List.range' (d * s) s := by
    intro k s
    induction k with
    | zero => simp
    | succ k ih =>
      rw [List.range_succ, List.flatMap_append, ← ih, Nat.succ_mul, ← List.range'_append]
      simp
  have hget : (all length positions).get = nth positions length := funext (get_all length positions)
  rw [toList_eq, hget]
  show (List.range' 0 (count positions length)).map _ = _
  rw [count_eq, hblocks, List.map_flatMap, List.flatMap_def, List.flatMap_def]
  congr 1
  apply List.map_congr_left
  intro d hd
  rw [toList_chunk (List.mem_range.mp hd)]

end Candidates

end LawProof
