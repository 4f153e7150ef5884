import LawProof.Proof.Counter
import LawProof.Proofs.Candidates
import Mathlib.Algebra.BigOperators.Ring.List
import Mathlib.Algebra.GroupWithZero.Nat

/-!
# What counters give

Wheels of given sizes show a number, and to turn them is to count one up. The digits that they show
at a number are those of the candidate with this number, so a counter gives the candidates in the
order of their numbers. Holding the top digit restricts it to one run of numbers.
-/

namespace LawProof

open Candidate

/-! ## Wheels -/

namespace Wheel

/-- The wheels of the given sizes when they show a number. -/
def showing : List Nat → Nat → List Wheel
  | [], _ => []
  | size :: sizes, n => ⟨n % size, size⟩ :: showing sizes (n / size)

theorem length_showing (sizes : List Nat) (n : Nat) : (showing sizes n).length = sizes.length := by
  induction sizes generalizing n with
  | nil => rfl
  | cons size sizes ih => rw [showing, List.length_cons, ih, List.length_cons]

theorem showing_zero (sizes : List Nat) :
    showing sizes 0 = sizes.map fun size => ⟨0, size⟩ := by
  induction sizes with
  | nil => rfl
  | cons size sizes ih => rw [showing, Nat.zero_mod, Nat.zero_div, ih, List.map_cons]

theorem showing_add_mul {rest size : Nat} (h : rest < size) (sizes : List Nat) (n : Nat) :
    showing (size :: sizes) (rest + size * n) = ⟨rest, size⟩ :: showing sizes n := by
  rw [showing, Nat.add_mul_mod_self_left, Nat.mod_eq_of_lt h,
    Nat.add_mul_div_left _ _ (Nat.zero_lt_of_lt h), Nat.div_eq_of_lt h, Nat.zero_add]

theorem showing_append {low : List Nat} {n : Nat} (h : n < low.prod) (high : List Nat) (k : Nat) :
    showing (low ++ high) (n + low.prod * k) = showing low n ++ showing high k := by
  induction low generalizing n with
  | nil =>
    obtain rfl : n = 0 := by simpa using h
    simp [showing]
  | cons size low ih =>
    rw [List.prod_cons] at h ⊢
    obtain ⟨rest, hrest, j, hj, rfl⟩ := exists_add_mul_of_lt h
    rw [Nat.mul_assoc, Nat.add_assoc, ← Nat.mul_add, List.cons_append, showing_add_mul hrest,
      showing_add_mul hrest, ih hj, List.cons_append]

theorem turn_showing {sizes : List Nat} {n : Nat} (h : n < sizes.prod) :
    turn (showing sizes n) =
      if n + 1 < sizes.prod then some (showing sizes (n + 1)) else none := by
  induction sizes generalizing n with
  | nil => simp [turn, showing]
  | cons size sizes ih =>
    rw [List.prod_cons] at h ⊢
    obtain ⟨rest, hrest, k, hk, rfl⟩ := exists_add_mul_of_lt h
    have hsize : 0 < size := Nat.zero_lt_of_lt hrest
    have hroom := Nat.mul_le_mul_left size (Nat.succ_le_of_lt hk)
    rw [Nat.mul_succ] at hroom
    rw [showing_add_mul hrest, turn]
    -- The first wheel goes up, or comes round and the others count one up.
    by_cases hnext : rest + 1 < size
    · rw [if_pos hnext, if_pos (by omega), Nat.add_right_comm, showing_add_mul hnext]
    · rw [if_neg hnext, add_mul_succ hrest hnext, showing_add_mul hsize, ih hk, Nat.zero_add]
      simp only [Nat.mul_lt_mul_left hsize]
      split <;> rfl

end Wheel

namespace Counter

open Wheel (showing length_showing showing_zero showing_append turn_showing)

/-! ## Digits -/

theorem stepsBefore_append {digits : List Nat} (h : digits.length % 2 = 0) (position law : Nat)
    (later : Proof) :
    stepsBefore (digits ++ [position, law]) later =
      ⟨lawAt law, position⟩ :: stepsBefore digits later := by
  fun_induction stepsBefore digits later with
  | case1 p l digits later ih =>
    rw [List.cons_append, List.cons_append, stepsBefore]
    rw [List.length_cons, List.length_cons] at h
    exact ih (by omega)
  | case2 digits later hshort =>
    match digits, hshort with
    | [], _ => rfl
    | [d], _ => simp at h
    | p :: l :: digits, hshort => exact absurd rfl (hshort p l digits)

theorem ofDigits_append {digits : List Nat} (h : digits.length % 2 = 1) (position law : Nat) :
    ofDigits (digits ++ [position, law]) = ⟨lawAt law, position⟩ :: ofDigits digits := by
  cases digits with
  | nil => simp at h
  | cons d digits =>
    rw [List.length_cons] at h
    exact stepsBefore_append (by omega) position law _

theorem length_sizes (positions m : Nat) : (sizes positions (m + 1)).length = 2 * m + 1 := by
  induction m with
  | zero => rfl
  | succ m ih =>
    rw [sizes, List.length_append, ih]
    rfl

theorem prod_sizes (positions m : Nat) :
    (sizes positions (m + 1)).prod = count positions (m + 1) := by
  induction m with
  | zero => simp [sizes, count]
  | succ m ih =>
    rw [sizes, List.prod_append, ih, count]
    simp [Nat.mul_comm]

theorem ofDigits_showing {positions m n : Nat} (h : n < count positions m) :
    ofDigits ((showing (sizes positions m) n).map Wheel.digit) = nth positions m n := by
  induction m generalizing n with
  | zero => exact absurd h (Nat.not_lt_zero _)
  | succ m ih =>
    cases m with
    | zero =>
      have hlaw : n < lastLaws := h
      simp [sizes, showing, ofDigits, stepsBefore, nth, Nat.mod_eq_of_lt hlaw]
    | succ m =>
      rw [count, Nat.mul_comm (lawCount * positions)] at h
      obtain ⟨rest, hrest, k, hk, rfl⟩ := exists_add_mul_of_lt h
      have hblock := Nat.zero_lt_of_lt hrest
      have hlaw : k / positions < lawCount := Nat.div_lt_of_lt_mul (by rwa [Nat.mul_comm])
      have hodd : ((showing (sizes positions (m + 1)) rest).map Wheel.digit).length % 2 = 1 := by
        rw [List.length_map, length_showing, length_sizes]
        omega
      rw [nth_succ, Nat.add_mul_div_left _ _ hblock, Nat.div_eq_of_lt hrest, Nat.zero_add,
        Nat.add_mul_mod_self_left, Nat.mod_eq_of_lt hrest, ← ih hrest]
      rw [← prod_sizes] at hrest ⊢
      rw [sizes, showing_append hrest, List.map_append]
      simp only [showing, List.map_cons, List.map_nil, Nat.mod_eq_of_lt hlaw]
      rw [ofDigits_append hodd]
      rfl

/-! ## Answers -/

/-- The counter after a number of calls. -/
def after (c : Counter) : Nat → Counter
  | 0 => c
  | n + 1 => (c.after n).next.2

/-- What the call after `i` others gives. -/
def answer (c : Counter) (i : Nat) : Option Proof := (c.after i).next.1

theorem answer_eq (c : Counter) (i : Nat) :
    c.answer i = if (c.after (i + 1)).done then none else some (c.after (i + 1)).current := rfl

theorem next_done {c : Counter} (h : c.done = true) : c.next.2.done = true := by
  unfold next advance
  split <;> simp [h]

theorem after_done {c : Counter} {i j : Nat} (h : (c.after i).done = true) (hle : i ≤ j) :
    (c.after j).done = true := by
  induction hle with
  | refl => exact h
  | step _ ih => exact next_done ih

theorem answer_done {c : Counter} (h : c.done = true) (i : Nat) : c.answer i = none := by
  have hdone : (c.after (i + 1)).done = true := after_done (i := 0) h (Nat.zero_le _)
  rw [answer_eq, if_pos hdone]

section

variable {sizes : List Nat} (held : List Nat)

/-- A new counter with these wheels. -/
def fresh (sizes held : List Nat) : Counter := ⟨showing sizes 0, held, false, false⟩

theorem next_showing {n : Nat} (h : n < sizes.prod) :
    (next ⟨showing sizes n, held, true, false⟩).2 =
      if n + 1 < sizes.prod then ⟨showing sizes (n + 1), held, true, false⟩
      else ⟨showing sizes n, held, true, true⟩ := by
  unfold next advance
  simp only [turn_showing h, if_true, Bool.false_eq_true, if_false]
  by_cases hnext : n + 1 < sizes.prod
  · rw [if_pos hnext, if_pos hnext]
  · rw [if_neg hnext, if_neg hnext]

theorem after_fresh {n : Nat} (h : n < sizes.prod) :
    (fresh sizes held).after (n + 1) = ⟨showing sizes n, held, true, false⟩ := by
  induction n with
  | zero => rfl
  | succ n ih =>
    have hn : n < sizes.prod := Nat.lt_of_succ_lt h
    rw [after, ih hn, next_showing held hn, if_pos h]

theorem answer_fresh (h : 0 < sizes.prod) (i : Nat) :
    (fresh sizes held).answer i =
      if i < sizes.prod then some (ofDigits ((showing sizes i).map Wheel.digit ++ held))
      else none := by
  rw [answer_eq]
  by_cases hi : i < sizes.prod
  · rw [after_fresh held hi, if_pos hi]
    rfl
  · obtain ⟨last, hlast⟩ : ∃ last, sizes.prod = last + 1 := Nat.exists_eq_succ_of_ne_zero (by omega)
    have hdone : ((fresh sizes held).after (last + 2)).done = true := by
      rw [after, after_fresh held (by omega), next_showing held (by omega), if_neg (by omega)]
    rw [if_pos (after_done hdone (by omega)), if_neg hi]

end

theorem new_done_iff (length positions : Nat) :
    (new length positions).done = true ↔ count positions length = 0 := by
  cases length with
  | zero => simp [new, sizes, count]
  | succ m =>
    have hne : sizes positions (m + 1) ≠ [] := by
      have := length_sizes positions m
      intro hnil
      simp [hnil] at this
    rw [← prod_sizes, List.prod_eq_zero_iff]
    simp [new, hne]

section

variable {length positions : Nat}

theorem new_eq_fresh (h : count positions length ≠ 0) :
    new length positions = fresh (sizes positions length) [] := by
  have hdone : (new length positions).done = false := by
    rw [← Bool.not_eq_true, new_done_iff]
    exact h
  rw [fresh, showing_zero, new, Counter.mk.injEq]
  exact ⟨rfl, rfl, rfl, hdone⟩

theorem sizes_eq_concat (h : count positions length ≠ 0) :
    ∃ low, sizes positions length = low ++ [chunkCount length] ∧
      low.prod = chunkSize positions length := by
  match length with
  | 0 => exact absurd rfl h
  | 1 => exact ⟨[], rfl, rfl⟩
  | m + 2 =>
    refine ⟨sizes positions (m + 1) ++ [positions], by simp [sizes, chunkCount], ?_⟩
    rw [List.prod_append, prod_sizes, List.prod_singleton, Nat.mul_comm]
    rfl

theorem answer_new (length positions i : Nat) :
    (new length positions).answer i = (Candidates.all length positions).toList[i]? := by
  have hsize : (Candidates.all length positions).size = count positions length := rfl
  rw [Candidates.getElem?_toList, Candidates.get_all, hsize]
  by_cases h : count positions length = 0
  · rw [answer_done ((new_done_iff ..).mpr h), if_neg (by omega)]
  · have hprod : (sizes positions length).prod = count positions length := by
      cases length with
      | zero => exact absurd rfl h
      | succ m => exact prod_sizes positions m
    rw [new_eq_fresh h, answer_fresh _ (by omega), hprod, List.append_nil]
    by_cases hi : i < count positions length
    · rw [if_pos hi, if_pos hi, ofDigits_showing hi]
    · rw [if_neg hi, if_neg hi]

theorem chunk_eq (h : count positions length ≠ 0) (leading : Nat) :
    ∃ low, sizes positions length = low ++ [chunkCount length] ∧
      low.prod = chunkSize positions length ∧
      chunk length positions leading =
        if leading < chunkCount length then fresh low [leading]
        else { fresh (sizes positions length) [] with done := true } := by
  obtain ⟨low, hlow, hprod⟩ := sizes_eq_concat h
  refine ⟨low, hlow, hprod, ?_⟩
  have hfree : showing (sizes positions length) 0 =
      showing low 0 ++ [⟨0, chunkCount length⟩] := by
    rw [showing_zero, showing_zero, hlow, List.map_append]
    rfl
  unfold chunk
  rw [new_eq_fresh h]
  simp only [fresh, hfree, List.getLast?_concat, List.dropLast_concat, Bool.false_eq_true, if_false]

theorem ofDigits_held {low : List Nat} {leading i : Nat}
    (hlow : sizes positions length = low ++ [chunkCount length])
    (hprod : low.prod = chunkSize positions length) (hleading : leading < chunkCount length)
    (hi : i < chunkSize positions length) :
    ofDigits ((showing low i).map Wheel.digit ++ [leading]) =
      nth positions length (i + chunkSize positions length * leading) := by
  have hlt : i + chunkSize positions length * leading < count positions length := by
    have hroom := Nat.mul_le_mul_left (chunkSize positions length) (Nat.succ_le_of_lt hleading)
    rw [Nat.mul_succ] at hroom
    rw [count_eq, Nat.mul_comm (chunkCount length)]
    omega
  rw [← hprod] at hi hlt ⊢
  rw [← ofDigits_showing hlt, hlow, showing_append hi, List.map_append]
  simp [showing, Nat.mod_eq_of_lt hleading]

theorem answer_chunk (length positions leading i : Nat) :
    (chunk length positions leading).answer i =
      (Candidates.chunk length positions leading).toList[i]? := by
  have hcount := count_eq positions length
  have hsize : (Candidates.chunk length positions leading).size =
      if leading < chunkCount length then chunkSize positions length else 0 := rfl
  rw [Candidates.getElem?_toList]
  by_cases h : count positions length = 0
  · have hdone := (new_done_iff ..).mpr h
    have hchunk : chunk length positions leading = new length positions := if_pos hdone
    have hempty : (Candidates.chunk length positions leading).size = 0 := by
      rw [h, eq_comm, Nat.mul_eq_zero] at hcount
      rw [hsize]
      split <;> omega
    rw [hchunk, answer_done hdone, hempty, if_neg (Nat.not_lt_zero i)]
  · obtain ⟨low, hlow, hprod, hchunk⟩ := chunk_eq h leading
    rw [hchunk, hsize]
    by_cases hleading : leading < chunkCount length
    · have hpos : 0 < low.prod := by
        rw [hcount, ← hprod] at h
        exact Nat.pos_of_ne_zero (Nat.ne_zero_of_mul_ne_zero_right h)
      have hget : (Candidates.chunk length positions leading).get i =
          nth positions length (i + chunkSize positions length * leading) := by
        simp only [Candidates.get, Candidates.chunk, if_pos hleading]
        rw [Nat.add_comm, Nat.mul_comm]
      rw [if_pos hleading, if_pos hleading, answer_fresh _ hpos, hprod, hget]
      by_cases hi : i < chunkSize positions length
      · rw [if_pos hi, if_pos hi, ofDigits_held hlow hprod hleading hi]
      · rw [if_neg hi, if_neg hi]
    · rw [if_neg hleading, if_neg hleading, answer_done rfl, if_neg (Nat.not_lt_zero i)]

end

end Counter

/-! ## The listing -/

theorem Step.Before.irrefl (s : Step) : ¬s.Before s := by
  unfold Step.Before
  omega

theorem Candidate.count_succ (positions m : Nat) :
    count positions (m + 1) = lastLaws * (lawCount * positions) ^ m := by
  induction m with
  | zero => rw [pow_zero, Nat.mul_one, count]
  | succ m ih => rw [count, ih, pow_succ, Nat.mul_comm, Nat.mul_assoc]

/-- `IsListing length positions all chunks`: these are the candidates of a length, each once and in
their order, and they fall into chunks. -/
structure IsListing (length positions : Nat) (all : List Proof) (chunks : Nat → List Proof) :
    Prop where
  mem_iff : ∀ p, p ∈ all ↔ ∃ earlier law, p = earlier ++ [⟨law, 0⟩] ∧ p.length = length ∧
    law ≠ .substitution ∧ ∀ s ∈ earlier, s.position < positions
  sorted : all.Pairwise (List.Lex Step.Before)
  nodup : all.Nodup
  length_eq : 0 < length → all.length = lastLaws * (lawCount * positions) ^ (length - 1)
  reported : reportedCount positions length = min all.length countCap
  chunked : (List.range (chunkCount length)).flatMap chunks = all
  no_chunk : ∀ d, chunkCount length ≤ d → chunks d = []

theorem Candidates.isListing (length positions : Nat) :
    IsListing length positions (all length positions).toList
      fun d => (chunk length positions d).toList where
  mem_iff p := by
    rw [mem_toList_all, shape_iff]
    constructor
    · rintro ⟨hlength, earlier, law, hp, hlaw, hearlier⟩
      exact ⟨earlier, law, hp, hlength, hlaw, hearlier⟩
    · rintro ⟨earlier, law, hp, hlength, hlaw, hearlier⟩
      exact ⟨hlength, earlier, law, hp, hlaw, hearlier⟩
  sorted := pairwise_toList_all ..
  nodup := by
    refine (pairwise_toList_all length positions).imp ?_
    rintro p q hlex rfl
    exact List.lex_irrefl Step.Before.irrefl p hlex
  length_eq hpos := by
    obtain ⟨m, rfl⟩ := Nat.exists_eq_add_one_of_ne_zero (Nat.ne_of_gt hpos)
    rw [length_toList]
    exact count_succ positions m
  reported := by
    rw [length_toList]
    exact reportedCount_eq positions length
  chunked := (toList_all ..).symm
  no_chunk d hd := by
    have hsize : (chunk length positions d).size = 0 := if_neg (by omega)
    rw [← List.length_eq_zero_iff, length_toList, hsize]

/-- A counter gives the candidates of its length in order, each once, and nothing after them, and
those over its chunks give their parts. -/
theorem Counter.lists_candidates (length positions : Nat) :
    ∃ all chunks, (∀ i, (new length positions).answer i = all[i]?) ∧
      (∀ d i, (chunk length positions d).answer i = (chunks d)[i]?) ∧
      IsListing length positions all chunks :=
  ⟨_, _, answer_new length positions, answer_chunk length positions,
    Candidates.isListing length positions⟩

end LawProof
