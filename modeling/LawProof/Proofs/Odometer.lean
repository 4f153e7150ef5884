import LawProof.Census.Enumeration
import LawProof.Proofs.Candidates

/-!
# An odometer for words

The words of an enumeration are numbered, and read off their numbers digit by digit. An odometer
shows the codes of the same words without any numbers: it goes up at the last place, a place beyond
the last letter starts over and the one before it goes up, and it is done when the first place is
beyond the operators. Each word is shown once, in the order of the codes.
-/

namespace LawProof

namespace Enumeration

/-! ## The codes with a number -/

/-- The codes of the word with a given number; those of the letters start at 1. -/
def codesAt (base places n : Nat) : List Nat := (digits base places n).map (· + 1)

theorem codesAt_succ (base places n : Nat) :
    codesAt base (places + 1) n =
      (n / Nat.pow base places + 1) :: codesAt base places (n % Nat.pow base places) := rfl

theorem codesAt_zero (base places : Nat) : codesAt base places 0 = List.replicate places 1 := by
  induction places with
  | zero => rfl
  | succ places ih => rw [codesAt_succ, Nat.zero_div, Nat.zero_mod, ih, List.replicate_succ]

theorem codesAt_add_mul {base places n : Nat} (h : n < Nat.pow base places) (d : Nat) :
    codesAt base (places + 1) (n + Nat.pow base places * d) =
      (d + 1) :: codesAt base places n := by
  rw [codesAt_succ, Nat.add_mul_div_left _ _ (Nat.zero_lt_of_lt h), Nat.add_mul_mod_self_left,
    Nat.div_eq_of_lt h, Nat.mod_eq_of_lt h, Nat.zero_add]

theorem length_codesAt (base places n : Nat) : (codesAt base places n).length = places := by
  induction places generalizing n with
  | zero => rfl
  | succ places ih => rw [codesAt_succ, List.length_cons, ih]

theorem pow_pos_of_lt {base places n : Nat} (h : n < Nat.pow base (places + 1)) :
    0 < Nat.pow base places :=
  Nat.pos_of_mul_pos_right (Nat.zero_lt_of_lt h)

theorem bounds_of_mem_codesAt {base places n c : Nat} (h : n < Nat.pow base places)
    (hc : c ∈ codesAt base places n) : 1 ≤ c ∧ c ≤ base := by
  induction places generalizing n with
  | zero => simp [codesAt, digits] at hc
  | succ places ih =>
    rw [codesAt_succ, List.mem_cons] at hc
    rcases hc with rfl | hc
    · exact ⟨Nat.le_add_left 1 _, Nat.div_lt_of_lt_mul h⟩
    · exact ih (Nat.mod_lt _ (pow_pos_of_lt h)) hc

theorem codesAt_lex {base places i j : Nat} (h : i < j) (hj : j < Nat.pow base places) :
    List.Lex (· < ·) (codesAt base places i) (codesAt base places j) := by
  induction places generalizing i j with
  | zero =>
    have hone : Nat.pow base 0 = 1 := rfl
    omega
  | succ places ih =>
    rw [codesAt_succ, codesAt_succ]
    rcases Candidate.div_mod_lex h with hfirst | ⟨hfirst, hrest⟩
    · exact .rel (Nat.succ_lt_succ hfirst)
    · rw [hfirst]
      exact .cons (ih hrest (Nat.mod_lt _ (pow_pos_of_lt hj)))

theorem exists_codesAt_cons {base places n : Nat} (h : n < Nat.pow base places) {c bound : Nat}
    (hpos : 1 ≤ c) (hle : c ≤ bound) :
    ∃ k, k < bound * Nat.pow base places ∧
      codesAt base (places + 1) k = c :: codesAt base places n := by
  refine ⟨n + Nat.pow base places * (c - 1), ?_, ?_⟩
  · have hroom := Nat.mul_le_mul_left (Nat.pow base places) (show c - 1 + 1 ≤ bound by omega)
    rw [Nat.mul_succ, Nat.mul_comm _ bound] at hroom
    omega
  · rw [codesAt_add_mul h, Nat.sub_add_cancel hpos]

theorem exists_codesAt {base : Nat} {cs : List Nat} (h : ∀ c ∈ cs, 1 ≤ c ∧ c ≤ base) :
    ∃ n, n < Nat.pow base cs.length ∧ codesAt base cs.length n = cs := by
  induction cs with
  | nil => exact ⟨0, Nat.one_pos, rfl⟩
  | cons c cs ih =>
    obtain ⟨n, hn, hcodes⟩ := ih fun d hd => h d (List.mem_cons_of_mem c hd)
    obtain ⟨hpos, hle⟩ := h c List.mem_cons_self
    obtain ⟨k, hk, hcons⟩ := exists_codesAt_cons hn hpos hle
    rw [Nat.mul_comm] at hk
    rw [hcodes] at hcons
    exact ⟨k, hk, hcons⟩

end Enumeration

/-! ## The odometer -/

structure Odometer where
  codes : List Nat
  done : Bool

namespace Odometer

open Enumeration
open Candidate (add_mul_succ exists_add_mul)

/-- One more at the last place, and whether the place before all these has to go up as well. -/
def carry (last : Nat) : List Nat → List Nat × Bool
  | [] => ([], true)
  | c :: rest =>
    match carry last rest with
    | (rest, false) => (c :: rest, false)
    | (rest, true) => if last < c + 1 then (1 :: rest, true) else ((c + 1) :: rest, false)

/-- The next word. The first place does not start over. -/
def advance (last : Nat) (o : Odometer) : Odometer :=
  match o.codes with
  | [] => o
  | first :: rest =>
    match carry last rest with
    | (rest, false) => ⟨first :: rest, decide (operators < first)⟩
    | (rest, true) => ⟨(first + 1) :: rest, decide (operators < first + 1)⟩

def start (places : Nat) : Odometer := ⟨List.replicate places 1, false⟩

/-- `Shows last o words`: these are the words from `o` on until it is done. -/
inductive Shows (last : Nat) : Odometer → List (List Nat) → Prop where
  | done {o : Odometer} : o.done = true → Shows last o []
  | next {o : Odometer} {words : List (List Nat)} : o.done = false →
      Shows last (o.advance last) words → Shows last o (o.codes :: words)

theorem carry_codesAt {base places n : Nat} (h : n < Nat.pow base places) :
    carry base (codesAt base places n) =
      if n + 1 < Nat.pow base places then (codesAt base places (n + 1), false)
      else (codesAt base places 0, true) := by
  induction places generalizing n with
  | zero => rfl
  | succ places ih =>
    have hunit := pow_pos_of_lt h
    have hpow : Nat.pow base (places + 1) = Nat.pow base places * base := rfl
    obtain ⟨rest, hrest, d, rfl⟩ := exists_add_mul hunit n
    rw [hpow] at h ⊢
    have hd : d < base := Nat.lt_of_mul_lt_mul_left (Nat.lt_of_le_of_lt (Nat.le_add_left _ _) h)
    have hroom := Nat.mul_le_mul_left (Nat.pow base places) (Nat.succ_le_of_lt hd)
    rw [Nat.mul_succ] at hroom
    rw [codesAt_add_mul hrest]
    unfold carry
    rw [ih hrest]
    -- The place `d` goes up when all places behind it start over, and then may start over itself.
    by_cases hnext : rest + 1 < Nat.pow base places
    · rw [if_pos hnext, if_pos (by omega), Nat.add_right_comm rest, codesAt_add_mul hnext]
    · rw [if_neg hnext, add_mul_succ hrest hnext, codesAt_add_mul hunit, codesAt_zero,
        codesAt_zero, List.replicate_succ]
      dsimp only
      by_cases hlast : base < d + 1 + 1
      · have hbase : d + 1 = base := by omega
        rw [if_pos hlast, hbase, if_neg (by omega)]
      · have hmore := Nat.mul_lt_mul_of_pos_left (show d + 1 < base by omega) hunit
        rw [if_neg hlast, if_pos (by omega)]

theorem operators_lt_succ_iff {unit n : Nat} (h : n < unit) (d : Nat) :
    operators < d + 1 ↔ operators * unit ≤ n + unit * d := by
  have hunit := Nat.zero_lt_of_lt h
  rw [Nat.lt_succ_iff, ← Nat.le_div_iff_mul_le hunit, Nat.add_mul_div_left _ _ hunit,
    Nat.div_eq_of_lt h, Nat.zero_add]

/-- To advance is to count one up, and the words end where the first place is used up. -/
theorem advance_codesAt {base : Nat} (hbase : 0 < base) (places n : Nat) (done : Bool) :
    advance base ⟨codesAt base (places + 1) n, done⟩ =
      ⟨codesAt base (places + 1) (n + 1), decide (operators * Nat.pow base places ≤ n + 1)⟩ := by
  have hunit : 0 < Nat.pow base places := Nat.pow_pos hbase
  obtain ⟨rest, hrest, d, rfl⟩ := exists_add_mul hunit n
  rw [codesAt_add_mul hrest]
  unfold advance
  dsimp only
  rw [carry_codesAt hrest]
  by_cases hnext : rest + 1 < Nat.pow base places
  · rw [if_pos hnext, Nat.add_right_comm rest, codesAt_add_mul hnext]
    simp only [operators_lt_succ_iff hnext]
  · rw [if_neg hnext, add_mul_succ hrest hnext, codesAt_add_mul hunit]
    simp only [operators_lt_succ_iff hunit]

theorem shows_codesAt {base : Nat} (hbase : 0 < base) (places count : Nat) {n : Nat}
    (h : n + count = operators * Nat.pow base places) :
    Shows base ⟨codesAt base (places + 1) n, decide (operators * Nat.pow base places ≤ n)⟩
      ((List.range' n count).map (codesAt base (places + 1))) := by
  induction count generalizing n with
  | zero => exact .done (decide_eq_true (by omega))
  | succ count ih =>
    refine .next (decide_eq_false (by omega)) ?_
    rw [advance_codesAt hbase]
    exact ih (by omega)

theorem start_shows {base : Nat} (hbase : 0 < base) (places : Nat) :
    Shows base (start (places + 1))
      ((List.range (operators * Nat.pow base places)).map (codesAt base (places + 1))) := by
  have hspace : 0 < operators * Nat.pow base places :=
    Nat.mul_pos (by decide) (Nat.pow_pos hbase)
  have h := shows_codesAt hbase places _ (Nat.zero_add (operators * Nat.pow base places))
  rwa [codesAt_zero, decide_eq_false (by omega), ← List.range_eq_range'] at h

end Odometer

end LawProof
