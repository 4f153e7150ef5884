import LawProof.Proofs.TruthTables
import Mathlib.Order.Bounds.Basic
import Mathlib.Order.Interval.Set.LinearOrder

/-!
# Counting inputs in a word

The inputs of a body can be noted in a word of 64 bits, one for each input there is. Then the inputs
are counted by the ones of the word, and they are the first ones if the word is that many ones at
its low end. Otherwise the first zero is the least input that is missing. With all 64 inputs there
is no zero, and no power of two in the word to compare with.
-/

namespace LawProof.Body

/-- The ids of the inputs that occur in a body. -/
def inputs (body : List Symbol) : Set Nat := {i | i < maxVariables ∧ .x i ∈ body}

/-! ## Words -/

/-- Sets the bit of an input. -/
def mark (seen : BitVec 64) : Symbol → BitVec 64
  | .var v => if v.isSynthetic then seen else seen ||| 1#64 <<< v.id
  | _ => seen

def inputWord (body : List Symbol) : BitVec 64 := body.foldl mark 0#64

/-- The word with `count` ones at its low end. The full word is one less than a power of two that is
not a word. -/
def lowOnes (count : Nat) : BitVec 64 :=
  if count = maxVariables then BitVec.allOnes 64 else 1#64 <<< count - 1#64

/-- `countVariables` by the number of ones. The ones at the low end of a word are the zeros at the
low end of its complement. -/
def countInWord (body : List Symbol) : Except FormulaError Nat :=
  let seen := inputWord body
  let count := seen.cpop.toNat
  if seen = lowOnes count then .ok count else .error (.variableGap (~~~seen).ctz.toNat)

theorem getLsbD_mark (seen : BitVec 64) (s : Symbol) (i : Nat) :
    (mark seen s).getLsbD i = true ↔ seen.getLsbD i = true ∨ i < maxVariables ∧ .x i = s := by
  unfold mark Symbol.x
  split
  · rename_i v
    split
    · rename_i hv
      have hle : maxVariables ≤ v.id := Bindings.isSynthetic_iff.mp hv
      refine (or_iff_left ?_).symm
      rintro ⟨hi, heq⟩
      obtain rfl := Symbol.var.inj heq
      exact absurd hi (Nat.not_lt.mpr hle)
    · rename_i hv
      have hlt : v.id < 64 := Bindings.isSynthetic_eq_false_iff.mp (Bool.eq_false_iff.mpr hv)
      have hbit : (1#64 <<< v.id).getLsbD i = decide (v.id = i) := by
        rw [← BitVec.twoPow_eq, BitVec.getLsbD_twoPow]
        simp [hlt]
      have hid : v.id = i ↔ i < maxVariables ∧ Symbol.var ⟨i⟩ = .var v := by
        constructor
        · rintro rfl
          exact ⟨hlt, rfl⟩
        · rintro ⟨-, heq⟩
          exact (congrArg Var.id (Symbol.var.inj heq)).symm
      rw [BitVec.getLsbD_or, hbit, Bool.or_eq_true, decide_eq_true_iff, hid]
  · rename_i hs
    have hne : Symbol.var ⟨i⟩ ≠ s := fun heq => hs _ heq.symm
    simp [hne]

theorem getLsbD_foldl_mark (body : List Symbol) (seen : BitVec 64) (i : Nat) :
    (body.foldl mark seen).getLsbD i = true ↔ seen.getLsbD i = true ∨ i ∈ inputs body := by
  induction body generalizing seen with
  | nil => simp [inputs]
  | cons s body ih =>
    have hcons : i ∈ inputs (s :: body) ↔ i < maxVariables ∧ .x i = s ∨ i ∈ inputs body := by
      simp only [inputs, Set.mem_ofPred_eq, List.mem_cons]
      rw [and_or_left]
    rw [List.foldl_cons, ih, getLsbD_mark, hcons, or_assoc]

theorem getLsbD_inputWord (body : List Symbol) (i : Nat) :
    (inputWord body).getLsbD i = true ↔ i ∈ inputs body := by
  unfold inputWord
  rw [getLsbD_foldl_mark]
  simp

/-! ## Ones at the low end -/

theorem lowOnes_eq {k : Nat} (h : k ≤ maxVariables) :
    lowOnes k = (BitVec.allOnes k).setWidth 64 := by
  unfold lowOnes
  split
  · rename_i hk
    subst hk
    rfl
  · rename_i hk
    have hlt : k < 64 := Nat.lt_of_le_of_ne h hk
    have hpow : 2 ^ k < 2 ^ 64 := Nat.pow_lt_pow_right (by decide) hlt
    have hpos : 0 < 2 ^ k := Nat.two_pow_pos k
    apply BitVec.eq_of_toNat_eq
    rw [BitVec.toNat_setWidth, BitVec.toNat_allOnes, BitVec.toNat_sub_of_le]
    · rw [BitVec.toNat_shiftLeft, BitVec.toNat_ofNat, Nat.shiftLeft_eq]
      omega
    · rw [BitVec.le_def, BitVec.toNat_shiftLeft, BitVec.toNat_ofNat, Nat.shiftLeft_eq]
      omega

theorem getLsbD_lowOnes {k : Nat} (h : k ≤ maxVariables) (i : Nat) :
    (lowOnes k).getLsbD i = decide (i < k) := by
  have hlt : i < k → i < 64 := fun hi => Nat.lt_of_lt_of_le hi h
  rw [lowOnes_eq h, BitVec.getLsbD_setWidth, BitVec.getLsbD_allOnes]
  simpa using hlt

theorem cpop_lowOnes {k : Nat} (h : k ≤ maxVariables) : (lowOnes k).cpop.toNat = k := by
  have hwidth : k ≤ 64 := h
  rw [lowOnes_eq h, BitVec.toNat_cpop_setWidth_eq_of_le hwidth, BitVec.cpop_allOnes,
    BitVec.toNat_ofNat, Nat.mod_eq_of_lt Nat.lt_two_pow_self]

theorem trailingOnes_spec (n : Nat) :
    n.testBit (trailingOnes n) = false ∧ ∀ i < trailingOnes n, n.testBit i = true := by
  fun_induction trailingOnes n with
  | case1 n hodd ih =>
    obtain ⟨hfirst, hbefore⟩ := ih
    refine ⟨by rwa [Nat.testBit_succ], ?_⟩
    intro i hi
    cases i with
    | zero => simpa using hodd
    | succ i =>
      rw [Nat.testBit_succ]
      exact hbefore i (by omega)
  | case2 n heven => exact ⟨by simpa using heven, by simp⟩

/-! ## What is counted -/

/-- `Counted body r`: the inputs of a body are the first ones and `r` is their number, or there is a
gap and `r` tells where it starts. -/
inductive Counted (body : List Symbol) : Except FormulaError Nat → Prop where
  | dense {k : Nat} : inputs body = Set.Iio k → Counted body (.ok k)
  | gap {missing later : Nat} : IsLeast (inputs body)ᶜ missing → later ∈ inputs body →
      missing < later → Counted body (.error (.variableGap missing))

theorem inputs_ne_of_gap {body : List Symbol} {k missing later : Nat} (h : missing ∉ inputs body)
    (hlater : later ∈ inputs body) (hlt : missing < later) : inputs body ≠ Set.Iio k := by
  intro heq
  rw [heq, Set.mem_Iio] at h hlater
  omega

theorem Counted.unique {body : List Symbol} {r r' : Except FormulaError Nat}
    (h : Counted body r) (h' : Counted body r') : r = r' := by
  cases h with
  | dense hk =>
    cases h' with
    | dense hk' => rw [Set.Iio_injective (hk.symm.trans hk')]
    | gap hleast hlater hlt => exact absurd hk (inputs_ne_of_gap hleast.1 hlater hlt)
  | gap hleast hlater hlt =>
    cases h' with
    | dense hk' => exact absurd hk' (inputs_ne_of_gap hleast.1 hlater hlt)
    | gap hleast' _ _ => rw [hleast.unique hleast']

theorem counted_gap {body : List Symbol} {missing : Nat} (hmissing : missing ∉ inputs body)
    (hbefore : ∀ i < missing, i ∈ inputs body) (hne : inputs body ≠ Set.Iio missing) :
    Counted body (.error (.variableGap missing)) := by
  have hleast : IsLeast (inputs body)ᶜ missing := by
    refine ⟨hmissing, ?_⟩
    intro i hi
    by_contra hlt
    exact hi (hbefore i (by omega))
  obtain ⟨later, hlater, hle⟩ : ∃ i ∈ inputs body, missing ≤ i := by
    by_contra hnone
    push Not at hnone
    exact hne (Set.Subset.antisymm hnone hbefore)
  have hlt : missing < later := Nat.lt_of_le_of_ne hle fun heq => hmissing (heq ▸ hlater)
  exact .gap hleast hlater hlt

theorem counted_countVariables (body : List Symbol) : Counted body (countVariables body) := by
  have hbits : ∀ i, (inputMask body).testBit i = true ↔ i ∈ inputs body := testBit_inputMask body
  obtain ⟨hfirst, hbefore⟩ := trailingOnes_spec (inputMask body)
  cases hcount : countVariables body with
  | ok k =>
    apply Counted.dense
    ext i
    exact (lt_iff_of_countVariables hcount i).symm
  | error e =>
    have hgap : e = .variableGap (trailingOnes (inputMask body)) := by
      unfold countVariables at hcount
      simp only at hcount
      split at hcount
      · simp at hcount
      · exact (Except.error.inj hcount).symm
    subst hgap
    apply counted_gap
    · rw [← hbits, hfirst]
      simp
    · exact fun i hi => (hbits i).mp (hbefore i hi)
    · intro heq
      have hok : countVariables body = .ok (trailingOnes (inputMask body)) :=
        countVariables_eq_ok_iff.mpr fun i => (Set.ext_iff.mp heq i).symm
      rw [hok] at hcount
      simp at hcount

theorem inputWord_eq_lowOnes_iff {body : List Symbol} {k : Nat} (h : k ≤ maxVariables) :
    inputWord body = lowOnes k ↔ inputs body = Set.Iio k := by
  constructor
  · intro heq
    ext i
    rw [← getLsbD_inputWord, heq, getLsbD_lowOnes h, decide_eq_true_iff, Set.mem_Iio]
  · intro heq
    apply BitVec.eq_of_getLsbD_eq
    intro i _
    rw [Bool.eq_iff_iff, getLsbD_inputWord, heq, getLsbD_lowOnes h, decide_eq_true_iff, Set.mem_Iio]

theorem counted_countInWord (body : List Symbol) : Counted body (countInWord body) := by
  have hcpop : (inputWord body).cpop.toNat ≤ maxVariables := BitVec.toNat_cpop_le _
  unfold countInWord
  dsimp only
  split
  · rename_i hdense
    exact .dense ((inputWord_eq_lowOnes_iff hcpop).mp hdense)
  · rename_i hgap
    -- With no number of ones is the word dense: the number would be that of its ones.
    have hne : ∀ k ≤ maxVariables, inputWord body ≠ lowOnes k := by
      intro k hk heq
      have hcount : (inputWord body).cpop.toNat = k := by rw [heq, cpop_lowOnes hk]
      exact hgap (by rw [hcount, heq])
    have hzero : ~~~inputWord body ≠ 0#64 := by
      intro hnot
      have hfull : inputWord body = BitVec.allOnes 64 := by
        rw [← BitVec.not_not (b := inputWord body), hnot, BitVec.not_zero]
      exact hne maxVariables le_rfl hfull
    have hfirst := BitVec.getLsbD_true_ctz_of_ne_zero hzero
    have hlt : (~~~inputWord body).ctz.toNat < 64 := BitVec.lt_of_getLsbD hfirst
    rw [BitVec.getLsbD_not, Bool.and_eq_true, Bool.not_eq_true'] at hfirst
    apply counted_gap
    · rw [← getLsbD_inputWord, hfirst.2]
      simp
    · intro i hi
      have hclear := BitVec.getLsbD_false_of_lt_ctz hi
      rw [BitVec.getLsbD_not] at hclear
      rw [← getLsbD_inputWord]
      simpa [Nat.lt_trans hi hlt] using hclear
    · exact fun heq => hne _ hlt.le ((inputWord_eq_lowOnes_iff hlt.le).mpr heq)

/-- Counting the inputs gives their number exactly if they are the first ones, and else the least
input that is missing. To count the ones of a word of 64 bits comes to the same. -/
theorem countVariables_exact (body : List Symbol) :
    (∀ k, countVariables body = .ok k ↔ inputs body = Set.Iio k) ∧
      (∀ e, countVariables body = .error e ↔
        ∃ missing, e = .variableGap missing ∧ IsLeast (inputs body)ᶜ missing ∧
          ∃ later ∈ inputs body, missing < later) ∧
      countInWord body = countVariables body := by
  have hcounted := counted_countVariables body
  refine ⟨fun k => ⟨?_, ?_⟩, fun e => ⟨?_, ?_⟩, (counted_countInWord body).unique hcounted⟩
  · intro hk
    rw [hk] at hcounted
    cases hcounted with
    | dense hdense => exact hdense
  · exact fun hdense => hcounted.unique (.dense hdense)
  · intro he
    rw [he] at hcounted
    cases hcounted with
    | gap hleast hlater hlt => exact ⟨_, rfl, hleast, _, hlater, hlt⟩
  · rintro ⟨missing, rfl, hleast, later, hlater, hlt⟩
    exact hcounted.unique (.gap hleast hlater hlt)

example : countInWord ((List.range 64).map .x ++ [.var (.synthetic 0)]) = .ok 64 := by
  decide +kernel

end LawProof.Body
