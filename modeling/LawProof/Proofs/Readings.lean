import LawProof.Proofs.Meaning
import LawProof.Proofs.Trees

/-!
# What the stack machine reads

The syntax check counts how many values there are on the stack, and the evaluation keeps the values
themselves. Wherever the evaluation comes through, the count is the height of its stack, so both
accept the same bodies: the texts of trees. The value is then the one that the tree has node by
node.
-/

namespace LawProof

open Body (varsOf stack under)

/-! ## Values of trees -/

def Connective.value : Connective → Bool → Bool → Bool
  | .disj => or
  | .conj => and

def Tree.value (ρ : Var → Bool) : Tree Var → Bool
  | .const c => c
  | .leaf v => ρ v
  | .neg a => !a.value ρ
  | .binary op a b => op.value (a.value ρ) (b.value ρ)

namespace Body

theorem stack_text (ρ : Var → Bool) (t : Tree Var) :
    stack (under ρ) t.text = some [t.value ρ] := by
  induction t with
  | const c => cases c <;> rfl
  | leaf v => rfl
  | neg a ih =>
    rw [Tree.text_neg, stack, ih]
    rfl
  | binary op a b iha ihb =>
    rw [Tree.text_binary, stack, stack_append iha, ihb]
    cases op <;> rfl

theorem evaluate_text {a : Tree Var} (h : ∀ v ∈ varsOf a.text, v.isSynthetic = false) (bits : Nat) :
    evaluate a.text bits = some (a.value fun v => bits.testBit v.id) := by
  rw [evaluate_eq_under h, value?_eq_some_iff]
  exact stack_text ..

/-! ## What an evaluation has read -/

theorem push_eq_some {lookup : Var → Option Bool} {s : Symbol} {st st' : List Bool}
    (h : push lookup s st = some st') :
    (∃ k, s.arity? = some k ∧ k ≤ st.length ∧ st'.length = st.length - k + 1) ∧
      ∀ v, s = .var v → (lookup v).isSome = true := by
  cases s with
  | stop => simp [push] at h
  | neg =>
    cases st with
    | nil => simp [push] at h
    | cons a st =>
      obtain rfl := Option.some.inj h
      exact ⟨⟨1, rfl, by simp, by simp⟩, by simp⟩
  | disj | conj =>
    rcases st with - | ⟨a, - | ⟨b, st⟩⟩
    · simp [push] at h
    · simp [push] at h
    · obtain rfl := Option.some.inj h
      exact ⟨⟨2, rfl, by simp, by simp⟩, by simp⟩
  | fls | tru =>
    obtain rfl := Option.some.inj h
    exact ⟨⟨0, rfl, by simp, by simp⟩, by simp⟩
  | var v =>
    obtain ⟨a, ha, rfl⟩ := Option.map_eq_some_iff.mp h
    refine ⟨⟨0, rfl, by simp, by simp⟩, ?_⟩
    rintro w ⟨⟩
    rw [ha]
    rfl

theorem depth_of_stack {lookup : Var → Option Bool} {body : List Symbol} {st : List Bool}
    (h : stack lookup body = some st) (position : Nat) : depth position body = .ok st.length := by
  induction body generalizing st position with
  | nil =>
    obtain rfl := Option.some.inj h
    rfl
  | cons s body ih =>
    obtain ⟨below, hbelow, hpush⟩ := Option.bind_eq_some_iff.mp h
    obtain ⟨⟨k, hk, hle, hlength⟩, -⟩ := push_eq_some hpush
    unfold depth
    rw [ih hbelow]
    simp only [hk]
    rw [if_neg (by omega), hlength]

theorem isSome_of_stack {lookup : Var → Option Bool} {body : List Symbol} {st : List Bool}
    (h : stack lookup body = some st) {v : Var} (hv : .var v ∈ body) :
    (lookup v).isSome = true := by
  induction body generalizing st with
  | nil => simp at hv
  | cons s body ih =>
    obtain ⟨below, hbelow, hpush⟩ := Option.bind_eq_some_iff.mp h
    rcases List.mem_cons.mp hv with heq | hv
    · exact (push_eq_some hpush).2 v heq.symm
    · exact ih hbelow hv

theorem exists_tree_of_value? {lookup : Var → Option Bool} {body : List Symbol} {a : Bool}
    (h : value? lookup body = some a) :
    ∃ t : Tree Var, t.text = body ∧ ∀ v ∈ t.leaves, (lookup v).isSome = true := by
  have hstack := value?_eq_some_iff.mp h
  have hsyntax : checkSyntax body = .ok () := by
    unfold checkSyntax
    rw [depth_of_stack hstack]
    rfl
  obtain ⟨t, rfl⟩ := checkSyntax_eq_ok_iff.mp hsyntax
  refine ⟨t, rfl, ?_⟩
  intro v hv
  rw [← Tree.varsOf_text] at hv
  exact isSome_of_stack hstack (mem_varsOf.mp hv)

/-! ## The bodies with a value -/

theorem isValid_iff {body : List Symbol} : isValid body = true ↔ ∃ t : Tree Var, t.text = body := by
  rw [← checkSyntax_eq_ok_iff]
  unfold isValid
  cases checkSyntax body <;> simp [Except.isOk, Except.toBool]

theorem evaluate_eq_some_iff {body : List Symbol} {bits : Nat} {a : Bool} :
    evaluate body bits = some a ↔
      ∃ t : Tree Var, t.text = body ∧ (∀ v ∈ t.leaves, v.isSynthetic = false) ∧
        t.value (fun v => bits.testBit v.id) = a := by
  constructor
  · intro h
    obtain ⟨t, rfl, hleaves⟩ := exists_tree_of_value? h
    have hinputs : ∀ v ∈ t.leaves, v.isSynthetic = false := by
      intro v hv
      have hbit := hleaves v hv
      unfold Var.bit? at hbit
      split at hbit
      · simp at hbit
      · rename_i hsynthetic
        exact Bool.eq_false_iff.mpr hsynthetic
    rw [evaluate_text (by rwa [Tree.varsOf_text]), Option.some.injEq] at h
    exact ⟨t, rfl, hinputs, h⟩
  · rintro ⟨t, rfl, hinputs, rfl⟩
    exact evaluate_text (by rwa [Tree.varsOf_text]) bits

/-- A body is valid exactly if it is the text of a tree, which is then the only one. It has a value
exactly if that tree has no synthetic variable. -/
theorem isValid_and_evaluate_iff_tree (body : List Symbol) :
    (isValid body = true ↔ ∃ t : Tree Var, t.text = body) ∧
      (∀ t u : Tree Var, t.text = body → u.text = body → t = u) ∧
      ∀ bits,
        (∀ a, evaluate body bits = some a ↔
          ∃ t : Tree Var, t.text = body ∧ (∀ v ∈ t.leaves, v.isSynthetic = false) ∧
            t.value (fun v => bits.testBit v.id) = a) ∧
        (evaluate body bits = none ↔
          ∀ t : Tree Var, t.text = body → ∃ v ∈ t.leaves, v.isSynthetic = true) := by
  refine ⟨isValid_iff, ?_, ?_⟩
  · intro t u ht hu
    exact Tree.text_inj (ht.trans hu.symm)
  · intro bits
    refine ⟨fun a => evaluate_eq_some_iff, ?_⟩
    rw [Option.eq_none_iff_forall_ne_some]
    simp only [ne_eq, evaluate_eq_some_iff]
    constructor
    · intro h t ht
      cases hany : t.leaves.any Var.isSynthetic with
      | true => exact List.any_eq_true.mp hany
      | false =>
        have hinputs := List.any_eq_false.mp hany
        exact absurd ⟨t, ht, fun v hv => Bool.eq_false_iff.mpr (hinputs v hv), rfl⟩ (h _)
    · rintro h a ⟨t, ht, hinputs, -⟩
      obtain ⟨v, hv, hsynthetic⟩ := h t ht
      rw [hinputs v hv] at hsynthetic
      simp at hsynthetic

end Body

end LawProof
