import LawProof.Proofs.Edits
import LawProof.Proofs.Occurrences

/-!
# Values of bodies

What a stack holds once a body has been read depends on its parts only through their values. The two
sides of every rule have the same value, whatever stands in the slots.
-/

namespace LawProof

open Body (varsOf stack push)

/-! ## Stacks -/

namespace Body

theorem push_append {lookup : Var → Option Bool} {s : Symbol} {st st' : List Bool}
    (h : push lookup s st = some st') (below : List Bool) :
    push lookup s (st ++ below) = some (st' ++ below) := by
  cases s with
  | stop => simp [push] at h
  | neg =>
    match st with
    | [] => simp [push] at h
    | a :: st =>
      simp only [push, Option.some.injEq] at h
      subst h
      rfl
  | disj | conj =>
    match st with
    | [] | [_] => simp [push] at h
    | a :: b :: st =>
      simp only [push, Option.some.injEq] at h
      subst h
      rfl
  | fls | tru =>
    simp only [push, Option.some.injEq] at h
    subst h
    rfl
  | var v =>
    simp only [push, Option.map_eq_some_iff] at h ⊢
    obtain ⟨a, ha, rfl⟩ := h
    exact ⟨a, ha, rfl⟩

theorem stack_append {lookup : Var → Option Bool} {xs : List Symbol} {st : List Bool}
    (h : stack lookup xs = some st) (ys : List Symbol) :
    stack lookup (xs ++ ys) = (stack lookup ys).map (st ++ ·) := by
  induction xs generalizing st with
  | nil =>
    simp only [stack, Option.some.injEq] at h
    subst h
    simp
  | cons s xs ih =>
    simp only [stack, Option.bind_eq_some_iff] at h
    obtain ⟨st', hst', hpush⟩ := h
    rw [List.cons_append, stack, ih hst']
    cases stack lookup ys with
    | none => rfl
    | some below => exact push_append hpush below

theorem stack_congr_right {lookup : Var → Option Bool} {ys zs : List Symbol}
    (h : stack lookup ys = stack lookup zs) (xs : List Symbol) :
    stack lookup (xs ++ ys) = stack lookup (xs ++ zs) := by
  induction xs with
  | nil => exact h
  | cons s xs ih => rw [List.cons_append, List.cons_append, stack, stack, ih]

theorem stack_replace {lookup : Var → Option Bool} {old new : List Symbol} {st : List Bool}
    (hold : stack lookup old = some st) (hnew : stack lookup new = some st)
    (front rest : List Symbol) :
    stack lookup (front ++ old ++ rest) = stack lookup (front ++ new ++ rest) := by
  rw [List.append_assoc, List.append_assoc]
  apply stack_congr_right
  rw [stack_append hold, stack_append hnew]

theorem stack_congr {lookup lookup' : Var → Option Bool} {body : List Symbol}
    (h : ∀ v ∈ varsOf body, lookup v = lookup' v) : stack lookup body = stack lookup' body := by
  induction body with
  | nil => rfl
  | cons s body ih =>
    rw [← List.singleton_append, varsOf_append] at h
    rw [stack, stack, ih fun v hv => h v (List.mem_append_right _ hv)]
    congr 1
    funext st
    cases s with
    | var v =>
      have hv : lookup v = lookup' v := h v (List.mem_append_left _ List.mem_cons_self)
      simp only [push, hv]
    | neg => cases st <;> rfl
    | disj | conj =>
      match st with
      | [] | [_] | _ :: _ :: _ => rfl
    | _ => rfl

theorem value?_eq_some_iff {lookup : Var → Option Bool} {body : List Symbol} {a : Bool} :
    value? lookup body = some a ↔ stack lookup body = some [a] := by
  unfold value?
  split
  · rename_i b hb
    rw [hb]
    simp
  · rename_i hne
    constructor
    · simp
    · intro h
      exact absurd h (hne a)

/-- Every variable has a value. -/
def under (ρ : Var → Bool) (v : Var) : Option Bool := some (ρ v)

theorem push_of_arity? (ρ : Var → Bool) {s : Symbol} {k : Nat} {st : List Bool}
    (hs : s.arity? = some k) (hk : k ≤ st.length) :
    ∃ a, push (under ρ) s st = some (a :: st.drop k) := by
  cases s with
  | stop => simp [Symbol.arity?] at hs
  | neg =>
    obtain rfl : 1 = k := Option.some.inj hs
    match st, hk with
    | a :: st, _ => exact ⟨!a, rfl⟩
  | disj =>
    obtain rfl : 2 = k := Option.some.inj hs
    match st, hk with
    | a :: b :: st, _ => exact ⟨a || b, rfl⟩
  | conj =>
    obtain rfl : 2 = k := Option.some.inj hs
    match st, hk with
    | a :: b :: st, _ => exact ⟨a && b, rfl⟩
  | fls | tru | var v =>
    obtain rfl : 0 = k := Option.some.inj hs
    exact ⟨_, rfl⟩

theorem stack_of_depth (ρ : Var → Bool) {position n : Nat} {body : List Symbol}
    (h : depth position body = .ok n) : ∃ st, stack (under ρ) body = some st ∧ st.length = n := by
  induction body generalizing position n with
  | nil =>
    simp only [depth, Except.ok.injEq] at h
    exact ⟨[], rfl, h⟩
  | cons s body ih =>
    simp only [depth] at h
    split at h
    · simp at h
    · rename_i d hd
      obtain ⟨st, hst, hlen⟩ := ih hd
      split at h
      · simp at h
      · rename_i k hk
        split at h
        · simp at h
        · rename_i hle
          obtain ⟨a, ha⟩ := push_of_arity? ρ hk (by omega : k ≤ st.length)
          refine ⟨a :: st.drop k, ?_, ?_⟩
          · rw [stack, hst]
            exact ha
          · rw [Except.ok.injEq] at h
            rw [List.length_cons, List.length_drop, hlen, h]

theorem value?_of_checkSyntax (ρ : Var → Bool) {body : List Symbol}
    (h : checkSyntax body = .ok ()) : ∃ a, value? (under ρ) body = some a := by
  unfold checkSyntax at h
  split at h
  · simp at h
  · simp at h
  · rename_i hd
    obtain ⟨st, hst, hlen⟩ := stack_of_depth ρ hd
    obtain ⟨a, rfl⟩ := List.length_eq_one_iff.mp hlen
    exact ⟨a, value?_eq_some_iff.mpr hst⟩
  · simp at h

end Body

/-! ## Operands and definitions -/

/-- The value of an operand. -/
def Symbol.valueIn (ρ : Var → Bool) : Symbol → Bool
  | .tru => true
  | .var v => ρ v
  | _ => false

def Definition.valueIn (ρ : Var → Bool) : Definition → Bool
  | .neg a => !a.valueIn ρ
  | .disj a b => a.valueIn ρ || b.valueIn ρ
  | .conj a b => a.valueIn ρ && b.valueIn ρ

open Body (under)

theorem Body.push_operand {s : Symbol} (hs : s.isOperand = true) (ρ : Var → Bool) (st : List Bool) :
    push (under ρ) s st = some (s.valueIn ρ :: st) := by
  cases s with
  | fls | tru | var v => rfl
  | _ => simp [Symbol.isOperand] at hs

theorem Body.stack_symbols {d : Definition} (hd : ∀ s ∈ d.operands, s.isOperand = true)
    (ρ : Var → Bool) : stack (under ρ) d.symbols = some [d.valueIn ρ] := by
  cases d with
  | neg a =>
    have ha := hd a List.mem_cons_self
    show (push (under ρ) a []).bind (push (under ρ) .neg) = _
    rw [push_operand ha]
    rfl
  | disj a b | conj a b =>
    have ha := hd a List.mem_cons_self
    have hb := hd b (List.mem_cons_of_mem _ List.mem_cons_self)
    show ((push (under ρ) b []).bind (push (under ρ) a)).bind _ = _
    rw [push_operand hb, Option.bind_some, push_operand ha]
    rfl

theorem Definition.valueIn_congr {d : Definition} {ρ ρ' : Var → Bool}
    (h : ∀ v ∈ varsOf d.operands, ρ v = ρ' v) : d.valueIn ρ = d.valueIn ρ' := by
  have hs : ∀ s ∈ d.operands, s.valueIn ρ = s.valueIn ρ' := by
    intro s hs
    cases s with
    | var v => exact h v (Body.mem_varsOf.mpr hs)
    | _ => rfl
  cases d <;> simp_all [valueIn, operands]

/-! ## Rules -/

/-- Constants for the operands. -/
def Filling.ofValues (a b c : Bool) : Filling :=
  ⟨some (.constant a), some (.constant b), some (.constant c)⟩

/-- Both sides of the rule have a value, and the same one, whatever the values of the operands. -/
def Rule.Valid (r : Rule) : Prop :=
  ∀ a b c : Bool, ∃ v : Bool,
    Body.evaluate (r.source.map (Filling.ofValues a b c).fill) 0 = some v ∧
      Body.evaluate (r.target.map (Filling.ofValues a b c).fill) 0 = some v

instance (r : Rule) : Decidable r.Valid := by
  unfold Rule.Valid
  infer_instance

theorem Law.valid_of_mem_rules {law : Law} {r : Rule} (h : r ∈ law.rules) : r.Valid := by
  have hall : ∀ r ∈ law.rules, r.Valid := by
    cases law <;> decide
  exact hall r h

namespace Filling

/-- The operands of a filling with their values in their places. -/
def valuesIn (σ : Filling) (ρ : Var → Bool) : Filling :=
  ofValues ((σ.fill (.slot .a)).valueIn ρ) ((σ.fill (.slot .b)).valueIn ρ)
    ((σ.fill (.slot .c)).valueIn ρ)

theorem isOperand_fill_slot {σ : Filling} (h : ∀ x s, σ.get? x = some s → s.isOperand = true)
    (x : Slot) : (σ.fill (.slot x)).isOperand = true := by
  cases hx : σ.get? x with
  | none =>
    simp only [fill, hx]
    rfl
  | some s =>
    rw [fill_slot hx]
    exact h x s hx

theorem push_valuesIn (σ : Filling) (ρ : Var → Bool) (x : Slot) (st : List Bool) :
    push (under ρ) ((σ.valuesIn ρ).fill (.slot x)) st =
      some ((σ.fill (.slot x)).valueIn ρ :: st) := by
  have hconst : ∀ a, push (under ρ) (.constant a) st = some (a :: st) := by
    intro a
    cases a <;> rfl
  cases x <;> exact hconst _

theorem stack_map_fill {σ : Filling} (h : ∀ x s, σ.get? x = some s → s.isOperand = true)
    (ρ : Var → Bool) (pieces : List Piece) :
    stack (under ρ) (pieces.map σ.fill) = stack (under ρ) (pieces.map (σ.valuesIn ρ).fill) := by
  induction pieces with
  | nil => rfl
  | cons p pieces ih =>
    rw [List.map_cons, List.map_cons, stack, stack, ih]
    congr 1
    funext st
    cases p with
    | sym s => rfl
    | slot x => rw [Body.push_operand (isOperand_fill_slot h x), push_valuesIn]

theorem varsOf_map_valuesIn {pieces : List Piece} (h : ∀ s, .sym s ∈ pieces → s.var? = none)
    (σ : Filling) (ρ : Var → Bool) : varsOf (pieces.map (σ.valuesIn ρ).fill) = [] := by
  rw [varsOf, List.filterMap_eq_nil_iff]
  intro s hs
  obtain ⟨p, hp, rfl⟩ := List.mem_map.mp hs
  have hconst : ∀ a, (Symbol.constant a).var? = none := by decide
  cases p with
  | sym s => exact h s hp
  | slot x => cases x <;> exact hconst _

end Filling

theorem Rule.Valid.stack_eq {r : Rule} (hr : r.Valid) (hsafe : r.isSafe = true) {σ : Filling}
    (hσ : ∀ x s, σ.get? x = some s → s.isOperand = true) (ρ : Var → Bool) :
    ∃ a, stack (under ρ) (r.source.map σ.fill) = some [a] ∧
      stack (under ρ) (r.target.map σ.fill) = some [a] := by
  obtain ⟨a, hsource, htarget⟩ := hr ((σ.fill (.slot .a)).valueIn ρ) ((σ.fill (.slot .b)).valueIn ρ)
    ((σ.fill (.slot .c)).valueIn ρ)
  -- With constants for the operands there is no variable left to look up.
  have hbridge : ∀ pieces : List Piece, (∀ s, .sym s ∈ pieces → s.var? = none) →
      Body.evaluate (pieces.map (σ.valuesIn ρ).fill) 0 = some a →
      stack (under ρ) (pieces.map σ.fill) = some [a] := by
    intro pieces hpieces heval
    rw [Filling.stack_map_fill hσ, ← Body.value?_eq_some_iff.mp heval]
    apply Body.stack_congr
    intro v hv
    rw [Filling.varsOf_map_valuesIn hpieces] at hv
    simp at hv
  refine ⟨a, hbridge r.source ?_ hsource, hbridge r.target ?_ htarget⟩
  · exact fun s hs => var?_of_sym_mem hsafe (List.mem_append_left _ hs)
  · exact fun s hs => var?_of_sym_mem hsafe (List.mem_append_right _ hs)

end LawProof
