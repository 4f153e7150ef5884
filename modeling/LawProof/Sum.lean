/-!
# Sums over lists
-/

namespace LawProof

/-- The sum of a measure over a list. -/
def sumOf {α : Type} (f : α → Nat) : List α → Nat
  | [] => 0
  | a :: l => f a + sumOf f l

@[simp]
theorem sumOf_nil {α : Type} (f : α → Nat) : sumOf f [] = 0 := rfl

@[simp]
theorem sumOf_cons {α : Type} (f : α → Nat) (a : α) (l : List α) :
    sumOf f (a :: l) = f a + sumOf f l := rfl

theorem sumOf_append {α : Type} (f : α → Nat) (l l' : List α) :
    sumOf f (l ++ l') = sumOf f l + sumOf f l' := by
  induction l with
  | nil => simp
  | cons a l ih => simp [ih, Nat.add_assoc]

theorem sumOf_map {α β : Type} (f : β → Nat) (g : α → β) (l : List α) :
    sumOf f (l.map g) = sumOf (fun a => f (g a)) l := by
  induction l with
  | nil => rfl
  | cons a l ih => simp [ih]

theorem sumOf_one {α : Type} (l : List α) : sumOf (fun _ => 1) l = l.length := by
  induction l with
  | nil => rfl
  | cons a l ih => rw [sumOf_cons, ih, List.length_cons, Nat.add_comm]

theorem sumOf_congr {α : Type} {f g : α → Nat} {l : List α} (h : ∀ a ∈ l, f a = g a) :
    sumOf f l = sumOf g l := by
  induction l with
  | nil => rfl
  | cons a l ih =>
    rw [sumOf_cons, sumOf_cons, h a List.mem_cons_self,
      ih fun b hb => h b (List.mem_cons_of_mem a hb)]

theorem sumOf_eq_zero_iff {α : Type} (f : α → Nat) (l : List α) :
    sumOf f l = 0 ↔ ∀ a ∈ l, f a = 0 := by
  induction l with
  | nil => simp
  | cons a l ih => simp [ih]

theorem sumOf_replicate {α : Type} (f : α → Nat) (n : Nat) (a : α) :
    sumOf f (List.replicate n a) = n * f a := by
  induction n with
  | zero => simp
  | succ n ih => rw [List.replicate_succ, sumOf_cons, ih, Nat.succ_mul, Nat.add_comm]

theorem sumOf_perm {α : Type} (f : α → Nat) {l l' : List α} (h : l.Perm l') :
    sumOf f l = sumOf f l' := by
  induction h with
  | nil => rfl
  | cons a _ ih => simp [ih]
  | swap a b l =>
    simp only [sumOf_cons]
    omega
  | trans _ _ ih₁ ih₂ => exact ih₁.trans ih₂

theorem sumOf_set {α : Type} (f : α → Nat) {l : List α} {i : Nat} {a : α} (b : α)
    (h : l[i]? = some a) : sumOf f (l.set i b) + f a = sumOf f l + f b := by
  induction l generalizing i with
  | nil => simp at h
  | cons x xs ih =>
    cases i with
    | zero =>
      simp only [List.getElem?_cons_zero, Option.some.injEq] at h
      subst h
      simp only [List.set_cons_zero, sumOf_cons]
      omega
    | succ i =>
      simp only [List.getElem?_cons_succ] at h
      have := ih h
      simp only [List.set_cons_succ, sumOf_cons]
      omega

end LawProof
