import LawProof.Proofs.Tracking

/-!
# The two checks of a table

The consistency check counts all occurrences in a body afresh and compares lists. It succeeds
exactly when the table has the right count for every variable. A table that tracks a body passes
this check and the check that definitions are well founded.
-/

namespace LawProof

namespace Bindings

open Body (varsOf)

/-! ## Lists of counts -/

/-- The count of a variable in a list of counts. -/
def tallied (v : Var) : List (Var × Nat) → Nat
  | [] => 0
  | (w, n) :: rest => if w = v then n else tallied v rest

/-- A list of counts in the order of the ids, with no count of zero. -/
structure Counts (l : List (Var × Nat)) : Prop where
  ordered : l.Pairwise fun e e' => e.1.id < e'.1.id
  positive : ∀ e ∈ l, 0 < e.2

theorem Counts.tail {e : Var × Nat} {l : List (Var × Nat)} (h : Counts (e :: l)) : Counts l :=
  ⟨h.ordered.of_cons, fun f hf => h.positive f (List.mem_cons_of_mem _ hf)⟩

theorem Counts.head_lt {e f : Var × Nat} {l : List (Var × Nat)} (h : Counts (e :: l))
    (hf : f ∈ l) : e.1.id < f.1.id := (List.pairwise_cons.mp h.ordered).1 f hf

theorem tallied_eq_zero {v : Var} {l : List (Var × Nat)} (h : ∀ e ∈ l, e.1 ≠ v) :
    tallied v l = 0 := by
  induction l with
  | nil => rfl
  | cons e rest ih =>
    unfold tallied
    rw [if_neg (h e List.mem_cons_self)]
    exact ih fun f hf => h f (List.mem_cons_of_mem _ hf)

theorem Counts.mem_iff {v : Var} {n : Nat} {l : List (Var × Nat)} (h : Counts l) :
    (v, n) ∈ l ↔ 0 < n ∧ tallied v l = n := by
  induction l with
  | nil =>
    simp only [List.not_mem_nil, tallied, false_iff]
    omega
  | cons e rest ih =>
    obtain ⟨w, m⟩ := e
    have hm : 0 < m := h.positive _ List.mem_cons_self
    simp only [List.mem_cons, Prod.mk.injEq, ih h.tail, tallied]
    by_cases hw : w = v
    · subst hw
      have hrest : tallied w rest = 0 :=
        tallied_eq_zero fun f hf heq => Nat.lt_irrefl _ (heq ▸ h.head_lt hf)
      rw [hrest, if_pos rfl]
      simp only [true_and]
      omega
    · rw [if_neg hw]
      simp [Ne.symm hw]

theorem Counts.ext {l l' : List (Var × Nat)} (h : Counts l) (h' : Counts l')
    (heq : ∀ v, tallied v l = tallied v l') : l = l' := by
  apply eq_of_ordered h.ordered h'.ordered
  rintro ⟨v, n⟩
  rw [h.mem_iff, h'.mem_iff, heq]

theorem mem_tally {v : Var} {e : Var × Nat} {l : List (Var × Nat)} (h : e ∈ tally v l) :
    (e.1 = v ∧ 0 < e.2) ∨ e ∈ l := by
  induction l with
  | nil =>
    rw [List.mem_singleton.mp h]
    exact Or.inl ⟨rfl, Nat.one_pos⟩
  | cons f rest ih =>
    obtain ⟨w, n⟩ := f
    unfold tally at h
    split at h
    · rename_i hw
      rcases List.mem_cons.mp h with rfl | h
      · exact Or.inl ⟨hw, Nat.succ_pos n⟩
      · exact Or.inr (List.mem_cons_of_mem _ h)
    · split at h
      · rcases List.mem_cons.mp h with rfl | h
        · exact Or.inl ⟨rfl, Nat.one_pos⟩
        · exact Or.inr h
      · rcases List.mem_cons.mp h with rfl | h
        · exact Or.inr List.mem_cons_self
        · exact (ih h).imp_right (List.mem_cons_of_mem _)

theorem Counts.tally {l : List (Var × Nat)} (h : Counts l) (v : Var) : Counts (tally v l) := by
  refine ⟨?_, ?_⟩
  · induction l with
    | nil => exact List.pairwise_singleton _ _
    | cons e rest ih =>
      obtain ⟨w, n⟩ := e
      unfold Bindings.tally
      split
      · exact List.pairwise_cons.mpr ⟨fun f hf => h.head_lt hf, h.tail.ordered⟩
      · rename_i hw
        split
        · rename_i hlt
          refine List.pairwise_cons.mpr ⟨?_, h.ordered⟩
          intro f hf
          rcases List.mem_cons.mp hf with rfl | hf
          · exact hlt
          · exact Nat.lt_trans hlt (h.head_lt hf)
        · rename_i hlt
          refine List.pairwise_cons.mpr ⟨?_, ih h.tail⟩
          intro f hf
          rcases mem_tally hf with ⟨hfv, -⟩ | hf
          · have : w.id ≠ v.id := fun hid => hw (Var.eq_of_id_eq hid)
            rw [hfv]
            show w.id < v.id
            omega
          · exact h.head_lt hf
  · intro e he
    rcases mem_tally he with ⟨-, hpos⟩ | he
    · exact hpos
    · exact h.positive e he

theorem Counts.tallied_tally {l : List (Var × Nat)} (h : Counts l) (v w : Var) :
    tallied w (Bindings.tally v l) = tallied w l + [v].count w := by
  rw [List.count_singleton]
  induction l with
  | nil => by_cases hw : v = w <;> simp [Bindings.tally, tallied, hw]
  | cons e rest ih =>
    obtain ⟨u, n⟩ := e
    unfold Bindings.tally
    split
    · rename_i hu
      subst hu
      by_cases hw : u = w <;> simp [tallied, hw]
    · rename_i hu
      split
      · rename_i hlt
        -- Where `v` is put in front it had no count before.
        by_cases hw : v = w
        · subst hw
          have hzero : tallied v ((u, n) :: rest) = 0 := by
            apply tallied_eq_zero
            intro f hf heq
            rcases List.mem_cons.mp hf with rfl | hf
            · exact hu heq
            · have := h.head_lt hf
              rw [heq] at this
              simp only at this
              omega
          rw [hzero]
          simp [tallied]
        · simp [tallied, hw]
      · have := ih h.tail
        simp only [tallied]
        by_cases hw : u = w
        · subst hw
          simp [Ne.symm hu]
        · simp only [hw, if_false]
          exact this

theorem counts_foldl_tally (vs : List Var) {l : List (Var × Nat)} (h : Counts l) :
    Counts (vs.foldl (fun counts v => tally v counts) l) ∧
      ∀ w, tallied w (vs.foldl (fun counts v => tally v counts) l) = tallied w l + vs.count w := by
  induction vs generalizing l with
  | nil => exact ⟨h, fun w => rfl⟩
  | cons v vs ih =>
    obtain ⟨hcounts, htallied⟩ := ih (h.tally v)
    refine ⟨hcounts, fun w => ?_⟩
    rw [List.foldl_cons, htallied, h.tallied_tally, Nat.add_assoc, ← List.count_append,
      List.singleton_append]

/-! ## Consistency -/

theorem counts_counts {t : Bindings} (ho : Ordered t.entries)
    (hp : ∀ v b, t.get? v = some b → 0 < b.count) : Counts t.counts := by
  refine ⟨?_, ?_⟩
  · exact List.Pairwise.map _ (fun _ _ hlt => hlt) ho
  · intro e he
    obtain ⟨⟨v, b⟩, hvb, rfl⟩ := List.mem_map.mp he
    exact hp v b ((mem_entries_iff ho).mp hvb)

theorem tallied_counts (t : Bindings) (v : Var) : tallied v t.counts = t.total v := by
  rw [total_eq]
  unfold counts get?
  induction t.entries with
  | nil => rfl
  | cons e rest ih =>
    obtain ⟨w, b⟩ := e
    simp only [List.map_cons, tallied, lookup]
    split
    · rfl
    · exact ih

theorem isConsistentWith_iff {t : Bindings} {body : List Symbol} (ho : Ordered t.entries)
    (hp : ∀ v b, t.get? v = some b → 0 < b.count) :
    t.isConsistentWith body = true ↔ ∀ v, t.total v = (t.occurrences body).count v := by
  unfold isConsistentWith
  rw [beq_iff_eq]
  have hnil : Counts [] := ⟨.nil, by simp⟩
  obtain ⟨hcounts, htallied⟩ := counts_foldl_tally (t.occurrences body) hnil
  constructor
  · intro heq v
    rw [← tallied_counts, heq, htallied]
    exact Nat.zero_add _
  · intro heq
    apply (counts_counts ho hp).ext hcounts
    intro v
    rw [tallied_counts, heq, htallied]
    exact (Nat.zero_add _).symm

namespace Tracks

variable {t : Bindings} {body : List Symbol}

theorem isConsistentWith (h : Tracks t (varsOf body)) : t.isConsistentWith body = true := by
  rw [isConsistentWith_iff h.ordered h.positive]
  obtain ⟨vs, hvs, hcount⟩ := h.counted
  rw [occurrences_eq_spell, (spelled_chainBound h.descends _).unique hvs]
  exact hcount

theorem isWellFounded {xs : List Var} (h : Tracks t xs) : t.isWellFounded = true := by
  unfold Bindings.isWellFounded
  rw [List.all_eq_true]
  rintro ⟨v, b⟩ hvb
  have hb : t.get? v = some b := (mem_entries_iff h.ordered).mp hvb
  have hnamed := h.named v b hb
  dsimp only
  split
  · rename_i hd
    rw [hd] at hnamed
    simpa using hnamed
  · rename_i d hd
    have hdef : t.definition? v = some d := (definition?_of_get? hb).trans hd
    rw [List.all_eq_true]
    intro s hs
    have hoperand := h.simple v d hdef s hs
    cases s with
    | var w =>
      have hw : w ∈ t.parts v := by
        rw [parts_of_definition? hdef]
        exact Body.mem_varsOf.mpr hs
      -- What is on record occurs, and with it occur its parts.
      obtain ⟨vs, hvs, hcount⟩ := h.counted
      have hv : v ∈ vs := by
        rw [← List.count_pos_iff, ← hcount, total_of_get? hb]
        exact h.positive v b hb
      have hbound := h.get?_of_mem_spelled hvs (hvs.parts_subset hv hw)
      rw [Bool.and_eq_true, decide_eq_true_eq]
      exact ⟨h.descends v w hw, contains_iff.mpr hbound⟩
    | fls | tru => rfl
    | _ => simp [Symbol.isOperand] at hoperand

end Tracks

end Bindings

end LawProof
