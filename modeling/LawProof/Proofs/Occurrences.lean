import LawProof.Proofs.Table

/-!
# Occurrences through definitions

A variable that stands for a part of the formula brings the variables of its definition with it,
and these bring theirs. `Spelled` says what that comes to. The recursions over the table that count
it go at most `chainBound` definitions deep. Where every definition speaks of smaller ids, that is
deep enough.
-/

namespace LawProof

theorem Symbol.eq_var_of_var? {s : Symbol} {v : Var} (h : s.var? = some v) : s = .var v := by
  cases s <;> simp_all [var?]

/-- The variables of a body, each as often as it stands there. -/
def Body.varsOf (body : List Symbol) : List Var := body.filterMap Symbol.var?

theorem Body.mem_varsOf {v : Var} {body : List Symbol} : v ∈ varsOf body ↔ .var v ∈ body := by
  unfold varsOf
  rw [List.mem_filterMap]
  constructor
  · rintro ⟨s, hs, hv⟩
    exact Symbol.eq_var_of_var? hv ▸ hs
  · intro h
    exact ⟨_, h, rfl⟩

theorem Body.varsOf_append (xs ys : List Symbol) : varsOf (xs ++ ys) = varsOf xs ++ varsOf ys :=
  List.filterMap_append

theorem Body.varsOf_symbols (d : Definition) : varsOf d.symbols = varsOf d.operands := by
  cases d <;> rfl

namespace Bindings

open Body (varsOf)

/-- The variables in what a variable stands for. -/
def parts (t : Bindings) (v : Var) : List Var :=
  match t.definition? v with
  | none => []
  | some d => varsOf d.operands

theorem parts_of_definition? {t : Bindings} {v : Var} {d : Definition}
    (h : t.definition? v = some d) : t.parts v = varsOf d.operands := by
  unfold parts
  rw [h]

theorem parts_congr {t t' : Bindings} {v : Var} (h : t'.definition? v = t.definition? v) :
    t'.parts v = t.parts v := by
  unfold parts
  rw [h]

/-- `Spelled t vars vs`: when each variable of `vars` is read through all definitions below it, the
variables met on the way are `vs`. -/
inductive Spelled (t : Bindings) : List Var → List Var → Prop where
  | nil : Spelled t [] []
  | cons {v : Var} {rest us vs : List Var} : Spelled t (t.parts v) us → Spelled t rest vs →
      Spelled t (v :: rest) (v :: us ++ vs)

namespace Spelled

variable {t t' : Bindings} {v : Var} {xs ys us vs : List Var}

theorem unique (h : Spelled t xs us) (h' : Spelled t xs vs) : us = vs := by
  induction h generalizing vs with
  | nil =>
    cases h'
    rfl
  | cons _ _ ihparts ihrest =>
    cases h' with
    | cons hparts hrest => rw [ihparts hparts, ihrest hrest]

theorem append (h : Spelled t xs us) (h' : Spelled t ys vs) : Spelled t (xs ++ ys) (us ++ vs) := by
  induction h with
  | nil => exact h'
  | cons hparts _ _ ihrest =>
    rw [List.append_assoc]
    exact cons hparts ihrest

theorem of_append (h : Spelled t (xs ++ ys) vs) :
    ∃ us ws, Spelled t xs us ∧ Spelled t ys ws ∧ vs = us ++ ws := by
  induction xs generalizing vs with
  | nil => exact ⟨[], vs, nil, h, rfl⟩
  | cons x xs ih =>
    cases h with
    | cons hparts hrest =>
      obtain ⟨us, ws, hus, hws, rfl⟩ := ih hrest
      exact ⟨_, ws, cons hparts hus, hws, (List.append_assoc ..).symm⟩

theorem perm (h : Spelled t xs us) (hp : xs.Perm ys) : ∃ vs, Spelled t ys vs ∧ us.Perm vs := by
  induction hp generalizing us with
  | nil => exact ⟨us, h, .refl _⟩
  | cons x _ ih =>
    cases h with
    | cons hparts hrest =>
      obtain ⟨vs, hvs, hperm⟩ := ih hrest
      exact ⟨_, cons hparts hvs, hperm.append_left _⟩
  | swap x y l =>
    cases h with
    | @cons _ _ us _ hy hrest =>
      cases hrest with
      | @cons _ _ us' ws hx hl =>
        refine ⟨_, cons hx (cons hy hl), ?_⟩
        rw [← List.append_assoc, ← List.append_assoc]
        exact List.perm_append_comm.append_right ws
  | trans _ _ ih ih' =>
    obtain ⟨vs, hvs, hperm⟩ := ih h
    obtain ⟨ws, hws, hperm'⟩ := ih' hvs
    exact ⟨ws, hws, hperm.trans hperm'⟩

theorem congr (h : Spelled t xs vs) (heq : ∀ v ∈ vs, t'.definition? v = t.definition? v) :
    Spelled t' xs vs := by
  induction h with
  | nil => exact nil
  | @cons v rest us vs _ _ ihparts ihrest =>
    have hv : t'.parts v = t.parts v := parts_congr (heq v (by simp))
    refine cons ?_ (ihrest fun w hw => heq w (by simp [hw]))
    rw [hv]
    exact ihparts fun w hw => heq w (by simp [hw])

theorem subset (h : Spelled t xs vs) : xs ⊆ vs := by
  induction h with
  | nil => exact List.Subset.refl _
  | @cons v rest us vs _ _ _ ihrest =>
    intro w hw
    rcases List.mem_cons.mp hw with rfl | hw
    · exact List.mem_cons_self
    · exact List.mem_append_right _ (ihrest hw)

theorem parts_subset (h : Spelled t xs vs) (hv : v ∈ vs) : t.parts v ⊆ vs := by
  induction h with
  | nil => simp at hv
  | @cons x rest us vs hparts _ ihparts ihrest =>
    rw [List.mem_append, List.mem_cons] at hv
    rcases hv with (rfl | hv) | hv
    · intro w hw
      exact List.mem_append_left _ (List.mem_cons_of_mem _ (hparts.subset hw))
    · intro w hw
      exact List.mem_append_left _ (List.mem_cons_of_mem _ (ihparts hv hw))
    · intro w hw
      exact List.mem_append_right _ (ihrest hv hw)

end Spelled

/-! ## Reading to a depth -/

/-- What is met on the way down, to a depth of `n` definitions. -/
def spell (t : Bindings) (n : Nat) (xs : List Var) : List Var :=
  xs.flatMap fun v => t.occurrencesWithin n (.var v)

theorem spell_cons (t : Bindings) (n : Nat) (v : Var) (xs : List Var) :
    t.spell n (v :: xs) = t.occurrencesWithin n (.var v) ++ t.spell n xs := rfl

theorem spell_zero (t : Bindings) (xs : List Var) : t.spell 0 xs = [] := by
  unfold spell
  rw [List.flatMap_eq_nil_iff]
  intro v _
  rfl

theorem flatMap_occurrencesWithin (t : Bindings) (n : Nat) (body : List Symbol) :
    body.flatMap (t.occurrencesWithin n) = t.spell n (varsOf body) := by
  induction body with
  | nil => rfl
  | cons s rest ih =>
    rw [List.flatMap_cons, ih]
    cases s with
    | var v => rfl
    | _ => cases n <;> rfl

theorem occurrencesWithin_succ (t : Bindings) (n : Nat) (v : Var) :
    t.occurrencesWithin (n + 1) (.var v) = v :: t.spell n (t.parts v) := by
  unfold parts
  simp only [occurrencesWithin]
  cases t.definition? v with
  | none => rfl
  | some d => exact congrArg (v :: ·) (flatMap_occurrencesWithin t n d.operands)

theorem occurrences_eq_spell (t : Bindings) (body : List Symbol) :
    t.occurrences body = t.spell t.chainBound (varsOf body) := flatMap_occurrencesWithin ..

theorem spell_congr {t t' : Bindings} {n : Nat} {xs : List Var}
    (h : ∀ v ∈ t.spell n xs, t'.definition? v = t.definition? v) :
    t'.spell n xs = t.spell n xs := by
  induction n generalizing xs with
  | zero => rw [spell_zero, spell_zero]
  | succ n ih =>
    induction xs with
    | nil => rfl
    | cons v xs ihxs =>
      rw [spell_cons, occurrencesWithin_succ] at h
      rw [spell_cons, spell_cons, occurrencesWithin_succ, occurrencesWithin_succ,
        parts_congr (h v (by simp)), ih fun w hw => h w (by simp [hw]),
        ihxs fun w hw => h w (by simp [hw])]

/-! ## How deep is enough -/

/-- Every definition speaks of variables with smaller ids than its own. -/
def Descends (t : Bindings) : Prop := ∀ v, ∀ w ∈ t.parts v, w.id < v.id

theorem Spelled.id_lt {t : Bindings} (ht : t.Descends) {xs us : List Var} (h : Spelled t xs us)
    {n : Nat} (hxs : ∀ x ∈ xs, x.id < n) : ∀ u ∈ us, u.id < n := by
  induction h with
  | nil => simp
  | @cons v rest us vs _ _ ihparts ihrest =>
    have hv : v.id < n := hxs v List.mem_cons_self
    intro w hw
    rw [List.mem_append, List.mem_cons] at hw
    rcases hw with (rfl | hw) | hw
    · exact hv
    · exact ihparts (fun x hx => Nat.lt_trans (ht v x hx) hv) w hw
    · exact ihrest (fun x hx => hxs x (List.mem_cons_of_mem _ hx)) w hw

theorem Spelled.notMem {t : Bindings} (ht : t.Descends) {v : Var} {us : List Var}
    (h : Spelled t (t.parts v) us) : v ∉ us :=
  fun hv => Nat.lt_irrefl _ (h.id_lt ht (ht v) v hv)

/-- How many entries have ids up to that of a variable. -/
def rank (t : Bindings) (v : Var) : Nat := (t.entries.filter fun e => e.1.id ≤ v.id).length

theorem rank_lt_chainBound (t : Bindings) (v : Var) : t.rank v < t.chainBound := by
  have := List.length_filter_le (fun e : Var × Binding => decide (e.1.id ≤ v.id)) t.entries
  unfold rank chainBound
  omega

theorem rank_lt_rank {t : Bindings} (h : t.Descends) {v w : Var} (hw : w ∈ t.parts v) :
    t.rank w < t.rank v := by
  -- A variable with a definition has an entry of its own, which does not count for its parts.
  have hlt : w.id < v.id := h v w hw
  obtain ⟨b, hb⟩ : ∃ b, (v, b) ∈ t.entries := by
    cases hd : t.definition? v with
    | none =>
      unfold parts at hw
      rw [hd] at hw
      simp at hw
    | some d =>
      obtain ⟨b, hb, -⟩ := get?_of_definition? hd
      exact ⟨b, mem_of_lookup hb⟩
  have hsub : t.entries.filter (fun e => e.1.id ≤ w.id) =
      (t.entries.filter fun e => e.1.id ≤ v.id).filter fun e => e.1.id ≤ w.id := by
    rw [List.filter_filter]
    apply List.filter_congr
    intro e _
    rw [Bool.eq_iff_iff]
    simp only [Bool.and_eq_true, decide_eq_true_eq]
    omega
  unfold rank
  rw [hsub, List.length_filter_lt_length_iff_exists]
  refine ⟨(v, b), List.mem_filter.mpr ⟨hb, by simp⟩, ?_⟩
  simp only [decide_eq_true_eq]
  omega

theorem spelled_spell {t : Bindings} (h : t.Descends) {n : Nat} {xs : List Var}
    (hn : ∀ v ∈ xs, t.rank v < n) : Spelled t xs (t.spell n xs) := by
  induction n generalizing xs with
  | zero =>
    cases xs with
    | nil => exact .nil
    | cons v xs => exact absurd (hn v List.mem_cons_self) (Nat.not_lt_zero _)
  | succ n ih =>
    induction xs with
    | nil => exact .nil
    | cons v xs ihxs =>
      rw [spell_cons, occurrencesWithin_succ]
      have hv := hn v List.mem_cons_self
      refine .cons (ih fun w hw => ?_) (ihxs fun w hw => hn w (List.mem_cons_of_mem _ hw))
      have := rank_lt_rank h hw
      omega

theorem spelled_chainBound {t : Bindings} (h : t.Descends) (xs : List Var) :
    Spelled t xs (t.spell t.chainBound xs) := spelled_spell h fun v _ => t.rank_lt_chainBound v

end Bindings

end LawProof
