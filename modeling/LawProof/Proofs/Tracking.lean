import LawProof.Proofs.Counting

/-!
# Tables that keep track

A table tracks a list of variables when it has on record exactly the occurrences that the list and
the definitions below it come to. Each operation on the table that a law uses changes the tracked
list in the way one would write it down by hand.
-/

namespace LawProof

namespace Bindings

open Body (varsOf)

/-- Every definition is made of single symbols. -/
def Simple (t : Bindings) : Prop :=
  ∀ v d, t.definition? v = some d → ∀ s ∈ d.operands, s.isOperand = true

/-- What holds of a table whatever it tracks. -/
structure Sound (t : Bindings) : Prop where
  ordered : Ordered t.entries
  positive : ∀ v b, t.get? v = some b → 0 < b.count
  below : ∀ v b, t.get? v = some b → v.id < t.next
  /-- Exactly the synthetic variables stand for something. -/
  named : ∀ v b, t.get? v = some b → (b.definition.isSome = true ↔ v.isSynthetic = true)
  simple : t.Simple
  descends : t.Descends
  reserve : maxVariables ≤ t.next

structure Tracks (t : Bindings) (xs : List Var) : Prop extends Sound t where
  counted : ∃ vs, Spelled t xs vs ∧ ∀ v, t.total v = vs.count v

theorem isSynthetic_iff {v : Var} : v.isSynthetic = true ↔ maxVariables ≤ v.id := by
  unfold Var.isSynthetic
  exact decide_eq_true_iff

theorem isSynthetic_eq_false_iff {v : Var} : v.isSynthetic = false ↔ v.id < maxVariables := by
  unfold Var.isSynthetic
  rw [decide_eq_false_iff_not]
  omega

/-! ## Soundness and counts -/

theorem raise_eq_some {o : Option Binding} {k : Nat} {b : Binding} (h : raise o k = some b) :
    (∃ c, o = some c ∧ b.definition = c.definition ∧ c.count ≤ b.count) ∨
      (o = none ∧ 0 < k ∧ b = ⟨k, none⟩) := by
  match o, k with
  | none, 0 => simp [raise] at h
  | some c, 0 =>
    simp only [raise, Option.some.injEq] at h
    subst h
    exact Or.inl ⟨c, rfl, rfl, Nat.le_refl _⟩
  | none, k + 1 =>
    simp only [raise, Option.some.injEq] at h
    exact Or.inr ⟨rfl, Nat.succ_pos k, h.symm⟩
  | some c, k + 1 =>
    simp only [raise, Option.some.injEq] at h
    subst h
    exact Or.inl ⟨c, rfl, rfl, Nat.le_add_right ..⟩

section

variable {t t' : Bindings} {us : List Var}

theorem Sound.raised (h : t.Sound) (hr : Raised t t' us) (ho : Ordered t'.entries)
    (hn : t'.next = t.next)
    (hus : ∀ v ∈ us, (∃ b, t.get? v = some b) ∨ v.isSynthetic = false) : t'.Sound := by
  -- An entry of `t'` is one of `t` with a higher count, or a new one of an input variable.
  have hentry : ∀ v b, t'.get? v = some b →
      (∃ c, t.get? v = some c ∧ b.definition = c.definition ∧ c.count ≤ b.count) ∨
        (0 < b.count ∧ b.definition = none ∧ v.isSynthetic = false) := by
    intro v b hb
    rw [hr v] at hb
    rcases raise_eq_some hb with hc | ⟨hnone, hpos, rfl⟩
    · exact Or.inl hc
    · rcases hus v (List.count_pos_iff.mp hpos) with ⟨c, hc⟩ | hv
      · rw [hc] at hnone
        simp at hnone
      · exact Or.inr ⟨hpos, rfl, hv⟩
  refine ⟨ho, ?_, ?_, ?_, ?_, ?_, hn ▸ h.reserve⟩
  · intro v b hb
    rcases hentry v b hb with ⟨c, hc, -, hle⟩ | ⟨hpos, -⟩
    · exact Nat.lt_of_lt_of_le (h.positive v c hc) hle
    · exact hpos
  · intro v b hb
    rw [hn]
    rcases hentry v b hb with ⟨c, hc, -⟩ | ⟨-, -, hv⟩
    · exact h.below v c hc
    · exact Nat.lt_of_lt_of_le (isSynthetic_eq_false_iff.mp hv) h.reserve
  · intro v b hb
    rcases hentry v b hb with ⟨c, hc, hd, -⟩ | ⟨-, hd, hv⟩
    · rw [hd]
      exact h.named v c hc
    · simp [hd, hv]
  · intro v d hd
    rw [hr.definition?] at hd
    exact h.simple v d hd
  · intro v w hw
    rw [parts_congr (hr.definition? v)] at hw
    exact h.descends v w hw

theorem Lowered.get?_of_get? (hl : Lowered t t' us) {v : Var} {b : Binding}
    (h : t'.get? v = some b) :
    ∃ c, t.get? v = some c ∧ b.definition = c.definition ∧ (0 < c.count → 0 < b.count) :=
  lower_eq_some (hl v ▸ h)

theorem Lowered.definition?_of_some (hl : Lowered t t' us) {v : Var} {d : Definition}
    (h : t'.definition? v = some d) : t.definition? v = some d := by
  obtain ⟨b, hb, hd⟩ := get?_of_definition? h
  obtain ⟨c, hc, heq, -⟩ := hl.get?_of_get? hb
  rw [definition?_of_get? hc, ← heq, hd]

theorem Sound.lowered (h : t.Sound) (hl : Lowered t t' us) (ho : Ordered t'.entries)
    (hn : t'.next = t.next) : t'.Sound := by
  refine ⟨ho, ?_, ?_, ?_, ?_, ?_, hn ▸ h.reserve⟩
  · intro v b hb
    obtain ⟨c, hc, -, hpos⟩ := hl.get?_of_get? hb
    exact hpos (h.positive v c hc)
  · intro v b hb
    obtain ⟨c, hc, -⟩ := hl.get?_of_get? hb
    rw [hn]
    exact h.below v c hc
  · intro v b hb
    obtain ⟨c, hc, heq, -⟩ := hl.get?_of_get? hb
    rw [heq]
    exact h.named v c hc
  · intro v d hd
    exact h.simple v d (hl.definition?_of_some hd)
  · intro v w hw
    cases hd : t'.definition? v with
    | none =>
      unfold parts at hw
      rw [hd] at hw
      simp at hw
    | some d =>
      rw [parts_of_definition? hd, ← parts_of_definition? (hl.definition?_of_some hd)] at hw
      exact h.descends v w hw

theorem Sound.definition?_eq_none (h : t.Sound) {v : Var} (hv : v.isSynthetic = false) :
    t.definition? v = none := by
  rw [Option.eq_none_iff_forall_ne_some]
  intro d hd
  obtain ⟨b, hb, hbd⟩ := get?_of_definition? hd
  have := (h.named v b hb).mp (by rw [hbd]; rfl)
  simp [hv] at this

theorem Sound.parts_eq_nil (h : t.Sound) {v : Var} (hv : v.isSynthetic = false) :
    t.parts v = [] := by
  unfold parts
  rw [h.definition?_eq_none hv]

end

/-! ## Tracking -/

namespace Spelled

theorem subset_of_closed {t : Bindings} {xs us vs : List Var} (h : Spelled t xs us) (hxs : xs ⊆ vs)
    (hclosed : ∀ v ∈ vs, t.parts v ⊆ vs) : us ⊆ vs := by
  induction h with
  | nil => exact List.nil_subset _
  | @cons v rest us ws _ _ ihparts ihrest =>
    have hv : v ∈ vs := hxs List.mem_cons_self
    intro w hw
    rw [List.mem_append, List.mem_cons] at hw
    rcases hw with (rfl | hw) | hw
    · exact hv
    · exact ihparts (hclosed v hv) hw
    · exact ihrest (fun x hx => hxs (List.mem_cons_of_mem _ hx)) hw

end Spelled

namespace Tracks

variable {t : Bindings} {v : Var} {xs ys vs : List Var}

theorem get?_of_mem_spelled (h : Tracks t xs) (hvs : Spelled t xs vs) (hv : v ∈ vs) :
    ∃ b, t.get? v = some b := by
  obtain ⟨ws, hws, hcount⟩ := h.counted
  rw [hws.unique hvs] at hcount
  have hpos : 0 < t.total v := by
    rw [hcount]
    exact List.count_pos_iff.mpr hv
  obtain ⟨b, hb, -⟩ := get?_of_total_pos hpos
  exact ⟨b, hb⟩

theorem get?_of_mem (h : Tracks t xs) (hv : v ∈ xs) : ∃ b, t.get? v = some b := by
  obtain ⟨vs, hvs, -⟩ := h.counted
  exact h.get?_of_mem_spelled hvs (hvs.subset hv)

theorem perm (h : Tracks t xs) (hp : xs.Perm ys) : Tracks t ys := by
  obtain ⟨vs, hvs, hcount⟩ := h.counted
  obtain ⟨ws, hws, hperm⟩ := hvs.perm hp
  exact ⟨h.toSound, ws, hws, fun v => by rw [hcount, hperm.count_eq]⟩

theorem retain (h : Tracks t xs) (hv : v ∈ xs ∨ v.isSynthetic = false) :
    Tracks (t.retain (.var v)) (v :: xs) := by
  obtain ⟨vs, hvs, hcount⟩ := h.counted
  have hraised := t.raised_retain v
  have hus := spelled_chainBound h.descends [v]
  generalize t.spell t.chainBound [v] = us at hraised hus
  have hbound : ∀ w ∈ us, (∃ b, t.get? w = some b) ∨ w.isSynthetic = false := by
    intro w hw
    rcases hv with hv | hv
    · left
      have hsub : us ⊆ vs := hus.subset_of_closed
        (List.cons_subset.mpr ⟨hvs.subset hv, List.nil_subset _⟩) fun _ => hvs.parts_subset
      exact h.get?_of_mem_spelled hvs (hsub hw)
    · have hspell : Spelled t (t.parts v) [] := by
        rw [h.parts_eq_nil hv]
        exact .nil
      have hone : us = [v] := hus.unique (.cons hspell .nil)
      rw [hone, List.mem_singleton] at hw
      exact Or.inr (hw ▸ hv)
  refine ⟨h.toSound.raised hraised (ordered_retain _ h.ordered) (next_retain ..) hbound, us ++ vs,
    ?_, ?_⟩
  · exact (hus.append hvs).congr fun w _ => hraised.definition? w
  · intro w
    rw [hraised.total, hcount, List.count_append, Nat.add_comm]

theorem release (h : Tracks t (v :: xs)) : Tracks (t.release (.var v)) xs := by
  rw [← List.singleton_append] at h
  obtain ⟨all, hall, hcount⟩ := h.counted
  obtain ⟨us, vs, hus, hvs, rfl⟩ := hall.of_append
  have hspell : t.spell t.chainBound [v] = us := (spelled_chainBound h.descends [v]).unique hus
  have hle : ∀ w, (us ++ vs).count w ≤ t.total w := fun w => Nat.le_of_eq (hcount w).symm
  have hlowered : Lowered t (t.release (.var v)) us := by
    have : ∀ w, (t.spell t.chainBound [v]).count w ≤ t.total w := by
      intro w
      have := hle w
      rw [List.count_append] at this
      rw [hspell]
      omega
    exact hspell ▸ lowered_release this
  refine ⟨h.toSound.lowered hlowered (ordered_release _ h.ordered) (next_release ..), vs, ?_, ?_⟩
  · exact hvs.congr fun w hw => hlowered.definition?_of_le hle hw
  · intro w
    rw [hlowered.total, hcount, List.count_append]
    omega

theorem retain_symbol (h : Tracks t xs) {s : Symbol}
    (hs : ∀ v, s = .var v → v ∈ xs ∨ v.isSynthetic = false) :
    Tracks (t.retain s) (varsOf [s] ++ xs) := by
  cases hv : s.var? with
  | none =>
    rw [retain_of_var?_eq_none hv]
    unfold varsOf
    rw [List.filterMap_cons_none hv]
    exact h
  | some v =>
    obtain rfl := Symbol.eq_var_of_var? hv
    exact h.retain (hs v rfl)

theorem release_symbol {s : Symbol} (h : Tracks t (varsOf [s] ++ xs)) :
    Tracks (t.release s) xs := by
  cases hv : s.var? with
  | none =>
    rw [release_of_var?_eq_none hv]
    unfold varsOf at h
    rw [List.filterMap_cons_none hv] at h
    exact h
  | some v =>
    obtain rfl := Symbol.eq_var_of_var? hv
    exact h.release

theorem expand (h : Tracks t (v :: xs)) : Tracks (t.expand (.var v)) (t.parts v ++ xs) := by
  obtain ⟨all, hall, hcount⟩ := h.counted
  cases hall with
  | @cons _ _ us vs hparts hxs =>
    have hle : ∀ w, ([v] ++ (us ++ vs)).count w ≤ t.total w := fun w => Nat.le_of_eq (hcount w).symm
    have hpos : 0 < t.total v := by
      have := hle v
      rw [List.singleton_append, List.count_cons_self] at this
      omega
    have hlowered := lowered_expand hpos
    refine ⟨h.toSound.lowered hlowered (ordered_expand _ h.ordered) (next_expand ..), us ++ vs,
      ?_, ?_⟩
    · exact (hparts.append hxs).congr fun w hw => hlowered.definition?_of_le hle hw
    · intro w
      rw [hlowered.total, hcount, List.cons_append, ← List.singleton_append, List.count_append]
      omega

end Tracks

/-! ## New names -/

theorem Sound.define_eq {t : Bindings} (h : t.Sound) (d : Definition) :
    t.define d = (⟨t.next⟩, { t with next := t.next + 1 }.put ⟨t.next⟩ ⟨1, some d⟩) := by
  have hfresh : t.freshId = t.next := by
    apply freshId_eq_next
    rintro ⟨v, b⟩ hvb
    exact h.below v b ((mem_entries_iff h.ordered).mp hvb)
  unfold define fresh
  rw [hfresh]

theorem Sound.get?_define {t : Bindings} (h : t.Sound) (d : Definition) (w : Var) :
    (t.define d).2.get? w = if w = ⟨t.next⟩ then some ⟨1, some d⟩ else t.get? w := by
  rw [h.define_eq]
  exact get?_put ..

theorem Sound.ne_next {t : Bindings} (h : t.Sound) {v : Var} {b : Binding}
    (hb : t.get? v = some b) : v ≠ ⟨t.next⟩ := by
  intro hv
  have := h.below v b hb
  rw [hv] at this
  exact Nat.lt_irrefl _ this

theorem Sound.definition?_define {t : Bindings} (h : t.Sound) (d : Definition) (w : Var) :
    (t.define d).2.definition? w = if w = ⟨t.next⟩ then some d else t.definition? w := by
  unfold definition?
  rw [h.get?_define]
  split <;> rfl

theorem Sound.define {t : Bindings} (h : t.Sound) {d : Definition}
    (hd : ∀ s ∈ d.operands, s.isOperand = true)
    (hlt : ∀ w ∈ varsOf d.operands, w.id < t.next) : (t.define d).2.Sound := by
  have hnext : (t.define d).2.next = t.next + 1 := by
    rw [h.define_eq]
    rfl
  have hreserve := h.reserve
  refine ⟨?_, ?_, ?_, ?_, ?_, ?_, by omega⟩
  · rw [h.define_eq]
    exact ordered_insert _ _ h.ordered
  · intro v b hb
    rw [h.get?_define] at hb
    split at hb
    · rw [Option.some.injEq] at hb
      subst hb
      exact Nat.one_pos
    · exact h.positive v b hb
  · intro v b hb
    rw [hnext]
    rw [h.get?_define] at hb
    split at hb
    · rename_i hv
      rw [hv]
      exact Nat.lt_succ_self _
    · have := h.below v b hb
      omega
  · intro v b hb
    rw [h.get?_define] at hb
    split at hb
    · rename_i hv
      rw [Option.some.injEq] at hb
      subst hb
      rw [isSynthetic_iff, hv]
      simp [hreserve]
    · exact h.named v b hb
  · intro v e he
    rw [h.definition?_define] at he
    split at he
    · rw [Option.some.injEq] at he
      exact he ▸ hd
    · exact h.simple v e he
  · intro v w hw
    unfold parts at hw
    rw [h.definition?_define] at hw
    by_cases hv : v = ⟨t.next⟩
    · rw [if_pos hv] at hw
      rw [hv]
      exact hlt w hw
    · rw [if_neg hv] at hw
      exact h.descends v w hw

theorem Tracks.define {t : Bindings} {d : Definition} {xs : List Var}
    (h : Tracks t (varsOf d.operands ++ xs)) (hd : ∀ s ∈ d.operands, s.isOperand = true) :
    Tracks (t.define d).2 ((t.define d).1 :: xs) := by
  obtain ⟨all, hall, hcount⟩ := h.counted
  have hfresh : ∀ w ∈ all, w ≠ ⟨t.next⟩ := by
    intro w hw
    obtain ⟨b, hb⟩ := h.get?_of_mem_spelled hall hw
    exact h.ne_next hb
  have hsound : (t.define d).2.Sound := by
    apply h.toSound.define hd
    intro w hw
    obtain ⟨b, hb⟩ := h.get?_of_mem (List.mem_append_left xs hw)
    exact h.below w b hb
  obtain ⟨us, vs, hus, hvs, rfl⟩ := hall.of_append
  have hkept : ∀ w ∈ us ++ vs, (t.define d).2.definition? w = t.definition? w := by
    intro w hw
    rw [h.definition?_define, if_neg (hfresh w hw)]
  refine ⟨hsound, (t.define d).1 :: us ++ vs, .cons ?_ ?_, ?_⟩
  · have hparts : (t.define d).2.parts (t.define d).1 = varsOf d.operands := by
      apply parts_of_definition?
      rw [h.definition?_define, h.define_eq, if_pos rfl]
    rw [hparts]
    exact hus.congr fun w hw => hkept w (List.mem_append_left _ hw)
  · exact hvs.congr fun w hw => hkept w (List.mem_append_right _ hw)
  · intro w
    rw [total_eq, h.get?_define, h.define_eq, List.cons_append]
    split
    · rename_i hw
      rw [hw, List.count_cons_self, List.count_eq_zero.mpr fun hm => hfresh _ hm rfl]
      rfl
    · rename_i hw
      rw [List.count_cons_of_ne (Ne.symm hw), ← hcount, total_eq]

/-! ## The table of a written formula -/

theorem tracks_empty : Tracks empty [] where
  ordered := .nil
  positive := by simp [get?, empty, lookup]
  below := by simp [get?, empty, lookup]
  named := by simp [get?, empty, lookup]
  simple := by simp [Simple, definition?, get?, empty, lookup]
  descends := by simp [Descends, parts, definition?, get?, empty, lookup]
  reserve := Nat.le_refl _
  counted := ⟨[], .nil, fun _ => rfl⟩

theorem Tracks.foldl_retain {t : Bindings} {xs : List Var} (h : Tracks t xs) {body : List Symbol}
    (hbody : ∀ v ∈ varsOf body, v.isSynthetic = false) :
    Tracks (body.foldl Bindings.retain t) (varsOf body ++ xs) := by
  induction body generalizing t xs with
  | nil => exact h
  | cons s rest ih =>
    rw [← List.singleton_append, Body.varsOf_append] at hbody ⊢
    have hs : Tracks (t.retain s) (varsOf [s] ++ xs) := by
      apply h.retain_symbol
      intro v hv
      exact Or.inr (hbody v (List.mem_append_left _ (Body.mem_varsOf.mpr (by simp [hv]))))
    have hrest := ih hs fun v hv => hbody v (List.mem_append_right _ hv)
    apply hrest.perm
    rw [← List.append_assoc]
    exact List.perm_append_comm.append_right xs

theorem tracks_ofBody {body : List Symbol} (h : ∀ v ∈ varsOf body, v.isSynthetic = false) :
    Tracks (ofBody body) (varsOf body) := by
  have := tracks_empty.foldl_retain h
  rw [List.append_nil] at this
  exact this

end Bindings

end LawProof
