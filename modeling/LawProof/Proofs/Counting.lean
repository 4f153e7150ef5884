import LawProof.Proofs.Occurrences

/-!
# What retaining and releasing do to the counts

One more occurrence of a variable is one more of everything below it, and one occurrence less is one
less of everything below it. Both go through the definitions in the same way as `spell`, and to the
same depth.
-/

namespace LawProof

namespace Bindings

open Body (varsOf)

/-! ## More occurrences -/

/-- Every variable has gained as many occurrences as `us` holds of it. -/
def Raised (t t' : Bindings) (us : List Var) : Prop :=
  ∀ w, t'.get? w = raise (t.get? w) (us.count w)

section

variable {t t' t'' : Bindings} {us vs : List Var}

theorem Raised.trans (h : Raised t t' us) (h' : Raised t' t'' vs) : Raised t t'' (us ++ vs) := by
  intro w
  rw [h' w, h w, raise_raise, List.count_append]

theorem Raised.definition? (h : Raised t t' us) (v : Var) : t'.definition? v = t.definition? v := by
  unfold Bindings.definition?
  rw [h v, raise_definition]

theorem Raised.total (h : Raised t t' us) (v : Var) : t'.total v = t.total v + us.count v := by
  rw [total_eq, h v, raise_count, ← total_eq]

end

theorem raised_nil (t : Bindings) : Raised t t [] := by
  intro w
  cases t.get? w <;> rfl

theorem raised_put {t : Bindings} {v : Var} {b : Binding} (h : raise (t.get? v) 1 = some b) :
    Raised t (t.put v b) [v] := by
  intro w
  rw [get?_put]
  split
  · rename_i hw
    rw [hw, List.count_singleton_self, h]
  · rename_i hw
    rw [List.count_eq_zero.mpr (by simpa using hw)]
    cases t.get? w <;> rfl

/-- One more occurrence of each variable of a list. -/
def retainAll (n : Nat) (xs : List Var) (t : Bindings) : Bindings :=
  xs.foldl (fun t v => retainWithin n (.var v) t) t

theorem foldl_retainWithin (n : Nat) (symbols : List Symbol) (t : Bindings) :
    symbols.foldl (fun t s => retainWithin n s t) t = retainAll n (varsOf symbols) t := by
  induction symbols generalizing t with
  | nil => rfl
  | cons s rest ih =>
    rw [List.foldl_cons, ih]
    cases s with
    | var v => rfl
    | _ => cases n <;> rfl

theorem retainWithin_succ_some {t : Bindings} {v : Var} {b : Binding} (n : Nat)
    (h : t.get? v = some b) :
    retainWithin (n + 1) (.var v) t =
      retainAll n (t.parts v) (t.put v { b with count := b.count + 1 }) := by
  unfold parts
  rw [definition?_of_get? h]
  simp only [retainWithin, h]
  cases b.definition with
  | none => rfl
  | some d => exact foldl_retainWithin n d.operands _

theorem raised_retainAll (n : Nat) (xs : List Var) (t : Bindings) :
    Raised t (retainAll n xs t) (t.spell n xs) := by
  induction n generalizing xs t with
  | zero =>
    rw [spell_zero]
    have : retainAll 0 xs t = t := by
      induction xs with
      | nil => rfl
      | cons v xs ih => exact ih
    rw [this]
    exact raised_nil t
  | succ n ih =>
    -- One variable: its own entry first, then its parts one level down.
    have hone : ∀ v t, Raised t (retainWithin (n + 1) (.var v) t)
        (t.occurrencesWithin (n + 1) (.var v)) := by
      intro v t
      rw [occurrencesWithin_succ]
      cases hv : t.get? v with
      | none =>
        have hparts : t.parts v = [] := by
          unfold parts Bindings.definition?
          rw [hv]
          rfl
        rw [hparts]
        simp only [retainWithin, hv]
        exact raised_put (by rw [hv]; rfl)
      | some b =>
        rw [retainWithin_succ_some n hv]
        have hput : Raised t (t.put v { b with count := b.count + 1 }) [v] :=
          raised_put (by rw [hv]; rfl)
        have hrest := ih (t.parts v) (t.put v { b with count := b.count + 1 })
        rw [spell_congr fun w _ => hput.definition? w] at hrest
        exact hput.trans hrest
    induction xs generalizing t with
    | nil => exact raised_nil t
    | cons v xs ihxs =>
      have hv := hone v t
      have hxs := ihxs (retainWithin (n + 1) (.var v) t)
      rw [spell_congr fun w _ => hv.definition? w] at hxs
      exact hv.trans hxs

theorem raised_retain (t : Bindings) (v : Var) :
    Raised t (t.retain (.var v)) (t.spell t.chainBound [v]) := raised_retainAll t.chainBound [v] t

theorem retainWithin_of_var?_eq_none {s : Symbol} (h : s.var? = none) (n : Nat) (t : Bindings) :
    retainWithin n s t = t := by
  cases n with
  | zero => rfl
  | succ n =>
    cases s with
    | var v => simp [Symbol.var?] at h
    | _ => rfl

theorem retain_of_var?_eq_none {s : Symbol} (h : s.var? = none) (t : Bindings) :
    t.retain s = t := retainWithin_of_var?_eq_none h ..

/-! ## Fewer occurrences -/

/-- Every variable has lost as many occurrences as `us` holds of it. -/
def Lowered (t t' : Bindings) (us : List Var) : Prop :=
  ∀ w, t'.get? w = lower (t.get? w) (us.count w)

section

variable {t t' t'' : Bindings} {us vs : List Var}

theorem Lowered.trans (h : Lowered t t' us) (h' : Lowered t' t'' vs) :
    Lowered t t'' (us ++ vs) := by
  intro w
  rw [h' w, h w, lower_lower, List.count_append]

theorem Lowered.total (h : Lowered t t' us) (v : Var) : t'.total v = t.total v - us.count v := by
  rw [total_eq, h v, lower_count, ← total_eq]

theorem Lowered.definition? (h : Lowered t t' us) {v : Var} (hv : us.count v < t.total v) :
    t'.definition? v = t.definition? v := by
  unfold Bindings.definition?
  rw [h v, lower_definition hv]

theorem Lowered.definition?_of_le (h : Lowered t t' us)
    (hle : ∀ w, (us ++ vs).count w ≤ t.total w) {v : Var} (hv : v ∈ vs) :
    t'.definition? v = t.definition? v := by
  apply h.definition?
  have hpos := List.count_pos_iff.mpr hv
  have := hle v
  rw [List.count_append] at this
  omega

theorem Lowered.le_total (h : Lowered t t' us) (hle : ∀ w, (us ++ vs).count w ≤ t.total w)
    (w : Var) : vs.count w ≤ t'.total w := by
  have := hle w
  rw [h.total, List.count_append] at *
  omega

end

theorem lowered_nil (t : Bindings) : Lowered t t [] := by
  intro w
  cases t.get? w <;> rfl

/-- One occurrence less of each variable of a list. -/
def releaseAll (n : Nat) (xs : List Var) (t : Bindings) : Bindings :=
  xs.foldl (fun t v => releaseWithin n (.var v) t) t

theorem foldl_releaseWithin (n : Nat) (symbols : List Symbol) (t : Bindings) :
    symbols.foldl (fun t s => releaseWithin n s t) t = releaseAll n (varsOf symbols) t := by
  induction symbols generalizing t with
  | nil => rfl
  | cons s rest ih =>
    rw [List.foldl_cons, ih]
    cases s with
    | var v => rfl
    | _ => cases n <;> rfl

theorem releaseWithin_succ_some {t : Bindings} {v : Var} {b : Binding} (n : Nat)
    (h : t.get? v = some b) :
    releaseWithin (n + 1) (.var v) t = releaseAll n (t.parts v) (t.dropOne v b) := by
  unfold parts
  rw [definition?_of_get? h]
  simp only [releaseWithin, h]
  cases b.definition with
  | none => rfl
  | some d => exact foldl_releaseWithin n d.operands _

theorem lowered_releaseAll {n : Nat} {xs : List Var} {t : Bindings}
    (h : ∀ w, (t.spell n xs).count w ≤ t.total w) :
    Lowered t (releaseAll n xs t) (t.spell n xs) := by
  -- Releasing meets every definition it needs: an entry goes with its last occurrence, not before.
  induction n generalizing xs t with
  | zero =>
    rw [spell_zero]
    have : releaseAll 0 xs t = t := by
      induction xs with
      | nil => rfl
      | cons v xs ih => exact ih (by rw [spell_zero]; simp)
    rw [this]
    exact lowered_nil t
  | succ n ih =>
    have hone : ∀ v t, (∀ w, (t.occurrencesWithin (n + 1) (.var v)).count w ≤ t.total w) →
        Lowered t (releaseWithin (n + 1) (.var v) t) (t.occurrencesWithin (n + 1) (.var v)) := by
      intro v t hle
      rw [occurrencesWithin_succ] at hle ⊢
      obtain ⟨b, hb, -⟩ : ∃ b, t.get? v = some b ∧ b.count = t.total v := by
        apply get?_of_total_pos
        have := hle v
        rw [List.count_cons_self] at this
        omega
      rw [releaseWithin_succ_some n hb]
      have hdrop : Lowered t (t.dropOne v b) [v] := get?_dropOne hb
      have hspell : (t.dropOne v b).spell n (t.parts v) = t.spell n (t.parts v) :=
        spell_congr fun w hw => hdrop.definition?_of_le hle hw
      have hrest : Lowered (t.dropOne v b) (releaseAll n (t.parts v) (t.dropOne v b))
          ((t.dropOne v b).spell n (t.parts v)) := by
        apply ih
        rw [hspell]
        exact hdrop.le_total hle
      rw [hspell] at hrest
      exact hdrop.trans hrest
    induction xs generalizing t with
    | nil => exact lowered_nil t
    | cons v xs ihxs =>
      rw [spell_cons] at h ⊢
      have hv : Lowered t (releaseWithin (n + 1) (.var v) t)
          (t.occurrencesWithin (n + 1) (.var v)) := by
        apply hone
        intro w
        have := h w
        rw [List.count_append] at this
        omega
      have hspell : (releaseWithin (n + 1) (.var v) t).spell (n + 1) xs = t.spell (n + 1) xs :=
        spell_congr fun w hw => hv.definition?_of_le h hw
      have hxs : Lowered (releaseWithin (n + 1) (.var v) t)
          (releaseAll (n + 1) xs (releaseWithin (n + 1) (.var v) t))
          ((releaseWithin (n + 1) (.var v) t).spell (n + 1) xs) := by
        apply ihxs
        rw [hspell]
        exact hv.le_total h
      rw [hspell] at hxs
      exact hv.trans hxs

theorem lowered_release {t : Bindings} {v : Var}
    (h : ∀ w, (t.spell t.chainBound [v]).count w ≤ t.total w) :
    Lowered t (t.release (.var v)) (t.spell t.chainBound [v]) := lowered_releaseAll h

theorem releaseWithin_of_var?_eq_none {s : Symbol} (h : s.var? = none) (n : Nat) (t : Bindings) :
    releaseWithin n s t = t := by
  cases n with
  | zero => rfl
  | succ n =>
    cases s with
    | var v => simp [Symbol.var?] at h
    | _ => rfl

theorem release_of_var?_eq_none {s : Symbol} (h : s.var? = none) (t : Bindings) :
    t.release s = t := releaseWithin_of_var?_eq_none h ..

theorem lowered_expand {t : Bindings} {v : Var} (h : 0 < t.total v) :
    Lowered t (t.expand (.var v)) [v] := by
  obtain ⟨b, hb, -⟩ := get?_of_total_pos h
  unfold expand
  simp only [Symbol.var?, hb]
  exact get?_dropOne hb

/-! ## What both keep -/

theorem retainWithin_preserves {P : Bindings → Prop} (hput : ∀ t v b, P t → P (t.put v b))
    (n : Nat) (s : Symbol) {t : Bindings} (h : P t) : P (retainWithin n s t) := by
  induction n generalizing s t with
  | zero => exact h
  | succ n ih =>
    cases s with
    | var v =>
      simp only [retainWithin]
      split
      · exact hput _ _ _ h
      · split
        · exact hput _ _ _ h
        · exact List.foldlRecOn (motive := P) _ _ (hput _ _ _ h) fun t ht s _ => ih s ht
    | _ => exact h

theorem releaseWithin_preserves {P : Bindings → Prop}
    (hdrop : ∀ t v b, t.get? v = some b → P t → P (t.dropOne v b))
    (n : Nat) (s : Symbol) {t : Bindings} (h : P t) : P (releaseWithin n s t) := by
  induction n generalizing s t with
  | zero => exact h
  | succ n ih =>
    cases s with
    | var v =>
      simp only [releaseWithin]
      split
      · exact h
      · rename_i b hb
        split
        · exact hdrop _ _ _ hb h
        · exact List.foldlRecOn (motive := P) _ _ (hdrop _ _ _ hb h) fun t ht s _ => ih s ht
    | _ => exact h

theorem next_dropOne (t : Bindings) (v : Var) (b : Binding) : (t.dropOne v b).next = t.next := by
  unfold dropOne
  split <;> rfl

theorem ordered_retain (s : Symbol) {t : Bindings} (h : Ordered t.entries) :
    Ordered (t.retain s).entries :=
  retainWithin_preserves (P := fun t => Ordered t.entries) (fun _ v b => ordered_insert v b) _ s h

theorem ordered_release (s : Symbol) {t : Bindings} (h : Ordered t.entries) :
    Ordered (t.release s).entries :=
  releaseWithin_preserves (P := fun t => Ordered t.entries)
    (fun _ v b _ => ordered_dropOne v b) _ s h

theorem next_retain (s : Symbol) (t : Bindings) : (t.retain s).next = t.next :=
  retainWithin_preserves (P := fun u => u.next = t.next) (fun _ _ _ h => h) _ s rfl

theorem next_release (s : Symbol) (t : Bindings) : (t.release s).next = t.next :=
  releaseWithin_preserves (P := fun u => u.next = t.next)
    (fun u v b _ h => (next_dropOne u v b).trans h) _ s rfl

theorem ordered_expand (s : Symbol) {t : Bindings} (h : Ordered t.entries) :
    Ordered (t.expand s).entries := by
  unfold expand
  split
  · exact h
  · split
    · exact h
    · exact ordered_dropOne _ _ h

theorem next_expand (s : Symbol) (t : Bindings) : (t.expand s).next = t.next := by
  unfold expand
  split
  · rfl
  · split
    · rfl
    · exact next_dropOne ..

end Bindings

end LawProof
