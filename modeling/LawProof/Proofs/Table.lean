import LawProof.Bindings

/-!
# Reading the table after a change

What `get?` finds after each of the small changes that the table knows, and that the entries stay in
the order of their ids. Later modules reason about `get?` only.
-/

namespace LawProof

theorem Var.eq_of_id_eq {v w : Var} (h : v.id = w.id) : v = w := by
  cases v
  cases w
  rw [Var.mk.injEq]
  exact h

namespace Bindings

/-! ## Entries -/

theorem lookup_insert (v w : Var) (b : Binding) (entries : List (Var × Binding)) :
    lookup w (insert v b entries) = if w = v then some b else lookup w entries := by
  induction entries with
  | nil => simp [insert, lookup, eq_comm]
  | cons e rest ih =>
    obtain ⟨u, c⟩ := e
    unfold insert
    split
    · rename_i hu
      subst hu
      simp only [lookup]
      by_cases hw : w = u
      · simp [hw]
      · simp [hw, Ne.symm hw]
    · split
      · simp [lookup, eq_comm]
      · rename_i hu _
        simp only [lookup, ih]
        by_cases hw : u = w
        · subst hw
          simp [hu]
        · simp [hw]

theorem lookup_erase (v w : Var) (entries : List (Var × Binding)) :
    lookup w (erase v entries) = if w = v then none else lookup w entries := by
  unfold erase
  induction entries with
  | nil => simp [lookup]
  | cons e rest ih =>
    obtain ⟨u, c⟩ := e
    rw [List.filter_cons]
    by_cases hu : u = v
    · subst hu
      simp only [ne_eq, not_true_eq_false, decide_false, Bool.false_eq_true, if_false, ih, lookup]
      by_cases hw : w = u
      · simp [hw]
      · simp [hw, Ne.symm hw]
    · simp only [ne_eq, hu, not_false_eq_true, decide_true, if_true, lookup, ih]
      by_cases hw : u = w
      · subst hw
        simp [hu]
      · simp [hw]

theorem mem_of_lookup {v : Var} {b : Binding} {entries : List (Var × Binding)}
    (h : lookup v entries = some b) : (v, b) ∈ entries := by
  induction entries with
  | nil => simp [lookup] at h
  | cons e rest ih =>
    obtain ⟨u, c⟩ := e
    simp only [lookup] at h
    split at h
    · rename_i hu
      rw [Option.some.injEq] at h
      rw [hu, h]
      exact List.mem_cons_self
    · exact List.mem_cons_of_mem _ (ih h)

theorem get?_put (t : Bindings) (v w : Var) (b : Binding) :
    (t.put v b).get? w = if w = v then some b else t.get? w := lookup_insert ..

theorem get?_remove (t : Bindings) (v w : Var) :
    (t.remove v).get? w = if w = v then none else t.get? w := lookup_erase ..

/-- The occurrences of a variable that the table has on record. -/
def total (t : Bindings) (v : Var) : Nat := t.count (.var v)

theorem total_eq (t : Bindings) (v : Var) : t.total v = ((t.get? v).map (·.count)).getD 0 := rfl

theorem total_of_get? {t : Bindings} {v : Var} {b : Binding} (h : t.get? v = some b) :
    t.total v = b.count := by
  rw [total_eq, h]
  rfl

theorem definition?_of_get? {t : Bindings} {v : Var} {b : Binding} (h : t.get? v = some b) :
    t.definition? v = b.definition := by
  unfold definition?
  rw [h]
  rfl

theorem get?_of_definition? {t : Bindings} {v : Var} {d : Definition}
    (h : t.definition? v = some d) : ∃ b, t.get? v = some b ∧ b.definition = some d := by
  unfold definition? at h
  exact Option.bind_eq_some_iff.mp h

theorem get?_of_total_pos {t : Bindings} {v : Var} (h : 0 < t.total v) :
    ∃ b, t.get? v = some b ∧ b.count = t.total v := by
  cases hv : t.get? v with
  | none =>
    rw [total_eq, hv] at h
    simp at h
  | some b => exact ⟨b, rfl, (total_of_get? hv).symm⟩

theorem contains_iff {t : Bindings} {v : Var} : t.contains v = true ↔ ∃ b, t.get? v = some b := by
  unfold contains
  exact Option.isSome_iff_exists

/-! ## More and fewer occurrences -/

/-- An entry with `k` occurrences more. What had none gets an entry without a definition. -/
def raise : Option Binding → Nat → Option Binding
  | o, 0 => o
  | none, k + 1 => some ⟨k + 1, none⟩
  | some b, k + 1 => some { b with count := b.count + (k + 1) }

/-- An entry with `k` occurrences fewer. It is gone once none are left. -/
def lower : Option Binding → Nat → Option Binding
  | o, 0 => o
  | none, _ + 1 => none
  | some b, k + 1 =>
    if b.count ≤ k + 1 then none else some { b with count := b.count - (k + 1) }

theorem raise_raise (o : Option Binding) (j k : Nat) : raise (raise o j) k = raise o (j + k) := by
  match o, j, k with
  | o, j, 0 => cases o <;> cases j <;> rfl
  | o, 0, k + 1 =>
    rw [Nat.zero_add]
    rfl
  | none, j + 1, k + 1 => simp [raise, Nat.add_assoc]
  | some b, j + 1, k + 1 => simp [raise, Nat.add_assoc]

theorem lower_lower (o : Option Binding) (j k : Nat) : lower (lower o j) k = lower o (j + k) := by
  match o, j, k with
  | o, j, 0 => cases o <;> cases j <;> rfl
  | o, 0, k + 1 =>
    rw [Nat.zero_add]
    rfl
  | none, j + 1, k + 1 => rfl
  | some b, j + 1, k + 1 =>
    show lower (if b.count ≤ j + 1 then none else some { b with count := b.count - (j + 1) })
        (k + 1) =
      if b.count ≤ j + 1 + k + 1 then none else some { b with count := b.count - (j + 1 + k + 1) }
    by_cases hj : b.count ≤ j + 1
    · rw [if_pos hj, if_pos (by omega)]
      rfl
    · rw [if_neg hj]
      simp only [lower]
      by_cases hk : b.count - (j + 1) ≤ k + 1
      · rw [if_pos hk, if_pos (by omega)]
      · rw [if_neg hk, if_neg (by omega), Option.some.injEq, Binding.mk.injEq]
        exact ⟨by omega, rfl⟩

theorem raise_definition (o : Option Binding) (k : Nat) :
    (raise o k).bind (·.definition) = o.bind (·.definition) := by
  cases o <;> cases k <;> rfl

theorem raise_count (o : Option Binding) (k : Nat) :
    ((raise o k).map (·.count)).getD 0 = (o.map (·.count)).getD 0 + k := by
  cases o <;> cases k <;> simp [raise]

theorem lower_count (o : Option Binding) (k : Nat) :
    ((lower o k).map (·.count)).getD 0 = (o.map (·.count)).getD 0 - k := by
  match o, k with
  | o, 0 => cases o <;> rfl
  | none, k + 1 => simp [lower]
  | some b, k + 1 =>
    simp only [lower]
    split
    · simp
      omega
    · rfl

theorem lower_eq_some {o : Option Binding} {k : Nat} {b : Binding} (h : lower o k = some b) :
    ∃ c, o = some c ∧ b.definition = c.definition ∧ (0 < c.count → 0 < b.count) := by
  match o, k with
  | o, 0 => exact ⟨b, by cases o <;> exact h, rfl, id⟩
  | none, k + 1 => simp [lower] at h
  | some c, k + 1 =>
    simp only [lower] at h
    split at h
    · simp at h
    · rw [Option.some.injEq] at h
      subst h
      refine ⟨c, rfl, rfl, fun _ => ?_⟩
      show 0 < c.count - (k + 1)
      omega

theorem lower_definition {o : Option Binding} {k : Nat} (h : k < (o.map (·.count)).getD 0) :
    (lower o k).bind (·.definition) = o.bind (·.definition) := by
  match o, k with
  | o, 0 => cases o <;> rfl
  | none, k + 1 => rfl
  | some b, k + 1 =>
    simp only [Option.map_some, Option.getD_some] at h
    simp only [lower]
    rw [if_neg (by omega)]
    rfl

theorem get?_dropOne {t : Bindings} {v : Var} {b : Binding} (h : t.get? v = some b) (w : Var) :
    (t.dropOne v b).get? w = lower (t.get? w) ([v].count w) := by
  by_cases hw : w = v
  · subst hw
    unfold dropOne
    rw [List.count_singleton_self, h]
    split
    · rename_i hb
      rw [get?_remove, if_pos rfl, lower, if_pos (by omega)]
    · rename_i hb
      rw [get?_put, if_pos rfl, lower, if_neg (by omega)]
  · have hcount : [v].count w = 0 := List.count_eq_zero.mpr (by simpa using hw)
    rw [hcount]
    unfold dropOne
    split
    · rw [get?_remove, if_neg hw]
      cases t.get? w <;> rfl
    · rw [get?_put, if_neg hw]
      cases t.get? w <;> rfl

/-! ## Order -/

/-- The entries stand in the order of their ids, one for each. -/
def Ordered (entries : List (Var × Binding)) : Prop := entries.Pairwise fun e e' => e.1.id < e'.1.id

theorem eq_of_ordered {β : Type} {l l' : List (Var × β)}
    (h : l.Pairwise fun e e' => e.1.id < e'.1.id) (h' : l'.Pairwise fun e e' => e.1.id < e'.1.id)
    (hmem : ∀ e, e ∈ l ↔ e ∈ l') : l = l' := by
  have hnodup : ∀ {k : List (Var × β)}, k.Pairwise (fun e e' => e.1.id < e'.1.id) → k.Nodup := by
    intro k hk
    apply hk.imp
    rintro e f hlt rfl
    exact Nat.lt_irrefl _ hlt
  apply List.Perm.eq_of_pairwise _ h h'
  · exact (List.perm_ext_iff_of_nodup (hnodup h) (hnodup h')).mpr hmem
  · intro e f _ _ hef hfe
    omega

theorem mem_insert {v : Var} {b : Binding} {e : Var × Binding} {entries : List (Var × Binding)}
    (h : e ∈ insert v b entries) : e = (v, b) ∨ e ∈ entries := by
  induction entries with
  | nil => exact Or.inl (List.mem_singleton.mp h)
  | cons f rest ih =>
    obtain ⟨u, c⟩ := f
    unfold insert at h
    split at h
    · rcases List.mem_cons.mp h with rfl | h
      · exact Or.inl rfl
      · exact Or.inr (List.mem_cons_of_mem _ h)
    · split at h
      · exact List.mem_cons.mp h
      · rcases List.mem_cons.mp h with rfl | h
        · exact Or.inr List.mem_cons_self
        · exact (ih h).imp_right (List.mem_cons_of_mem _)

theorem ordered_insert (v : Var) (b : Binding) {entries : List (Var × Binding)}
    (h : Ordered entries) : Ordered (insert v b entries) := by
  induction entries with
  | nil => exact List.pairwise_singleton _ _
  | cons e rest ih =>
    obtain ⟨u, c⟩ := e
    obtain ⟨hhead, htail⟩ := List.pairwise_cons.mp h
    unfold insert
    split
    · rename_i hu
      subst hu
      exact List.pairwise_cons.mpr ⟨hhead, htail⟩
    · rename_i hu
      split
      · rename_i hlt
        refine List.pairwise_cons.mpr ⟨?_, h⟩
        intro e he
        rcases List.mem_cons.mp he with rfl | he
        · exact hlt
        · exact Nat.lt_trans hlt (hhead e he)
      · rename_i hlt
        refine List.pairwise_cons.mpr ⟨?_, ih htail⟩
        intro e he
        rcases mem_insert he with rfl | he
        · have : u.id ≠ v.id := fun hid => hu (Var.eq_of_id_eq hid)
          show u.id < v.id
          omega
        · exact hhead e he

theorem ordered_erase (v : Var) {entries : List (Var × Binding)} (h : Ordered entries) :
    Ordered (erase v entries) := List.Pairwise.filter _ h

theorem ordered_dropOne {t : Bindings} (v : Var) (b : Binding) (h : Ordered t.entries) :
    Ordered (t.dropOne v b).entries := by
  unfold dropOne
  split
  · exact ordered_erase v h
  · exact ordered_insert v _ h

theorem lookup_eq_some_iff {v : Var} {b : Binding} {entries : List (Var × Binding)}
    (h : Ordered entries) : lookup v entries = some b ↔ (v, b) ∈ entries := by
  induction entries with
  | nil => simp [lookup]
  | cons e rest ih =>
    obtain ⟨u, c⟩ := e
    obtain ⟨hhead, htail⟩ := List.pairwise_cons.mp h
    simp only [lookup]
    split
    · rename_i hu
      subst hu
      -- Only the head can hold `u`: all entries behind it have larger ids.
      have hrest : (u, b) ∉ rest := fun hm => Nat.lt_irrefl _ (hhead (u, b) hm)
      simp [hrest, eq_comm]
    · rename_i hu
      simp [ih htail, Ne.symm hu]

theorem mem_entries_iff {t : Bindings} (h : Ordered t.entries) {v : Var} {b : Binding} :
    (v, b) ∈ t.entries ↔ t.get? v = some b := (lookup_eq_some_iff h).symm

theorem entries_ext {t u : Bindings} (h : Ordered t.entries) (hu : Ordered u.entries)
    (hget : ∀ v, t.get? v = u.get? v) : t.entries = u.entries := by
  apply eq_of_ordered h hu
  rintro ⟨v, b⟩
  rw [mem_entries_iff h, mem_entries_iff hu, hget]

theorem freshId_eq_next {t : Bindings} (h : ∀ e ∈ t.entries, e.1.id < t.next) :
    t.freshId = t.next := by
  unfold freshId
  suffices ∀ entries : List (Var × Binding), (∀ e ∈ entries, e.1.id < t.next) →
      entries.foldl (fun id e => if e.1.id = id then id + 1 else id) t.next = t.next from
    this _ h
  intro entries hlt
  induction entries with
  | nil => rfl
  | cons e rest ih =>
    have := hlt e List.mem_cons_self
    rw [List.foldl_cons, if_neg (by omega)]
    exact ih fun e he => hlt e (List.mem_cons_of_mem _ he)

/-! ## All bindings at once -/

/-- The table with all its bindings changed alike. -/
def map (g : Binding → Binding) (t : Bindings) : Bindings :=
  { t with entries := t.entries.map fun e => (e.1, g e.2) }

variable (g : Binding → Binding) (t : Bindings)

theorem map_map_of_inverse {g h : Binding → Binding} (hg : ∀ b, h (g b) = b) (t : Bindings) :
    (t.map g).map h = t := by
  cases t
  simp [map, Function.comp_def, hg]

theorem get?_map (v : Var) : (t.map g).get? v = (t.get? v).map g := by
  unfold get? map
  induction t.entries with
  | nil => rfl
  | cons e rest ih =>
    simp only [List.map_cons, lookup, ih]
    split <;> rfl

theorem chainBound_map : (t.map g).chainBound = t.chainBound := by
  simp [chainBound, map]

theorem put_map (v : Var) (b : Binding) : (t.put v b).map g = (t.map g).put v (g b) := by
  unfold put map
  simp only [mk.injEq, and_true]
  induction t.entries with
  | nil => rfl
  | cons e rest ih =>
    obtain ⟨w, c⟩ := e
    simp only [insert, List.map_cons]
    split
    · rfl
    · split
      · rfl
      · rw [List.map_cons, ih]

theorem remove_map (v : Var) : (t.remove v).map g = (t.map g).remove v := by
  unfold remove map erase
  rw [List.filter_map]
  rfl

theorem freshId_map : (t.map g).freshId = t.freshId := by
  unfold freshId map
  rw [List.foldl_map]

end Bindings

end LawProof
