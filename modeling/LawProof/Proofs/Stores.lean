import LawProof.Proofs.Edits

/-!
# Stores

A law that works on the tape cell by cell comes to the same as one splice: stores into a few cells
are one write of what they leave there, whatever their order, before or behind a move. And where a
rule can be used is told by what the cells hold.
-/

namespace LawProof

/-! ## Cells -/

namespace Formula

variable {f : Formula} {i : Nat} {w : List Symbol}

theorem hasRoom_iff {n m : Nat} : f.hasRoom (n - m) = true ↔ n ≤ m + f.slack := by
  have := f.stop_add_slack
  have := f.stop_lt
  unfold hasRoom
  rw [decide_eq_true_iff]
  omega

theorem write_set (f : Formula) {i : Nat} (h : i < f.capacity) (s : Symbol)
    (symbols : List Symbol) : (f.set i s).write (i + 1) symbols = f.write i (s :: symbols) := by
  have htake : (f.cells.take i).length = i := List.length_take_of_le (Nat.le_of_lt h)
  have hfront : (f.cells.take i).take (i + 1) = f.cells.take i :=
    List.take_of_length_le (by omega)
  have hback : (f.cells.take i).drop (i + 1 + symbols.length) = [] :=
    List.drop_eq_nil_of_le (by omega)
  have hcells : f.cells.set i s = f.cells.take i ++ s :: f.cells.drop (i + 1) := by
    rw [List.set_eq_take_append_cons_drop]
    exact if_pos h
  unfold write set
  simp only [hcells, mk.injEq, and_true]
  rw [List.take_append, List.drop_append, htake, hfront, hback]
  simp [Nat.add_comm, Nat.add_left_comm]

theorem capacity_shift {src dst : Nat} (hsrc : src ≤ f.stop)
    (hdst : dst + (f.stop - src) < f.capacity) : (f.shift src dst).capacity = f.capacity := by
  have hstop := f.stop_lt
  unfold capacity at *
  rw [cells_shift hsrc hdst]
  simp only [List.length_append, List.length_take, List.length_drop]
  omega

theorem cell_eq_getElem (h : i < f.cells.length) : f.cell i = f.cells[i] := by
  unfold cell get?
  rw [List.getElem?_eq_getElem h, Option.getD_some]

theorem eq_of_cells {g : Formula} (hcells : f.cells = g.cells) (hstop : f.stop = g.stop)
    (hvars : f.vars = g.vars) : f = g := by
  cases f
  cases g
  simp_all

theorem drop_body (h : i < f.stop) : f.body.drop i = f.cell i :: f.body.drop (i + 1) := by
  have hlt : i < f.body.length := by
    rw [f.length_body]
    exact h
  rw [List.drop_eq_getElem_cons hlt, cell_eq_getElem (Nat.lt_trans h f.stop_lt)]
  simp only [body, List.getElem_take]

theorem drop_body_of_le (h : f.stop ≤ i) : f.body.drop i = [] :=
  List.drop_eq_nil_of_le (by rw [f.length_body]; exact h)

theorem capacity_write (h : i + w.length ≤ f.capacity) : (f.write i w).capacity = f.capacity := by
  unfold capacity write at *
  simp only [List.length_append, List.length_take, List.length_drop]
  omega

theorem set_cell (h : i < f.capacity) : f.set i (f.cell i) = f := by
  have hi : i < f.cells.length := h
  unfold set
  rw [cell_eq_getElem hi]
  simp only [List.set_getElem_self]

theorem write_cells (f : Formula) (n : Nat) (h : i + n ≤ f.capacity) :
    f.write i ((List.range' i n).map f.cell) = f := by
  induction n generalizing i with
  | zero => simp [write]
  | succ n ih =>
    rw [List.range'_succ, List.map_cons, ← f.write_set (by omega), set_cell (by omega)]
    exact ih (by omega)

theorem set_write (h : i + w.length ≤ f.capacity) {k : Nat} (hk : k < w.length) (x : Symbol) :
    (f.write i w).set (i + k) x = f.write i (w.set k x) := by
  unfold capacity at h
  have htake : (f.cells.take i).length = i := List.length_take_of_le (by omega)
  unfold set write
  simp only [List.length_set, mk.injEq, and_true]
  rw [List.set_append_left _ _ (by rw [List.length_append]; omega),
    List.set_append_right _ _ (by omega), htake, Nat.add_sub_cancel_left]

/-! ## Many stores -/

/-- Stores one after the other, each at its distance from `i`. -/
def stores (f : Formula) (i : Nat) (l : List (Nat × Symbol)) : Formula :=
  l.foldl (fun g e => g.set (i + e.1) e.2) f

theorem length_foldl_set (l : List (Nat × Symbol)) (w : List Symbol) :
    (l.foldl (fun w e => w.set e.1 e.2) w).length = w.length := by
  induction l generalizing w with
  | nil => rfl
  | cons e l ih => rw [List.foldl_cons, ih, List.length_set]

theorem stores_eq (f : Formula) (n : Nat) (l : List (Nat × Symbol)) (h : i + n ≤ f.capacity)
    (hl : ∀ e ∈ l, e.1 < n) :
    f.stores i l =
      f.write i (l.foldl (fun w e => w.set e.1 e.2) ((List.range' i n).map f.cell)) := by
  have hstores : ∀ w, w.length = n →
      (f.write i w).stores i l = f.write i (l.foldl (fun w e => w.set e.1 e.2) w) := by
    induction l with
    | nil => exact fun _ _ => rfl
    | cons e l ih =>
      intro w hw
      have he : e.1 < w.length := by
        rw [hw]
        exact hl e List.mem_cons_self
      show ((f.write i w).set (i + e.1) e.2).stores i l = _
      rw [set_write (by omega) he, ih (fun e he => hl e (List.mem_cons_of_mem _ he))
        (w.set e.1 e.2) (by rw [List.length_set, hw])]
      rfl
  rw [← hstores _ (by simp), f.write_cells n h]

theorem cell_set_self (h : i < f.capacity) (x : Symbol) : (f.set i x).cell i = x := by
  have hi : i < f.cells.length := h
  unfold cell get? set
  simp [hi]

theorem cell_set_of_ne {j : Nat} (h : j ≠ i) (x : Symbol) : (f.set j x).cell i = f.cell i := by
  unfold cell get? set
  simp only [List.getElem?_set_ne h]

theorem capacity_set (f : Formula) (i : Nat) (x : Symbol) : (f.set i x).capacity = f.capacity :=
  List.length_set

theorem swap_eq {j : Nat} (hi : i < f.capacity) (hj : j < f.capacity) :
    f.swap i j = (f.set i (f.cell j)).set j (f.cell i) := by
  have hi' : f.get? i = some f.cells[i] := List.getElem?_eq_getElem hi
  have hj' : f.get? j = some f.cells[j] := List.getElem?_eq_getElem hj
  unfold swap cell
  rw [hi', hj']
  rfl

theorem hasRoom_zero (f : Formula) : f.hasRoom 0 = true := decide_eq_true f.stop_lt

theorem cell_shift {src dst : Nat} (h : i < dst) : (f.shift src dst).cell i = f.cell i := by
  unfold shift
  split
  · rename_i hin
    have hstop := f.stop_lt
    unfold capacity at hin
    unfold cell get?
    simp only
    rw [List.append_assoc, List.getElem?_append_left (by rw [List.length_take]; omega),
      List.getElem?_take_of_lt h]
  · rfl

theorem shift_write {width : Nat} (hw : w.length ≤ width) (hin : i + width ≤ f.stop) :
    (f.write i w).shift (i + width) (i + w.length) = f.splice i width w := by
  have hstop := f.stop_lt
  have hlen : (f.cells.take i ++ w).length = i + w.length := by
    rw [List.length_append, List.length_take_of_le (by omega)]
  have hfits : f.Fits i width w := ⟨hin, by omega⟩
  have hdst : i + w.length + ((f.write i w).stop - (i + width)) < (f.write i w).capacity := by
    rw [capacity_write (by unfold capacity; omega)]
    exact hfits.shift_lt
  have hback : ∀ n, i + w.length ≤ n → (f.write i w).cells.drop n = f.cells.drop n := by
    intro n hn
    unfold write
    simp only
    rw [List.drop_append, List.drop_eq_nil_of_le (by omega), hlen, List.drop_drop,
      Nat.add_sub_cancel' hn, List.nil_append]
  have hfront : (f.write i w).cells.take (i + w.length) = f.cells.take i ++ w :=
    List.take_left' hlen
  apply eq_of_cells
  · rw [cells_shift (f := f.write i w) hin hdst, cells_splice hfits, hfront,
      hback _ (by omega), hback _ (by omega)]
    rfl
  · rw [stop_shift (f := f.write i w) hin hdst, stop_splice hfits]
    rfl
  · rw [vars_splice]
    unfold shift
    split <;> rfl

theorem shift_stores (n m : Nat) (l : List (Nat × Symbol)) (hin : i + n ≤ f.stop) (hm : m ≤ n)
    (hl : ∀ e ∈ l, e.1 < m) :
    (f.stores i l).shift (i + n) (i + m) =
      f.splice i n (l.foldl (fun w e => w.set e.1 e.2) ((List.range' i m).map f.cell)) := by
  have hcapacity : f.stop < f.capacity := f.stop_lt
  have hlen := length_foldl_set l ((List.range' i m).map f.cell)
  rw [List.length_map, List.length_range'] at hlen
  rw [f.stores_eq m l (by omega) hl, ← shift_write (by omega) hin, hlen]

theorem stores_shift (n m : Nat) (l : List (Nat × Symbol)) (hin : i + n ≤ f.stop)
    (hroom : f.hasRoom (m - n)) (hl : ∀ e ∈ l, e.1 < m) :
    (f.shift (i + n) (i + m)).stores i l =
      f.splice i n (l.foldl (fun w e => w.set e.1 e.2)
        ((List.range' i m).map f.cell)) := by
  have hdst : i + m + (f.stop - (i + n)) < f.capacity := by
    have := decide_eq_true_iff.mp hroom
    omega
  have hcells : (List.range' i m).map (f.shift (i + n) (i + m)).cell =
      (List.range' i m).map f.cell := by
    apply List.map_congr_left
    intro j hj
    rw [List.mem_range'_1] at hj
    exact cell_shift hj.2
  have hlen := length_foldl_set l ((List.range' i m).map f.cell)
  rw [List.length_map, List.length_range'] at hlen
  rw [stores_eq _ m l (by rw [capacity_shift hin hdst]; omega) hl, hcells]
  unfold splice
  rw [hlen]

theorem shift_self (f : Formula) (i : Nat) : f.shift i i = f := by
  unfold shift
  split
  · rename_i h
    apply eq_of_cells
    · simp only
      rw [List.append_assoc, ← List.drop_drop, List.take_append_drop, List.take_append_drop]
    · simp only
      omega
    · rfl
  · rfl

theorem swap_eq_splice (n : Nat) (hin : i + (n + 3) ≤ f.stop) :
    f.swap (i + 1) (i + 2) = f.splice i (n + 3)
      (f.cell i :: f.cell (i + 2) :: f.cell (i + 1) :: (List.range' (i + 3) n).map f.cell) := by
  have hcapacity : f.stop < f.capacity := f.stop_lt
  rw [swap_eq (by omega) (by omega), ← shift_self ((f.set _ _).set _ _) (i + (n + 3))]
  exact shift_stores (n + 3) (n + 3) [(1, f.cell (i + 2)), (2, f.cell (i + 1))] hin (Nat.le_refl _)
    (by simp)

end Formula

/-! ## Rules at a cell -/

namespace Formula

/-- The cells from `i` on hold what the pieces ask for, if the slots stand for `σ` so far. -/
def Holds (f : Formula) : List Piece → Nat → Filling → Prop
  | [], _, _ => True
  | .sym x :: pieces, i, σ => f.cell i = x ∧ f.Holds pieces (i + 1) σ
  | .slot x :: pieces, i, σ =>
    match σ.get? x with
    | some y => f.cell i = y ∧ f.Holds pieces (i + 1) σ
    | none => (f.cell i).isOperand ∧ f.Holds pieces (i + 1) (σ.put x (f.cell i))

/-- What the slots of the pieces stand for in the cells from `i` on. -/
def operands (f : Formula) : List Piece → Nat → Filling → Filling
  | [], _, σ => σ
  | .sym _ :: pieces, i, σ => f.operands pieces (i + 1) σ
  | .slot x :: pieces, i, σ =>
    match σ.get? x with
    | some _ => f.operands pieces (i + 1) σ
    | none => f.operands pieces (i + 1) (σ.put x (f.cell i))

theorem fit_eq_some_iff {f : Formula} {pieces : List Piece} {i : Nat}
    (h : i + pieces.length ≤ f.stop) {σ τ : Filling} :
    LawProof.fit pieces (f.body.drop i) σ = some τ ↔
      f.Holds pieces i σ ∧ τ = f.operands pieces i σ := by
  induction pieces generalizing i σ with
  | nil => simp [LawProof.fit, Holds, operands, eq_comm]
  | cons p pieces ih =>
    rw [List.length_cons] at h
    have hrest : ∀ σ, LawProof.fit pieces (f.body.drop (i + 1)) σ = some τ ↔
        f.Holds pieces (i + 1) σ ∧ τ = f.operands pieces (i + 1) σ := fun σ => ih (by omega)
    rw [drop_body (by omega)]
    cases p with
    | sym x =>
      simp only [LawProof.fit, Holds, operands, Option.ite_none_right_eq_some, hrest, and_assoc,
        @eq_comm _ x]
    | slot x =>
      simp only [LawProof.fit, Holds, operands]
      cases σ.get? x with
      | none => simp only [Option.ite_none_right_eq_some, hrest, and_assoc]
      | some y => simp only [Option.ite_none_right_eq_some, hrest, and_assoc, @eq_comm _ y]

end Formula

namespace Rule

/-- The rule can be used at a cell. -/
def LiesAt (r : Rule) (f : Formula) (i : Nat) : Prop :=
  i + r.source.length ≤ f.stop ∧ f.hasRoom (r.target.length - r.source.length) ∧
    f.Holds r.source i {}

/-- The edit that the rule makes at a cell. -/
def editAt (r : Rule) (s : State) (i : Nat) : Edit :=
  let σ := s.formula.operands r.source i {}
  ⟨r.source.length, r.target.map σ.fill, Slot.all.foldl (r.recount σ) s.table⟩

variable {s : State} {i : Nat} {r : Rule}

theorem edit?_eq_some_iff (hi : i < s.formula.stop) {e : Edit} :
    r.edit? s.table s.formula.slack (s.formula.body.drop i) = some e ↔
      r.LiesAt s.formula i ∧ e = r.editAt s i := by
  unfold edit? LiesAt
  rw [Formula.hasRoom_iff]
  cases hfit : fit r.source (s.formula.body.drop i) {} with
  | none =>
    have hnot : i + r.source.length ≤ s.formula.stop → ¬s.formula.Holds r.source i {} := by
      intro hlen hholds
      rw [(Formula.fit_eq_some_iff hlen).mpr ⟨hholds, rfl⟩] at hfit
      simp at hfit
    simp only [ite_self, reduceCtorEq, false_iff]
    exact fun h => hnot h.1.1 h.1.2.2
  | some σ =>
    have hlen : i + r.source.length ≤ s.formula.stop := by
      have := (fit_empty_eq_some hfit).2.length_le
      rw [List.length_map, List.length_drop, Formula.length_body] at this
      omega
    obtain ⟨hholds, rfl⟩ := (Formula.fit_eq_some_iff hlen).mp hfit
    simp only [Option.ite_none_right_eq_some, Option.some.injEq, hlen, hholds, true_and, and_true,
      @eq_comm _ e]
    rfl

end Rule

/-- The edit of the first of some rules that can be used at a position. -/
def State.firstEdit? (s : State) (i : Nat) (rules : List Rule) : Option Edit :=
  rules.findSome? fun r => r.edit? s.table s.formula.slack (s.formula.body.drop i)

theorem State.firstEdit?_append (s : State) (i : Nat) (rules rules' : List Rule) :
    s.firstEdit? i (rules ++ rules') = (s.firstEdit? i rules).or (s.firstEdit? i rules') :=
  List.findSome?_append

theorem State.firstEdit?_of_liesAt {s : State} {i : Nat} {r : Rule} (hi : i < s.formula.stop)
    (h : r.LiesAt s.formula i) (rules : List Rule) :
    s.firstEdit? i (r :: rules) = some (r.editAt s i) := by
  unfold firstEdit?
  rw [List.findSome?_cons, (Rule.edit?_eq_some_iff hi).mpr ⟨h, rfl⟩]

theorem State.firstEdit?_of_not_liesAt {s : State} {i : Nat} {r : Rule} (hi : i < s.formula.stop)
    (h : ¬r.LiesAt s.formula i) (rules : List Rule) :
    s.firstEdit? i (r :: rules) = s.firstEdit? i rules := by
  have hnone : r.edit? s.table s.formula.slack (s.formula.body.drop i) = none :=
    Option.eq_none_iff_forall_ne_some.mpr fun e he => h ((Rule.edit?_eq_some_iff hi).mp he).1
  unfold firstEdit?
  rw [List.findSome?_cons, hnone]

theorem State.firstEdit?_eq_none {s : State} {i : Nat} {rules : List Rule}
    (hi : i < s.formula.stop) (h : ∀ r ∈ rules, ¬r.LiesAt s.formula i) :
    s.firstEdit? i rules = none := by
  induction rules with
  | nil => rfl
  | cons r rules ih =>
    rw [firstEdit?_of_not_liesAt hi (h r List.mem_cons_self)]
    exact ih fun r' hr' => h r' (List.mem_cons_of_mem _ hr')

end LawProof
