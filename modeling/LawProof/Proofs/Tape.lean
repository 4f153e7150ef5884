import LawProof.Formula

/-!
# The tape

What a formula can be built from, and what a splice leaves on the tape: where the result fits, the
body changes in the one place and nowhere else, and the tape keeps its capacity.
-/

namespace LawProof.Formula

theorem length_body (f : Formula) : f.body.length = f.stop := by
  unfold body
  have := f.stop_lt
  rw [List.length_take]
  omega

theorem stop_add_slack (f : Formula) : f.stop + f.slack + 1 = f.capacity := by
  unfold slack capacity
  have := f.stop_lt
  omega

/-! ## Written formulas -/

/-- What holds of the body of a formula as it was written. -/
structure Written (body : List Symbol) : Prop where
  inputs : ∀ v, .var v ∈ body → v.isSynthetic = false
  wellFormed : Body.checkSyntax body = .ok ()

theorem inputs_of_forbidden?_eq_none {body : List Symbol} {position : Nat}
    (h : forbidden? position body = none) (v : Var) (hv : .var v ∈ body) :
    v.isSynthetic = false := by
  fun_induction forbidden? position body with
  | case1 => simp at hv
  | case2 => simp at h
  | case3 => simp at h
  | case4 position w rest hw ih =>
    rcases List.mem_cons.mp hv with heq | hv
    · rw [Symbol.var.injEq] at heq
      rw [heq]
      simpa using hw
    · exact ih h hv
  | case5 position s rest _ hs ih =>
    rcases List.mem_cons.mp hv with heq | hv
    · exact absurd heq.symm (hs v)
    · exact ih h hv

theorem forbidden?_eq_none {body : List Symbol} (hstop : .stop ∉ body)
    (hinputs : ∀ v, .var v ∈ body → v.isSynthetic = false) (position : Nat) :
    forbidden? position body = none := by
  fun_induction forbidden? position body with
  | case1 => rfl
  | case2 => simp at hstop
  | case3 position v rest hv =>
    rw [hinputs v List.mem_cons_self] at hv
    simp at hv
  | case4 position v rest _ ih | case5 position v rest _ _ ih =>
    exact ih (fun hmem => hstop (List.mem_cons_of_mem _ hmem))
      fun w hw => hinputs w (List.mem_cons_of_mem _ hw)

theorem body_ofParts (body : List Symbol) (slack vars : Nat) :
    (ofParts body slack vars).body = body := List.take_left

theorem slack_ofParts (body : List Symbol) (slack vars : Nat) :
    (ofParts body slack vars).slack = slack := by
  simp [Formula.slack, capacity, ofParts]

/-- What a body and a slack must be for a formula, and which one they make. -/
theorem ofBody_eq_ok_iff {body : List Symbol} {slack : Nat} {f : Formula} :
    ofBody body slack = .ok f ↔ minSlack ≤ slack ∧ forbidden? 0 body = none ∧
      Body.checkSyntax body = .ok () ∧
      ∃ vars, Body.countVariables body = .ok vars ∧ f = ofParts body slack vars := by
  unfold ofBody
  by_cases hslack : slack < minSlack
  · rw [if_pos hslack]
    simp
    omega
  · rw [if_neg hslack]
    cases forbidden? 0 body with
    | some e => simp
    | none =>
      cases Body.checkSyntax body with
      | error e => simp
      | ok u =>
        cases Body.countVariables body with
        | error e => simp
        | ok vars =>
          simp only [Except.ok.injEq, exists_eq_left', true_and, eq_comm (a := f)]
          exact ⟨fun h => ⟨by omega, h⟩, fun h => h.2⟩

theorem ofBody_eq_ok {body : List Symbol} {slack : Nat} {f : Formula}
    (h : ofBody body slack = .ok f) : Written body ∧ f.body = body := by
  obtain ⟨-, hforbidden, hsyntax, vars, -, rfl⟩ := ofBody_eq_ok_iff.mp h
  exact ⟨⟨inputs_of_forbidden?_eq_none hforbidden, hsyntax⟩, body_ofParts ..⟩

/-! ## Splices -/

theorem cells_shift {f : Formula} {src dst : Nat} (hsrc : src ≤ f.stop)
    (hdst : dst + (f.stop - src) < f.capacity) :
    (f.shift src dst).cells = f.cells.take dst ++ (f.cells.drop src).take (f.stop + 1 - src) ++
      f.cells.drop (dst + (f.stop + 1 - src)) := by
  unfold shift
  rw [dif_pos ⟨hsrc, hdst⟩]

theorem stop_shift {f : Formula} {src dst : Nat} (hsrc : src ≤ f.stop)
    (hdst : dst + (f.stop - src) < f.capacity) :
    (f.shift src dst).stop = dst + (f.stop - src) := by
  unfold shift
  rw [dif_pos ⟨hsrc, hdst⟩]

theorem vars_splice (f : Formula) (i width : Nat) (put : List Symbol) :
    (f.splice i width put).vars = f.vars := by
  unfold splice write shift
  split <;> rfl

/-- The symbols that a splice takes out are there, and those that it puts in fit. -/
structure Fits (f : Formula) (i width : Nat) (put : List Symbol) : Prop where
  inside : i + width ≤ f.stop
  room : put.length ≤ width + f.slack

section

variable {f : Formula} {i width : Nat} {put : List Symbol}

theorem Fits.shift_lt (h : f.Fits i width put) :
    i + put.length + (f.stop - (i + width)) < f.capacity := by
  have := h.inside
  have := h.room
  have := f.stop_add_slack
  omega

theorem stop_splice (h : f.Fits i width put) :
    (f.splice i width put).stop = i + put.length + (f.stop - (i + width)) := by
  unfold splice write
  exact stop_shift h.inside h.shift_lt

theorem cells_splice (h : f.Fits i width put) :
    (f.splice i width put).cells = f.cells.take i ++ put ++
      (f.cells.drop (i + width)).take (f.stop + 1 - (i + width)) ++
        f.cells.drop (i + put.length + (f.stop + 1 - (i + width))) := by
  have hin := h.inside
  have hlt := h.shift_lt
  have hstop := f.stop_lt
  unfold capacity at hlt
  have hdst : (f.cells.take (i + put.length)).length = i + put.length := by
    rw [List.length_take]
    omega
  unfold splice write
  simp only [cells_shift hin h.shift_lt]
  rw [List.append_assoc (f.cells.take (i + put.length)), List.drop_left' hdst,
    List.take_append_of_le_length (by omega), List.take_take, Nat.min_eq_left (by omega)]
  simp only [List.append_assoc]

theorem capacity_splice (h : f.Fits i width put) :
    (f.splice i width put).capacity = f.capacity := by
  have hin := h.inside
  have hlt := h.shift_lt
  have hstop := f.stop_lt
  unfold capacity at *
  rw [cells_splice h]
  simp only [List.length_append, List.length_take, List.length_drop]
  omega

theorem body_splice (h : f.Fits i width put) :
    (f.splice i width put).body = f.body.take i ++ put ++ f.body.drop (i + width) := by
  have hin := h.inside
  have hstop := f.stop_lt
  have hlen : (f.cells.take i ++ put).length = i + put.length := by
    rw [List.length_append, List.length_take]
    omega
  unfold body
  rw [cells_splice h, stop_splice h, List.append_assoc _ _ (f.cells.drop _), ← hlen,
    List.take_length_add_append, List.take_append_of_le_length (by simp; omega), List.take_take,
    List.take_take, List.drop_take]
  congr 2 <;> congr 1 <;> omega

end

end LawProof.Formula
