import LawProof.Proofs.Atomicity
import LawProof.Proofs.Discipline
import LawProof.Proofs.Equations
import LawProof.Proofs.Meaning

/-!
# Bounds on the tape

Here every access to the tape is checked, and a bad one is a fault. Each law keeps to the discipline
of work in place, so no fault ever comes up, and the checks change nothing. What a law does to the
tape does not depend on the counts, so all this holds however occurrences are counted.
-/

namespace LawProof

/-- An access that is out of bounds. -/
inductive Fault where
  | read (i : Nat)
  | write (i : Nat)
  | left (src dst : Nat)
  | right (src dst : Nat)
deriving DecidableEq, Repr

/-! ## Checked accesses -/

namespace Op

/-- An operation may look only below the end marker, write only on the tape, and move only what is
there and only to where there is room. -/
def check (f : Formula) {α : Type} : Op α → Except Fault Unit
  | .load i => if i < f.stop then .ok () else .error (.read i)
  | .store i _ => if i < f.capacity then .ok () else .error (.write i)
  | .swap i j =>
    if i < f.stop then if j < f.stop then .ok () else .error (.read j) else .error (.read i)
  | .shiftLeft src dst => if dst ≤ src ∧ src ≤ f.stop then .ok () else .error (.left src dst)
  | .shiftRight src dst =>
    if src ≤ dst ∧ src ≤ f.stop ∧ f.stop + (dst - src) < f.capacity then .ok ()
    else .error (.right src dst)
  | _ => .ok ()

def runChecked (c : Counting Id) {α : Type} (op : Op α) (s : State) : Except Fault (α × State) :=
  (op.check s.formula).map fun _ => (op.runBy c s : α × State)

end Op

/-- Works a law in place with every access to the tape checked. -/
def State.applyChecked (c : Counting Id) (s : State) (law : Law) (i : Nat) :
    Except Fault (Bool × State) :=
  (Work.apply law i).runWith (Op.runChecked c) s

/-! ## No fault -/

section

variable {α : Type} {Q : α → Nat → Way → Prop} {s : State} {way : Way} (c : Counting Id)

theorem Op.runChecked_eq {op : Op α} (h : op.wp s.formula.capacity Q s.formula.stop way) :
    op.runChecked c s = .ok (op.runBy c s) := by
  have hcheck : op.check s.formula = .ok () := by
    cases op with
    | load i | store i x => exact if_pos h.1
    | swap i j => simp [check, h.1, h.2.1]
    | shiftLeft src dst | shiftRight src dst => exact if_pos h.1
    | _ => rfl
  unfold runChecked
  rw [hcheck]
  rfl

theorem Work.runChecked_eq {w : Work α} (h : w.wp s.formula.capacity Q s.formula.stop way) :
    w.runWith (Op.runChecked c) s = .ok (w.runBy c s) := by
  induction w generalizing s way with
  | done a => rfl
  | step op next ih =>
    obtain ⟨hcapacity, hnext⟩ := Op.wp_runBy c h
    show (op.runChecked c s >>= fun r => (next r.1).runWith (Op.runChecked c) r.2) = _
    rw [Op.runChecked_eq c h]
    exact ih _ (by rw [hcapacity]; exact hnext)

end

theorem State.applyChecked_eq (c : Counting Id) (s : State) (law : Law) (i : Nat) :
    s.applyChecked c law i = .ok (s.applyBy c law i) :=
  Work.runChecked_eq c (Work.wp_apply s.formula.stop_lt law i)

/-! ## The tape along a run -/

namespace Formula

variable {f : Formula} {i : Nat}

theorem get?_stop_splice {width : Nat} {symbols : List Symbol} (h : f.Fits i width symbols) :
    (f.splice i width symbols).get? (f.splice i width symbols).stop = f.get? f.stop := by
  have hin := h.inside
  have hstop := f.stop_lt
  have hlen : (f.cells.take i ++ symbols).length = i + symbols.length := by
    rw [List.length_append, List.length_take]
    omega
  unfold get?
  rw [cells_splice h, stop_splice h, List.append_assoc (f.cells.take i ++ symbols),
    List.getElem?_append_right (by omega), hlen, Nat.add_sub_cancel_left,
    List.getElem?_append_left (by rw [List.length_take, List.length_drop]; omega),
    List.getElem?_take_of_lt (by omega), List.getElem?_drop, Nat.add_sub_cancel' hin]

end Formula

theorem Law.Rewrites.simple {law : Law} {t t' : Bindings} {old new : List Symbol}
    (h : law.Rewrites t old new t') (ht : t.Simple) : t'.Simple := by
  cases h with
  | @rule _ r σ _ _ => exact (Bindings.within_foldl_recount r σ Slot.all t).simple ht
  | @collapse d hd =>
    intro v e he
    unfold Bindings.define Bindings.definition? at he
    simp only [Bindings.fresh, Bindings.get?_put] at he
    split at he
    · obtain rfl := Option.some.inj he
      exact hd
    · exact ht v e he
  | @spellOut v d _ => exact (t.within_expand (.var v)).simple ht

/-- The table of a run with some other way of counting: the same, or at least without definitions
that were not in the table at the start. -/
def Bindings.Follows (start : Bindings) : Way → Bindings → Bindings → Prop
  | .none, t, t' => t' = t ∧ t = start
  | .named, t, t' => t' = t
  | _, _, t' => t'.Within start

theorem Counting.simulates_follows (c : Counting Id) (start : Bindings) :
    c.Simulates start.Follows where
  none h := h.1
  retain := by
    rintro _ t t' x (rfl | rfl) h
    · obtain ⟨rfl, rfl⟩ := h
      exact t'.within_retainBy c x
    · exact (t'.within_retainBy c x).trans h
  release := by
    rintro _ t t' x (rfl | rfl) h
    · obtain ⟨rfl, rfl⟩ := h
      exact t'.within_releaseBy c x
    · exact (t'.within_releaseBy c x).trans h
  expand := by
    rintro _ t t' x (rfl | rfl) h
    · obtain ⟨rfl, rfl⟩ := h
      exact t'.within_expandBy c x
    · exact (t'.within_expandBy c x).trans h
  define _ _ := rfl

namespace State

/-- The end marker stands where it should. -/
def Marked (s : State) : Prop := s.formula.get? s.formula.stop = some .stop

theorem Marked.step? {s u : State} {step : Step} (h : s.Marked) (hu : s.step? step = some u) :
    u.Marked := by
  obtain ⟨e, he, rfl⟩ := Option.map_eq_some_iff.mp hu
  exact (Formula.get?_stop_splice (fits_of_performs (Law.edit?_eq_some he)).2).trans h

theorem marked_ofFormula {body : List Symbol} {slack : Nat} {f : Formula}
    (hf : Formula.ofBody body slack = .ok f) : (ofFormula f).Marked := by
  obtain ⟨-, -, -, vars, -, rfl⟩ := Formula.ofBody_eq_ok_iff.mp hf
  show (body ++ List.replicate (slack + 1) Symbol.stop)[body.length]? = some .stop
  rw [List.getElem?_append_right (Nat.le_refl _), Nat.sub_self]
  rfl

theorem after_capacity (s : State) (p : Proof) :
    (s.after p).formula.capacity = s.formula.capacity ∧ (s.after p).formula.vars = s.formula.vars :=
  after_preserves
    (P := fun u => u.formula.capacity = s.formula.capacity ∧ u.formula.vars = s.formula.vars)
    (fun _ _ _ _ hs hstep => ⟨hstep.capacity.trans hs.1, hstep.vars.trans hs.2⟩) ⟨rfl, rfl⟩ p

/-- What holds of the tape of `f` and of the definitions all along a run. -/
structure Seated (f : Formula) (s : State) : Prop where
  capacity : s.formula.capacity = f.capacity
  vars : s.formula.vars = f.vars
  marked : s.Marked
  tree : s.IsTree
  simple : s.table.Simple

variable {f : Formula} {s u : State}

theorem Seated.step? {step : Step} (h : s.Seated f) (hu : s.step? step = some u) : u.Seated f := by
  have hstep := step?_eq_some hu
  obtain ⟨_, _, _, -, -, hr⟩ := hstep.replaced
  exact ⟨hstep.capacity.trans h.capacity, hstep.vars.trans h.vars, h.marked.step? hu,
    h.tree.steps h.simple hstep, hr.simple h.simple⟩

theorem Seated.applyBy (c : Counting Id) (h : s.Seated f) (law : Law) (i : Nat) :
    (s.applyBy c law i : Bool × State).2.Seated f := by
  obtain ⟨-, hformula, way, htable⟩ :=
    applyBy_simulates (c.simulates_follows s.table) ⟨rfl, rfl⟩ law i
  have hexact : (s.applyBy .exact law i : Bool × State).2.Seated f := by
    rw [show s.applyBy .exact law i = _ from s.applyInPlace_eq law i, snd_take]
    unfold attempt
    cases hu : s.step? ⟨law, i⟩ with
    | none => exact h
    | some u => exact h.step? hu
  obtain ⟨hcapacity, hvars, hmarked, htree, hsimple⟩ := hexact
  unfold Marked IsTree at *
  rw [← hformula] at hcapacity hvars hmarked htree
  refine ⟨hcapacity, hvars, hmarked, htree, ?_⟩
  cases way with
  | none => exact htable.1 ▸ hsimple
  | named => exact htable.symm ▸ hsimple
  | up | down => exact htable.simple h.simple

theorem Seated.afterBy (c : Counting Id) (h : s.Seated f) (p : Proof) :
    Seated f (s.afterBy c p) := by
  induction p generalizing s with
  | nil => exact h
  | cons step p ih => exact ih (h.applyBy c step.law step.position)

theorem seated_ofFormula {body : List Symbol} {slack : Nat} (hf : Formula.ofBody body slack = .ok f)
    {t : Bindings} (ht : t.Simple) : Seated f ⟨f, t⟩ :=
  ⟨rfl, rfl, marked_ofFormula hf, isTree_ofFormula hf, ht⟩

end State

theorem Bindings.simple_ofBodyBy (c : Counting Id) (body : List Symbol) :
    Simple (ofBodyBy c body) := by
  unfold ofBodyBy
  rw [foldlM_id]
  refine List.foldlRecOn (motive := Simple) _ _ ?_ fun t ht s _ => (t.within_retainBy c s).simple ht
  simp [Simple, definition?, get?, empty, lookup]

namespace State

/-- Whatever steps are tried from a written formula, the end marker stands where a well-formed
formula ends, and no law that is tried next has an access out of bounds. -/
theorem tape_after {body : List Symbol} {slack : Nat} {f : Formula}
    (hf : Formula.ofBody body slack = .ok f) (c : Counting Id) (p : Proof) :
    let s : State := runBy c f p
    s.formula.capacity = f.capacity ∧ s.formula.vars = f.vars ∧
      s.formula.stop < s.formula.capacity ∧ s.formula.get? s.formula.stop = some .stop ∧
      .stop ∉ s.formula.body ∧ Body.checkSyntax s.formula.body = .ok () ∧
      ∀ law i, s.applyChecked c law i = .ok (s.applyBy c law i) := by
  intro s
  have h : s.Seated f :=
    (seated_ofFormula hf (Bindings.simple_ofBodyBy c f.body)).afterBy c p
  obtain ⟨t, ht⟩ := h.tree
  refine ⟨h.capacity, h.vars, s.formula.stop_lt, h.marked, ?_, ?_, s.applyChecked_eq c⟩
  · rw [← ht]
    exact Body.stop_notMem_text t
  · exact Body.checkSyntax_eq_ok_iff.mpr ⟨t, ht⟩

/-- After three steps the tape is full, and the two laws that are tried next find no room. -/
theorem tape_after_full :
    ∃ f, Formula.ofBody [.x 0] 7 = .ok f ∧
      ∃ s : State,
        s = runBy .word f [⟨.absorptionOr, 0⟩, ⟨.idempotentOr, 1⟩, ⟨.commutative, 6⟩] ∧
      s.formula.body = [.disj, .disj, .x 0, .x 0, .conj, .x 0, .neg, .fls] ∧
      s.formula.stop + 1 = s.formula.capacity ∧ s.formula.capacity = f.capacity ∧
      s.formula.get? 8 = some .stop ∧ Body.checkSyntax s.formula.body = .ok () ∧
      s.applyChecked .word .complement 7 = .ok (false, s) ∧
      s.applyChecked .word .identityOr 5 = .ok (false, s) := by
  have hf : Formula.ofBody [.x 0] 7 = .ok (.ofParts [.x 0] 7 1) := by cbv
  obtain ⟨hcapacity, -, -, hmarked, -, hsyntax, hchecked⟩ := tape_after hf .word
    [⟨.absorptionOr, 0⟩, ⟨.idempotentOr, 1⟩, ⟨.commutative, 6⟩]
  refine ⟨_, hf, _, rfl, by decide, by decide, hcapacity, hmarked, hsyntax, ?_, ?_⟩
  · rw [hchecked]
    rfl
  · rw [hchecked]
    rfl

end State

end LawProof
