import LawProof.Law.Work
import LawProof.Proofs.Limits
import LawProof.Proofs.Stores

/-!
# What work in place comes to

A test only looks at the state, so it stands for a property of the formula. The rest of the work is
followed operation by operation, and comes to one edit at a position, or to nothing at all.
-/

namespace LawProof

theorem Symbol.isBinary_dual {x : Symbol} (h : x.isBinary) : x.dual.isBinary := by
  cases x <;> simp [isBinary, dual] at h ⊢

theorem Symbol.dual_ne {x : Symbol} (h : x.isBinary) : x.dual ≠ x := by
  cases x <;> simp [isBinary, dual] at h ⊢

theorem Symbol.eq_or_eq_dual {x y : Symbol} (hx : x.isBinary) (hy : y.isBinary) :
    y = x ∨ y = x.dual := by
  cases x <;> cases y <;> simp [isBinary, dual] at hx hy ⊢

theorem Symbol.isOperand_eq_false {x : Symbol} (h : x.isBinary) : x.isOperand = false := by
  cases x <;> simp [isBinary, isOperand] at h ⊢

theorem Symbol.dominates_iff {op x : Symbol} :
    op.dominates x ↔ op.isBinary ∧ x = constant (op = .disj) := by
  cases op <;> cases x <;> simp [dominates, isBinary, constant]

theorem Symbol.value?_constant (v : Bool) : (constant v).value? = some v := by
  cases v <;> rfl

theorem Symbol.eq_constant {x : Symbol} {v : Bool} (h : x.value? = some v) : x = constant v := by
  cases x <;> simp [value?] at h <;> subst h <;> rfl

namespace Op

theorem run_retain (x : Symbol) (s : State) :
    (retain x).runBy .exact s = ((), ⟨s.formula, s.table.retain x⟩) := by
  rw [← Bindings.retainBy_exact]
  rfl

theorem run_release (x : Symbol) (s : State) :
    (release x).runBy .exact s = ((), ⟨s.formula, s.table.release x⟩) := by
  rw [← Bindings.releaseBy_exact]
  rfl

theorem run_spellOut (x : Symbol) (s : State) :
    (spellOut x).runBy .exact s = ((), ⟨s.formula, s.table.expand x⟩) := by
  rw [← Bindings.expandBy_exact]
  rfl

end Op

namespace Work

/-- Runs the work, with counts that have no bound. -/
def run {α : Type} (w : Work α) (s : State) : α × State := w.runBy .exact s

/-! ## How work runs -/

section

variable {α β : Type} (s : State)

theorem run_bind (w : Work α) (k : α → Work β) :
    (w >>= k).run s = (k (w.run s).1).run (w.run s).2 := by
  induction w generalizing s with
  | done a => rfl
  | step op next ih => exact ih (op.runBy .exact s).1 (op.runBy .exact s).2

theorem run_load (i : Nat) (k : Symbol → Work α) :
    (liftM (Op.load i) >>= k).run s = (k (s.formula.cell i)).run s := rfl

theorem run_store (i : Nat) (x : Symbol) (k : Unit → Work α) :
    (liftM (Op.store i x) >>= k).run s = (k ()).run ⟨s.formula.set i x, s.table⟩ := rfl

theorem run_swap (i j : Nat) (k : Unit → Work α) :
    (liftM (Op.swap i j) >>= k).run s = (k ()).run ⟨s.formula.swap i j, s.table⟩ := rfl

theorem run_shiftLeft (src dst : Nat) (k : Unit → Work α) :
    (liftM (Op.shiftLeft src dst) >>= k).run s = (k ()).run ⟨s.formula.shift src dst, s.table⟩ :=
  rfl

theorem run_shiftRight (src dst : Nat) (k : Unit → Work α) :
    (liftM (Op.shiftRight src dst) >>= k).run s = (k ()).run ⟨s.formula.shift src dst, s.table⟩ :=
  rfl

theorem run_retain (x : Symbol) (k : Unit → Work α) :
    (liftM (Op.retain x) >>= k).run s = (k ()).run ⟨s.formula, s.table.retain x⟩ :=
  congrArg (fun r : Unit × State => (k r.1).run r.2) (Op.run_retain x s)

theorem run_release (x : Symbol) (k : Unit → Work α) :
    (liftM (Op.release x) >>= k).run s = (k ()).run ⟨s.formula, s.table.release x⟩ :=
  congrArg (fun r : Unit × State => (k r.1).run r.2) (Op.run_release x s)

theorem run_spellOut (x : Symbol) (k : Unit → Work α) :
    (liftM (Op.spellOut x) >>= k).run s = (k ()).run ⟨s.formula, s.table.expand x⟩ :=
  congrArg (fun r : Unit × State => (k r.1).run r.2) (Op.run_spellOut x s)

theorem run_define (d : Definition) (k : Symbol → Work α) :
    (liftM (Op.define d) >>= k).run s =
      (k (.var (s.table.define d).1)).run ⟨s.formula, (s.table.define d).2⟩ := rfl

theorem run_definition? (x : Symbol) (k : Option Definition → Work α) :
    (liftM (Op.definition? x) >>= k).run s = (k (x.var?.bind s.table.definition?)).run s := rfl

theorem run_pure (x : α) : (pure x : Work α).run s = (x, s) := rfl

end

/-! ## Tests -/

/-- The work only looks at the state, and finds out whether something holds of the formula. -/
class Tests (t : Work Bool) (p : outParam (Formula → Prop)) : Prop where
  run_eq : ∀ s, ∃ b, t.run s = (b, s) ∧ (b = true ↔ p s.formula)

section

variable {α : Type} {t t' : Work Bool} {p p' : Formula → Prop} {m m' : Work α} {s : State}

instance (n : Nat) : Tests (fits n) fun f => n ≤ f.stop := ⟨fun _ => ⟨_, rfl, decide_eq_true_iff⟩⟩

instance (growth : Nat) : Tests (room growth) fun f => f.hasRoom growth :=
  ⟨fun _ => ⟨_, rfl, Iff.rfl⟩⟩

instance (i : Nat) (x : Symbol) : Tests (finds i x) fun f => f.cell i = x :=
  ⟨fun _ => ⟨_, rfl, beq_iff_eq⟩⟩

instance (i : Nat) (q : Symbol → Bool) : Tests (holds i q) fun f => q (f.cell i) :=
  ⟨fun _ => ⟨_, rfl, Iff.rfl⟩⟩

instance (i j : Nat) : Tests (same i j) fun f => f.cell i = f.cell j :=
  ⟨fun _ => ⟨_, rfl, beq_iff_eq⟩⟩

instance (i j : Nat) : Tests (isDual i j) fun f => f.cell i = (f.cell j).dual :=
  ⟨fun _ => ⟨_, rfl, beq_iff_eq⟩⟩

instance (i : Nat) : Tests (dominated i) fun f => (f.cell i).dominates (f.cell (i + 2)) :=
  ⟨fun _ => ⟨_, rfl, Iff.rfl⟩⟩

instance (b : Bool) : Tests (pure b) fun _ => b := ⟨fun _ => ⟨b, rfl, Iff.rfl⟩⟩

instance [h : Tests t p] [h' : Tests t' p'] : Tests (t <&&> t') fun f => p f ∧ p' f where
  run_eq s := by
    obtain ⟨b, hb, hp⟩ := h.run_eq s
    obtain ⟨b', hb', hp'⟩ := h'.run_eq s
    unfold andM
    rw [run_bind, hb, ← hp, ← hp']
    cases b with
    | false => exact ⟨false, rfl, by simp⟩
    | true => exact ⟨b', hb', by simp⟩

instance [h : Tests t p] [h' : Tests t' p'] : Tests (t <||> t') fun f => p f ∨ p' f where
  run_eq s := by
    obtain ⟨b, hb, hp⟩ := h.run_eq s
    obtain ⟨b', hb', hp'⟩ := h'.run_eq s
    unfold orM
    rw [run_bind, hb, ← hp, ← hp']
    cases b with
    | false => exact ⟨b', hb', by simp⟩
    | true => exact ⟨true, rfl, by simp⟩

theorem run_if_pos [h : Tests t p] (hp : p s.formula) :
    (do if ← t then m else m').run s = m.run s := by
  obtain ⟨b, hb, hiff⟩ := h.run_eq s
  obtain rfl := hiff.mpr hp
  rw [run_bind, hb]
  rfl

theorem run_if_neg [h : Tests t p] (hp : ¬p s.formula) :
    (do if ← t then m else m').run s = m'.run s := by
  obtain ⟨b, hb, hiff⟩ := h.run_eq s
  obtain rfl : b = false := by
    rw [← Bool.not_eq_true, hiff]
    exact hp
  rw [run_bind, hb]
  rfl

end

theorem run_onConstant (i growth : Nat) (work : Bool → Work Unit) (s : State) :
    (onConstant i growth work).run s = match (s.formula.cell i).value? with
      | some v => if s.formula.hasRoom growth then (true, ((work v).run s).2) else (false, s)
      | none => (false, s) := by
  unfold onConstant
  rw [run_load]
  cases (s.formula.cell i).value? with
  | none => rfl
  | some v =>
    by_cases hroom : s.formula.hasRoom growth
    · simp only [hroom, if_true]
      rw [run_if_pos hroom, run_bind]
      rfl
    · simp only [hroom]
      rw [run_if_neg hroom]
      rfl

/-! ## What work comes to -/

/-- Work in place comes to an edit at a position, or to nothing at all where there is none. -/
def Makes (m : Work Bool) (s : State) (i : Nat) (e? : Option Edit) : Prop :=
  m.run s = match e? with
    | some e => (true, s.perform i e)
    | none => (false, s)

section

variable {m m' : Work Bool} {s : State} {i : Nat} {e? e?' : Option Edit} {e : Edit}

theorem makes_fail (h : e? = none) : Makes (return false) s i e? := by
  rw [h]
  rfl

theorem makes_edit (h : e? = some e) (hrun : m.run s = (true, s.perform i e)) :
    m.Makes s i e? := by
  rw [h]
  exact hrun

theorem Makes.rule {t : Work Bool} {p : Formula → Prop} [Tests t p] {r : Rule} {rules : List Rule}
    (hi : i < s.formula.stop) (hp : p s.formula ↔ r.LiesAt s.formula i)
    (hyes : p s.formula → m.run s = (true, s.perform i (r.editAt s i)))
    (hno : m'.Makes s i (s.firstEdit? i rules)) :
    (do if ← t then m else m').Makes s i (s.firstEdit? i (r :: rules)) := by
  unfold Makes
  by_cases h : p s.formula
  · rw [State.firstEdit?_of_liesAt hi (hp.mp h), run_if_pos h]
    exact hyes h
  · rw [State.firstEdit?_of_not_liesAt hi fun hr => h (hp.mpr hr), run_if_neg h]
    exact hno

theorem Makes.pair {t : Work Bool} {p : Formula → Prop} [Tests t p] {r : Symbol → Rule}
    {rules : List Rule} (hi : i < s.formula.stop) (op : Symbol) (k : Nat) (hop : op.isBinary)
    (hr : ∀ x, (r x).LiesAt s.formula i → s.formula.cell (i + k) = x)
    (hp : p s.formula ↔ (s.formula.cell (i + k)).isBinary ∧
      (r (s.formula.cell (i + k))).LiesAt s.formula i)
    (hyes : p s.formula →
      m.run s = (true, s.perform i ((r (s.formula.cell (i + k))).editAt s i)))
    (hno : m'.Makes s i (s.firstEdit? i rules)) :
    (do if ← t then m else m').Makes s i (s.firstEdit? i (r op :: r op.dual :: rules)) := by
  unfold Makes
  by_cases h : p s.formula
  · obtain ⟨hbinary, hlies⟩ := hp.mp h
    rw [run_if_pos h, hyes h]
    rcases Symbol.eq_or_eq_dual hop hbinary with hx | hx
    · rw [hx] at hlies ⊢
      rw [State.firstEdit?_of_liesAt hi hlies]
    · rw [hx] at hlies ⊢
      have hother : ¬(r op).LiesAt s.formula i := by
        intro hlies'
        exact Symbol.dual_ne hop (hx.symm.trans (hr op hlies'))
      rw [State.firstEdit?_of_not_liesAt hi hother, State.firstEdit?_of_liesAt hi hlies]
  · have hnone : ∀ x, x.isBinary → ¬(r x).LiesAt s.formula i := by
      intro x hx hlies
      apply h
      rw [hp, hr x hlies]
      exact ⟨hx, hlies⟩
    rw [run_if_neg h, State.firstEdit?_of_not_liesAt hi (hnone op hop),
      State.firstEdit?_of_not_liesAt hi (hnone _ (Symbol.isBinary_dual hop))]
    exact hno

theorem makes_of {rules : List Rule} (hi : i < s.formula.stop)
    (hyes : ∀ r ∈ rules, r.LiesAt s.formula i → m.run s = (true, s.perform i (r.editAt s i)))
    (hno : (∀ r ∈ rules, ¬r.LiesAt s.formula i) → m.run s = (false, s)) :
    m.Makes s i (s.firstEdit? i rules) := by
  induction rules with
  | nil => exact hno (by simp)
  | cons r rules ih =>
    by_cases hr : r.LiesAt s.formula i
    · unfold Makes
      rw [State.firstEdit?_of_liesAt hi hr]
      exact hyes r List.mem_cons_self hr
    · rw [State.firstEdit?_of_not_liesAt hi hr]
      apply ih
      · exact fun r' hr' => hyes r' (List.mem_cons_of_mem _ hr')
      · intro h
        apply hno
        intro r' hr'
        rcases List.mem_cons.mp hr' with rfl | hr'
        · exact hr
        · exact h r' hr'

theorem Makes.ite {t : Work Bool} {p : Formula → Prop} [Tests t p]
    (hyes : p s.formula → m.Makes s i e?) (hno : ¬p s.formula → m'.Makes s i e?) :
    (do if ← t then m else m').Makes s i e? := by
  unfold Makes at *
  by_cases h : p s.formula
  · rw [run_if_pos h]
    exact hyes h
  · rw [run_if_neg h]
    exact hno h

theorem Makes.guard {t : Work Bool} {p : Formula → Prop} [Tests t p] {rules : List Rule}
    (hi : i < s.formula.stop) (n growth : Nat)
    (hrules : ∀ r ∈ rules, r.source.length = n ∧ r.target.length - r.source.length = growth)
    (hp : i + n ≤ s.formula.stop → s.formula.hasRoom growth → p s.formula)
    (hyes : p s.formula → m.Makes s i (s.firstEdit? i rules)) :
    (do if ← t then m else return false).Makes s i (s.firstEdit? i rules) := by
  refine .ite hyes fun h => makes_fail (State.firstEdit?_eq_none hi ?_)
  rintro r hr ⟨hlen, hroom, -⟩
  obtain ⟨hn, hgrowth⟩ := hrules r hr
  rw [hn] at hlen
  rw [hgrowth] at hroom
  exact h (hp hlen hroom)

theorem Makes.orElse (h : m.Makes s i e?) (h' : m'.Makes s i e?') :
    (m <||> m').Makes s i (e?.or e?') := by
  unfold Makes at *
  unfold orM
  rw [run_bind, h]
  cases e? with
  | some e => rfl
  | none => exact h'

end

end Work

end LawProof
