import LawProof.Proofs.InPlace

/-!
# The discipline of work in place

What every law keeps to can be told from its operations alone, whatever the symbols are that it
finds. It looks only below the end marker, writes only on the tape, and moves only what is there and
only to where there is room. It counts only up or only down, gives a name only where it does not
count, and does not look at the table once it has changed it. Where it fails it has changed nothing
of this.
-/

namespace LawProof

/-- What some work has done to the table so far. -/
inductive Way where
  | none
  | up
  | down
  | named
deriving DecidableEq

theorem Way.ne_up {way : Way} (h : way = .none ∨ way = .down) : way ≠ .up := by
  rcases h with rfl | rfl <;> simp

/-! ## Weakest preconditions -/

/-- What must hold of the end marker and of the way so far, so that the operation keeps to the rules
and `Q` holds of its answer and of what it leaves. -/
@[simp]
def Op.wp (capacity : Nat) {α : Type} : Op α → (α → Nat → Way → Prop) → Nat → Way → Prop
  | .stop, Q, n, way => Q n n way
  | .hasRoom growth, Q, n, way => Q (decide (n + growth < capacity)) n way
  | .load i, Q, n, way => i < n ∧ ∀ x, Q x n way
  | .store i _, Q, n, way => i < capacity ∧ Q () n way
  | .swap i j, Q, n, way => i < n ∧ j < n ∧ Q () n way
  | .shiftLeft src dst, Q, n, way => (dst ≤ src ∧ src ≤ n) ∧ Q () (dst + (n - src)) way
  | .shiftRight src dst, Q, n, way =>
    (src ≤ dst ∧ src ≤ n ∧ n + (dst - src) < capacity) ∧ Q () (dst + (n - src)) way
  | .retain _, Q, n, way => (way = .none ∨ way = .up) ∧ Q () n .up
  | .release _, Q, n, way | .spellOut _, Q, n, way => (way = .none ∨ way = .down) ∧ Q () n .down
  | .define _, Q, n, way => way = .none ∧ ∀ x, Q x n .named
  | .definition? _, Q, n, way => way = .none ∧ ∀ d, Q d n way

namespace Work

/-- The same for all the operations of some work, whatever the answers to those that look. -/
def wp (capacity : Nat) {α : Type} : Work α → (α → Nat → Way → Prop) → Nat → Way → Prop
  | done a, Q, n, way => Q a n way
  | step op next, Q, n, way => op.wp capacity (fun b n way => (next b).wp capacity Q n way) n way

theorem and_eq (t t' : Work Bool) : (t <&&> t') = (do if ← t then t' else return false) := by
  unfold andM
  congr 1
  funext b
  cases b <;> rfl

theorem or_eq (t t' : Work Bool) : (t <||> t') = (do if ← t then return true else t') := by
  unfold orM
  congr 1
  funext b
  cases b <;> rfl

section

variable {α β : Type} {capacity n : Nat} {way : Way}

@[simp]
theorem wp_pure (a : α) (Q : α → Nat → Way → Prop) :
    (pure a : Work α).wp capacity Q n way ↔ Q a n way := Iff.rfl

@[simp]
theorem wp_lift (op : Op α) (Q : α → Nat → Way → Prop) :
    (liftM op : Work α).wp capacity Q n way ↔ op.wp capacity Q n way := Iff.rfl

@[simp]
theorem wp_bind (w : Work α) (k : α → Work β) (Q : β → Nat → Way → Prop) :
    (w >>= k).wp capacity Q n way ↔
      w.wp capacity (fun a n way => (k a).wp capacity Q n way) n way := by
  induction w generalizing n way with
  | done a => exact Iff.rfl
  | step op next ih =>
    have hnext : (fun b n way => (next b >>= k).wp capacity Q n way) =
        fun b n way => (next b).wp capacity (fun a n way => (k a).wp capacity Q n way) n way :=
      funext fun b => funext fun n => funext fun way => propext (ih b)
    show op.wp capacity (fun b n way => (next b >>= k).wp capacity Q n way) n way ↔ _
    rw [hnext]
    rfl

@[simp]
theorem wp_ite (b : Bool) (m m' : Work α) (Q : α → Nat → Way → Prop) :
    (if b then m else m').wp capacity Q n way ↔
      if b then m.wp capacity Q n way else m'.wp capacity Q n way := by
  cases b <;> exact Iff.rfl

theorem wp_load (i : Nat) (k : Symbol → Work α) (Q : α → Nat → Way → Prop) :
    (liftM (Op.load i) >>= k).wp capacity Q n way ↔
      i < n ∧ ∀ x, (k x).wp capacity Q n way := Iff.rfl

theorem wp_mono {w : Work α} {Q Q' : α → Nat → Way → Prop} (h : w.wp capacity Q n way)
    (hQ : ∀ a n way, Q a n way → Q' a n way) : w.wp capacity Q' n way := by
  induction w generalizing n way with
  | done a => exact hQ a n way h
  | step op next ih => cases op <;> simp only [wp, Op.wp] at h ⊢ <;> grind

/-- A test changes nothing, and where it succeeds it tells `q`. -/
theorem wp_if {t : Work Bool} {m m' : Work α} {Q : α → Nat → Way → Prop} (q : Prop)
    (ht : t.wp capacity (fun b n' way' => (n' = n ∧ way' = way) ∧ (b = true → q)) n way)
    (hyes : q → m.wp capacity Q n way) (hno : m'.wp capacity Q n way) :
    (do if ← t then m else m').wp capacity Q n way := by
  rw [wp_bind]
  refine wp_mono ht ?_
  rintro b n way ⟨⟨rfl, rfl⟩, hb⟩
  cases b with
  | false => exact hno
  | true => exact hyes (hb rfl)

end

/-! ## The laws -/

/-- All operations of the work keep to the rules, at every position in a formula. -/
def Orderly (w : Nat → Work Bool) : Prop :=
  ∀ capacity n i, i < n → n < capacity →
    (w i).wp capacity (fun b n' way => b = false → n' = n ∧ way = .none) n .none

theorem Orderly.orElse {w w' : Nat → Work Bool} (h : Orderly w) (h' : Orderly w') :
    Orderly fun i => w i <||> w' i := by
  intro capacity n i hi hn
  show (w i <||> w' i).wp capacity _ n .none
  rw [or_eq, wp_bind]
  refine wp_mono (h capacity n i hi hn) ?_
  intro b n' way hfail
  cases b with
  | true => simp
  | false =>
    obtain ⟨rfl, rfl⟩ := hfail rfl
    exact h' capacity n' i hi hn

theorem wp_onConstant {capacity n i growth : Nat} {work : Bool → Work Unit} (hi : i < n)
    (hwork : ∀ v, n + growth < capacity → (work v).wp capacity (fun _ _ _ => True) n .none) :
    (onConstant i growth work).wp capacity (fun b n' way => b = false → n' = n ∧ way = .none) n
      .none := by
  unfold onConstant
  rw [wp_load]
  refine ⟨hi, fun x => ?_⟩
  cases x.value? with
  | none => simp
  | some v =>
    apply wp_if (n + growth < capacity)
    · simp [room]
    · intro hroom
      rw [wp_bind]
      exact wp_mono (hwork v hroom) (by simp)
    · simp

instance : Nonempty Symbol := ⟨.stop⟩

-- In each law the tests tell how long the formula is, or how much room there is. The rest is
-- arithmetic with these bounds.
section

variable (op unit outer inner filler : Symbol)

theorem orderly_identity : Orderly (identity op unit) := by
  intro capacity n i hi hn
  refine wp_if (i + 3 ≤ n) ?_ ?_ (wp_if (n + 2 < capacity) ?_ ?_ ?_) <;>
    simp [and_eq, fits, finds, holds, room] <;> grind

theorem orderly_idempotent : Orderly (idempotent op) := by
  intro capacity n i hi hn
  refine wp_if (i + 3 ≤ n) ?_ ?_ (wp_if (n + 2 < capacity) ?_ ?_ ?_) <;>
    simp [and_eq, fits, finds, holds, same, room] <;> grind

theorem orderly_commutative : Orderly commutative := by
  intro capacity n i hi hn
  refine wp_if (i + 3 ≤ n) ?_ ?_ ?_ <;> simp [and_eq, fits, holds] <;> grind

theorem orderly_negation : Orderly negation := by
  intro capacity n i hi hn
  refine wp_if True ?_ (fun _ => wp_if (i + 2 ≤ n) ?_ (fun hlen => ?_) ?_)
    (wp_onConstant hi fun v hroom => ?_)
  · simp [finds, hi]
  · simp [fits]
  · rw [wp_load]
    refine ⟨hlen, fun x => ?_⟩
    cases x.value? with
    | none => simp
    | some v =>
      simp
      omega
  · simp
  · simp
    omega

theorem orderly_complement : Orderly complement := by
  intro capacity n i hi hn
  refine wp_if (i + 4 ≤ n) ?_ ?_ (wp_onConstant hi fun v hroom => ?_) <;>
    simp [and_eq, fits, holds, finds, same] <;> grind

theorem orderly_domination : Orderly domination := by
  intro capacity n i hi hn
  refine wp_if (i + 3 ≤ n) ?_ ?_ (wp_onConstant hi fun v hroom => ?_) <;>
    simp [and_eq, fits, holds, dominated] <;> grind

theorem orderly_absorption : Orderly (absorption outer inner filler) := by
  intro capacity n i hi hn
  refine wp_if (i + 5 ≤ n) ?_ ?_ (wp_if (n + 4 < capacity) ?_ ?_ ?_) <;>
    simp [and_eq, fits, finds, holds, same, room] <;> grind

theorem orderly_associative : Orderly associative := by
  intro capacity n i hi hn
  refine wp_if (i + 5 ≤ n) ?_ (fun hlen => ?_) ?_
  · simp [fits]
  · rw [wp_load]
    exact ⟨hi, fun x => wp_if True (by simp [and_eq, or_eq, finds, holds]; grind)
      (by simp; omega) (by simp)⟩
  · simp

theorem orderly_distribute : Orderly distribute := by
  intro capacity n i hi hn
  refine wp_if (i + 5 ≤ n ∧ n + 2 < capacity) ?_ (fun _ => wp_if True ?_ ?_ ?_) ?_ <;>
    simp [and_eq, fits, room, holds, isDual] <;> grind

theorem orderly_factor : Orderly factor := by
  intro capacity n i hi hn
  refine wp_if (i + 7 ≤ n) ?_ (fun hlen => ?_) ?_
  · simp [fits]
  · rw [wp_load]
    exact ⟨hi, fun x => wp_if True (by simp [and_eq, finds, holds, same]; grind)
      (by simp; omega) (by simp)⟩
  · simp

theorem orderly_deMorganExpand : Orderly deMorganExpand := by
  intro capacity n i hi hn
  refine wp_if (i + 4 ≤ n ∧ n + 1 < capacity) ?_ (fun _ => wp_if True ?_ ?_ ?_) ?_ <;>
    simp [and_eq, fits, room, holds, finds] <;> grind

theorem orderly_deMorganFactor : Orderly deMorganFactor := by
  intro capacity n i hi hn
  refine wp_if (i + 5 ≤ n) ?_ (fun _ => wp_if True ?_ ?_ ?_) ?_ <;>
    simp [and_eq, fits, holds, finds] <;> grind

theorem orderly_doubleNegation : Orderly doubleNegation := by
  intro capacity n i hi hn
  refine wp_if (i + 3 ≤ n) ?_ ?_ (wp_if (n + 2 < capacity) ?_ ?_ ?_) <;>
    simp [and_eq, fits, finds, holds, room] <;> grind

theorem orderly_collapseUnary : Orderly collapseUnary := by
  intro capacity n i hi hn
  refine wp_if (i + 2 ≤ n) ?_ ?_ ?_ <;> simp [and_eq, fits, holds] <;> grind

theorem orderly_collapseBinary : Orderly collapseBinary := by
  intro capacity n i hi hn
  refine wp_if (i + 3 ≤ n) ?_ (fun hlen => ?_) ?_
  · simp [and_eq, fits, holds]
    grind
  · simp only [wp_load]
    refine ⟨hi, fun x => ⟨by omega, fun a => ⟨by omega, fun b => ?_⟩⟩⟩
    cases Definition.binary? x a b with
    | none => simp
    | some d =>
      simp
      omega
  · simp

theorem orderly_expand (d : Definition) : Orderly (expand d) := by
  intro capacity n i hi hn
  cases d with
  | neg a =>
    refine wp_if (n + 1 < capacity) ?_ ?_ ?_ <;> simp [room]
    omega
  | disj a b | conj a b =>
    refine wp_if (n + 2 < capacity) ?_ ?_ ?_ <;> simp [room]
    omega

theorem orderly_substitution : Orderly substitution := by
  intro capacity n i hi hn
  unfold substitution
  rw [wp_load]
  refine ⟨hi, fun x => ?_⟩
  cases x with
  | neg => exact orderly_collapseUnary capacity n i hi hn
  | disj | conj => exact orderly_collapseBinary capacity n i hi hn
  | var v =>
    refine ⟨hi, fun y => ⟨rfl, fun d => ?_⟩⟩
    cases d with
    | none => exact fun _ => ⟨rfl, rfl⟩
    | some d => exact orderly_expand d capacity n i hi hn
  | _ => simp

end

/-- Every law keeps to the rules, at every position. -/
theorem wp_apply {capacity n : Nat} (hn : n < capacity) (law : Law) (i : Nat) :
    (apply law i).wp capacity (fun b n' way => b = false → n' = n ∧ way = .none) n .none := by
  refine wp_if (i + 1 ≤ n) ?_ (fun hi => ?_) ?_
  · simp [fits]
  · have hlaw : ∀ w : Nat → Work Bool, Orderly w →
        (w i).wp capacity (fun b n' way => b = false → n' = n ∧ way = .none) n .none :=
      fun w h => h capacity n i hi hn
    cases law with
    | identityOr | identityAnd => exact hlaw _ (orderly_identity _ _)
    | idempotentOr | idempotentAnd => exact hlaw _ (orderly_idempotent _)
    | commutative => exact hlaw _ (orderly_commutative.orElse orderly_negation)
    | associative =>
      exact hlaw _ (orderly_associative.orElse <| orderly_distribute.orElse <|
        orderly_factor.orElse <| orderly_deMorganExpand.orElse <|
        orderly_deMorganFactor.orElse orderly_doubleNegation)
    | complement => exact hlaw _ orderly_complement
    | domination => exact hlaw _ orderly_domination
    | absorptionOr | absorptionAnd => exact hlaw _ (orderly_absorption _ _ _)
    | substitution => exact hlaw _ orderly_substitution
  · simp

end Work

/-! ## What an operation leaves -/

namespace Op

/-- The way of the work after the operation. -/
def way {α : Type} : Op α → Way → Way
  | .retain _, _ => .up
  | .release _, _ | .spellOut _, _ => .down
  | .define _, _ => .named
  | _, way => way

theorem wp_runBy (c : Counting Id) {α : Type} {op : Op α} {Q : α → Nat → Way → Prop} {s : State}
    {way : Way} (h : op.wp s.formula.capacity Q s.formula.stop way) :
    let r : α × State := op.runBy c s
    r.2.formula.capacity = s.formula.capacity ∧ Q r.1 r.2.formula.stop (op.way way) := by
  have hstop : s.formula.stop < s.formula.capacity := s.formula.stop_lt
  cases op with
  | stop | hasRoom => exact ⟨rfl, h⟩
  | load i => exact ⟨rfl, h.2 _⟩
  | store i x => exact ⟨s.formula.capacity_set i x, h.2⟩
  | swap i j =>
    obtain ⟨hi, hj, hQ⟩ := h
    have heq := Formula.swap_eq (Nat.lt_trans hi hstop) (Nat.lt_trans hj hstop)
    show (s.formula.swap i j).capacity = _ ∧ Q () (s.formula.swap i j).stop way
    rw [heq, Formula.capacity_set, Formula.capacity_set]
    exact ⟨rfl, hQ⟩
  | shiftLeft src dst | shiftRight src dst =>
    obtain ⟨hmove, hQ⟩ := h
    have hsrc : src ≤ s.formula.stop := by omega
    have hlt : dst + (s.formula.stop - src) < s.formula.capacity := by omega
    show (s.formula.shift src dst).capacity = _ ∧ Q () (s.formula.shift src dst).stop way
    rw [Formula.capacity_shift hsrc hlt, Formula.stop_shift hsrc hlt]
    exact ⟨rfl, hQ⟩
  | retain | release | spellOut => exact ⟨rfl, h.2⟩
  | define | definition? => exact ⟨rfl, h.2 _⟩

end Op

/-! ## Two ways of counting -/

/-- A relation between the tables of two runs, one without a bound on the counts and one with some
other way of counting, by what the work has done to them so far. As long as it has done nothing, the
tables are the same. -/
structure Counting.Simulates (c : Counting Id) (R : Way → Bindings → Bindings → Prop) : Prop where
  none : ∀ {t t'}, R .none t t' → t' = t
  retain : ∀ {way t t'} x, (way = .none ∨ way = .up) → R way t t' →
    R .up (t.retain x) (t'.retainBy c x)
  release : ∀ {way t t'} x, (way = .none ∨ way = .down) → R way t t' →
    R .down (t.release x) (t'.releaseBy c x)
  expand : ∀ {way t t'} x, (way = .none ∨ way = .down) → R way t t' →
    R .down (t.expand x) (t'.expandBy c x)
  define : ∀ {t} d, R .none t t → R .named (t.define d).2 (t.define d).2

section

variable {c : Counting Id} {R : Way → Bindings → Bindings → Prop} (hR : c.Simulates R) {α : Type}
  {Q : α → Nat → Way → Prop} {s s' : State} {way : Way}
include hR

theorem Op.simulates {op : Op α} {capacity n : Nat} (h : op.wp capacity Q n way)
    (hf : s'.formula = s.formula) (ht : R way s.table s'.table) :
    let r : α × State := op.runBy .exact s
    let r' : α × State := op.runBy c s'
    r'.1 = r.1 ∧ r'.2.formula = r.2.formula ∧ R (op.way way) r.2.table r'.2.table := by
  obtain ⟨f, t⟩ := s
  obtain ⟨f', t'⟩ := s'
  obtain rfl : f' = f := hf
  cases op with
  | retain x =>
    rw [run_retain]
    exact ⟨rfl, rfl, hR.retain x h.1 ht⟩
  | release x =>
    rw [run_release]
    exact ⟨rfl, rfl, hR.release x h.1 ht⟩
  | spellOut x =>
    rw [run_spellOut]
    exact ⟨rfl, rfl, hR.expand x h.1 ht⟩
  | define d =>
    obtain rfl := h.1
    obtain rfl := hR.none ht
    exact ⟨rfl, rfl, hR.define d ht⟩
  | definition? x =>
    obtain rfl := h.1
    obtain rfl := hR.none ht
    exact ⟨rfl, rfl, ht⟩
  | _ => exact ⟨rfl, rfl, ht⟩

theorem Work.simulates {w : Work α} (h : w.wp s.formula.capacity Q s.formula.stop way)
    (hf : s'.formula = s.formula) (ht : R way s.table s'.table) :
    let r : α × State := w.runBy .exact s
    let r' : α × State := w.runBy c s'
    r'.1 = r.1 ∧ r'.2.formula = r.2.formula ∧ ∃ way', R way' r.2.table r'.2.table := by
  induction w generalizing s s' way with
  | done a => exact ⟨rfl, hf, way, ht⟩
  | step op next ih =>
    obtain ⟨hcapacity, hnext⟩ := Op.wp_runBy .exact h
    obtain ⟨hanswer, hformula, htable⟩ := Op.simulates hR h hf ht
    rw [← hcapacity] at hnext
    intro r r'
    have hr' : r' = (next (op.runBy .exact s).1).runBy c (op.runBy c s').2 := by
      rw [← hanswer]
      rfl
    rw [hr']
    exact ih _ hnext hformula htable

end

/-- A law applies or not, and does what it does to the formula, however occurrences are counted. -/
theorem State.applyBy_simulates {c : Counting Id} {R : Way → Bindings → Bindings → Prop}
    (hR : c.Simulates R) {s : State} (h : R .none s.table s.table) (law : Law) (i : Nat) :
    let r : Bool × State := s.applyBy .exact law i
    let r' : Bool × State := s.applyBy c law i
    r'.1 = r.1 ∧ r'.2.formula = r.2.formula ∧ ∃ way, R way r.2.table r'.2.table :=
  Work.simulates hR (Work.wp_apply s.formula.stop_lt law i) rfl h

end LawProof
