import LawProof.Proofs.Consistency
import LawProof.Proofs.Edits

/-!
# The table along a run

A run takes steps one after another and passes over those that do not apply. Along every run from a
written formula the table tracks the working formula, so it passes both of its checks, and no name
is given twice.
-/

namespace LawProof

open Body (varsOf)

/-! ## Runs -/

namespace State

/-- The state after a step is tried: as it was if the step does not apply. -/
def attempt (s : State) (step : Step) : State := (s.step? step).getD s

/-- The state after all steps have been tried in turn. -/
def after (s : State) (p : Proof) : State := p.foldl attempt s

theorem after_cons (s : State) (step : Step) (p : Proof) :
    s.after (step :: p) = (s.attempt step).after p := rfl

theorem after_append (s : State) (p q : Proof) : s.after (p ++ q) = (s.after p).after q := by
  unfold after
  exact List.foldl_append

theorem after_of_step? {P : State → Prop}
    (hstep : ∀ s u step, P s → s.step? step = some u → P u) {s : State} (h : P s) (p : Proof) :
    P (s.after p) := by
  induction p generalizing s with
  | nil => exact h
  | cons step p ih =>
    rw [after_cons]
    apply ih
    unfold attempt
    cases hs : s.step? step with
    | none => exact h
    | some u => exact hstep s u step h hs

theorem after_preserves {P : State → Prop}
    (hstep : ∀ s u law position, P s → s.Steps u law position → P u) {s : State} (h : P s)
    (p : Proof) : P (s.after p) :=
  after_of_step? (fun s u _ hs hu => hstep s u _ _ hs (step?_eq_some hu)) h p

end State

/-! ## Rules and counts -/

namespace Bindings

theorem count_varsOf_replicate (n : Nat) (s : Symbol) (v : Var) :
    (varsOf (List.replicate n s)).count v = n * (varsOf [s]).count v := by
  induction n with
  | zero => simp [varsOf]
  | succ n ih =>
    rw [List.replicate_succ, ← List.singleton_append, Body.varsOf_append, List.count_append, ih,
      Nat.succ_mul, Nat.add_comm]

/-- The variable in a slot, as often as the slot stands in the pieces. -/
def slotVars (σ : Filling) (pieces : List Piece) (x : Slot) : List Var :=
  varsOf (List.replicate (pieces.count (.slot x)) (σ.fill (.slot x)))

theorem varsOf_map_fill_perm (pieces : List Piece) (σ : Filling)
    (h : ∀ s, .sym s ∈ pieces → s.var? = none) :
    (varsOf (pieces.map σ.fill)).Perm (Slot.all.flatMap (slotVars σ pieces)) := by
  rw [List.perm_iff_count]
  intro v
  simp only [Slot.all, List.flatMap_cons, List.flatMap_nil, List.append_nil, List.count_append,
    slotVars, count_varsOf_replicate]
  induction pieces with
  | nil => simp [varsOf]
  | cons p pieces ih =>
    have ih := ih fun s hs => h s (List.mem_cons_of_mem _ hs)
    rw [List.map_cons, ← List.singleton_append, Body.varsOf_append, List.count_append, ih]
    cases p with
    | sym s =>
      have hnil : varsOf [σ.fill (.sym s)] = [] := List.filterMap_cons_none (h s List.mem_cons_self)
      simp [hnil]
    | slot y => cases y <;> simp [Nat.add_mul] <;> omega

variable {t : Bindings} {xs : List Var}

theorem Tracks.repeat_retain (h : Tracks t xs) {s : Symbol} (hs : ∀ v, s = .var v → v ∈ xs)
    (k : Nat) : Tracks (Nat.repeat (·.retain s) k t) (varsOf (List.replicate k s) ++ xs) := by
  induction k with
  | zero => exact h
  | succ k ih =>
    rw [List.replicate_succ, ← List.singleton_append, Body.varsOf_append, List.append_assoc]
    apply ih.retain_symbol
    intro v hv
    exact Or.inl (List.mem_append_right _ (hs v hv))

theorem Tracks.repeat_release {s : Symbol} {k : Nat}
    (h : Tracks t (varsOf (List.replicate k s) ++ xs)) :
    Tracks (Nat.repeat (·.release s) k t) xs := by
  induction k generalizing xs with
  | zero => exact h
  | succ k ih =>
    rw [List.replicate_succ', Body.varsOf_append, List.append_assoc] at h
    exact (ih h).release_symbol

theorem Tracks.recount {r : Rule} {σ : Filling} (hsafe : r.isSafe = true) (hσ : σ.Fills r.source)
    (x : Slot) (h : Tracks t (slotVars σ r.source x ++ xs)) :
    Tracks (r.recount σ t x) (slotVars σ r.target x ++ xs) := by
  unfold slotVars at h ⊢
  unfold Rule.recount
  cases hx : σ.get? x with
  | none =>
    -- A slot that the match has left empty stands on neither side.
    have hsource : .slot x ∉ r.source := by
      intro hm
      obtain ⟨s, hs⟩ := hσ.filled x hm
      rw [hx] at hs
      simp at hs
    have htarget : .slot x ∉ r.target := fun hm => hsource (Rule.slot_mem_source hsafe hm)
    rw [List.count_eq_zero.mpr hsource] at h
    rw [List.count_eq_zero.mpr htarget]
    exact h
  | some s =>
    rw [Filling.fill_slot hx] at h ⊢
    simp only [Rule.uses]
    generalize hn : r.source.count (.slot x) = n at h ⊢
    generalize hm : r.target.count (.slot x) = m
    rcases Nat.lt_or_ge n m with hlt | hle
    · -- What is retained has to be on record already, so the source must hold it.
      have hmem : .slot x ∈ r.source :=
        Rule.slot_mem_source hsafe (List.count_pos_iff.mp (by omega))
      have hpos : 0 < n := hn ▸ List.count_pos_iff.mpr hmem
      have hs : ∀ v, s = .var v → v ∈ varsOf (List.replicate n s) ++ xs := by
        intro v hv
        apply List.mem_append_left
        rw [Body.mem_varsOf, List.mem_replicate]
        exact ⟨by omega, hv.symm⟩
      have hretain := h.repeat_retain hs (m - n)
      rw [← List.append_assoc, ← Body.varsOf_append, List.replicate_append_replicate,
        Nat.sub_add_cancel (Nat.le_of_lt hlt)] at hretain
      rw [Nat.sub_eq_zero_of_le (Nat.le_of_lt hlt)]
      exact hretain
    · rw [Nat.sub_eq_zero_of_le hle]
      apply repeat_release
      rw [← List.append_assoc, ← Body.varsOf_append, List.replicate_append_replicate,
        Nat.sub_add_cancel hle]
      exact h

theorem Tracks.foldl_recount {r : Rule} {σ : Filling} (hsafe : r.isSafe = true)
    (hσ : σ.Fills r.source) {slots : List Slot}
    (h : Tracks t (slots.flatMap (slotVars σ r.source) ++ xs)) :
    Tracks (slots.foldl (r.recount σ) t) (slots.flatMap (slotVars σ r.target) ++ xs) := by
  induction slots generalizing t xs with
  | nil => exact h
  | cons x slots ih =>
    rw [List.flatMap_cons, List.append_assoc] at h ⊢
    have hx := h.recount hsafe hσ x
    have hrest := ih (hx.perm (List.perm_append_comm_assoc ..))
    exact hrest.perm (List.perm_append_comm_assoc ..)

theorem Tracks.rule {law : Law} {r : Rule} {σ : Filling} (hr : r ∈ law.rules)
    (hσ : σ.Fills r.source) (h : Tracks t (varsOf (r.source.map σ.fill) ++ xs)) :
    Tracks (Slot.all.foldl (r.recount σ) t) (varsOf (r.target.map σ.fill) ++ xs) := by
  have hsafe := Law.isSafe_of_mem_rules hr
  have hsource := varsOf_map_fill_perm r.source σ fun s hs =>
    Rule.var?_of_sym_mem hsafe (List.mem_append_left _ hs)
  have htarget := varsOf_map_fill_perm r.target σ fun s hs =>
    Rule.var?_of_sym_mem hsafe (List.mem_append_right _ hs)
  have := (h.perm (hsource.append_right xs)).foldl_recount hsafe hσ
  exact this.perm (htarget.symm.append_right xs)

/-- Whatever a law puts in the place of something else, the table stays in line. -/
theorem Tracks.rewrites {t' : Bindings} {law : Law} {old new : List Symbol}
    (h : Tracks t (varsOf old ++ xs)) (hr : law.Rewrites t old new t') :
    Tracks t' (varsOf new ++ xs) := by
  cases hr with
  | rule hr hσ => exact h.rule hr hσ
  | @collapse d hd =>
    rw [Body.varsOf_symbols] at h
    exact h.define hd
  | @spellOut v d hd =>
    rw [Body.varsOf_symbols, ← parts_of_definition? hd]
    exact h.expand

theorem Tracks.replace {t' : Bindings} {law : Law} {pre old new rest : List Symbol}
    (h : Tracks t (varsOf (pre ++ old ++ rest))) (hr : law.Rewrites t old new t') :
    Tracks t' (varsOf (pre ++ new ++ rest)) := by
  simp only [Body.varsOf_append, List.append_assoc] at h ⊢
  exact ((h.perm (List.perm_append_comm_assoc ..)).rewrites hr).perm
    (List.perm_append_comm_assoc ..)

/-! ## The next id -/

theorem repeat_preserves {P : Bindings → Prop} {f : Bindings → Bindings} (hf : ∀ t, P t → P (f t))
    (k : Nat) {t : Bindings} (h : P t) : P (Nat.repeat f k t) := by
  induction k with
  | zero => exact h
  | succ k ih => exact hf _ ih

theorem foldl_recount_preserves {P : Bindings → Prop} (hretain : ∀ t s, P t → P (t.retain s))
    (hrelease : ∀ t s, P t → P (t.release s)) (r : Rule) (σ : Filling) (slots : List Slot)
    {t : Bindings} (h : P t) : P (slots.foldl (r.recount σ) t) := by
  refine List.foldlRecOn (motive := P) _ _ h fun u hu x _ => ?_
  unfold Rule.recount
  split
  · exact hu
  · exact repeat_preserves (hrelease · _) _ (repeat_preserves (hretain · _) _ hu)

theorem next_foldl_recount (r : Rule) (σ : Filling) (slots : List Slot) (t : Bindings) :
    (slots.foldl (r.recount σ) t).next = t.next :=
  foldl_recount_preserves (P := fun u => u.next = t.next) (fun u s hu => (next_retain s u).trans hu)
    (fun u s hu => (next_release s u).trans hu) r σ slots rfl

theorem Sound.next_rewrites (h : t.Sound) {t' : Bindings} {law : Law} {old new : List Symbol}
    (hr : law.Rewrites t old new t') :
    t'.next = t.next +
      if law = .substitution ∧ (old.head?.bind Symbol.var?).isNone then 1 else 0 := by
  cases hr with
  | @rule _ r σ hr _ =>
    have hlaw : law ≠ .substitution := by
      rintro rfl
      simp [Law.rules] at hr
    rw [if_neg fun hboth => hlaw hboth.1, next_foldl_recount]
    rfl
  | @collapse d _ =>
    have hop : (d.symbols.head?.bind Symbol.var?).isNone = true := by cases d <;> rfl
    rw [if_pos ⟨rfl, hop⟩, h.define_eq]
    rfl
  | @spellOut v d _ =>
    rw [if_neg fun hboth => by simp [Symbol.var?] at hboth, next_expand]
    rfl

theorem Sound.next_le_of_rewrites (h : t.Sound) {t' : Bindings} {law : Law}
    {old new : List Symbol} (hr : law.Rewrites t old new t') : t.next ≤ t'.next := by
  rw [h.next_rewrites hr]
  exact Nat.le_add_right ..

end Bindings

/-! ## The run -/

namespace State

open Bindings (Tracks Spelled)

/-- The table tracks the working formula. -/
def Tracked (s : State) : Prop := s.table.Tracks (varsOf s.formula.body)

theorem Tracked.steps {s u : State} {law : Law} {position : Nat} (h : s.Tracked)
    (hstep : s.Steps u law position) : u.Tracked := by
  obtain ⟨old, new, rest, hbefore, hafter, hr⟩ := hstep.replaced
  unfold Tracked at h ⊢
  rw [hbefore] at h
  rw [hafter]
  exact h.replace hr

theorem tracked_ofFormula {body : List Symbol} {slack : Nat} {f : Formula}
    (hf : Formula.ofBody body slack = .ok f) : (ofFormula f).Tracked := by
  obtain ⟨hwritten, hbody⟩ := Formula.ofBody_eq_ok hf
  apply Bindings.tracks_ofBody
  intro v hv
  rw [hbody, Body.mem_varsOf] at hv
  exact hwritten.inputs v hv

theorem Tracked.after {s : State} (h : s.Tracked) (p : Proof) : (s.after p).Tracked :=
  after_preserves (fun _ _ _ _ hs hstep => Tracked.steps hs hstep) h p

theorem Tracked.next_le_after {s : State} (h : s.Tracked) (p : Proof) :
    s.table.next ≤ (s.after p).table.next := by
  have hkept : (s.after p).Tracked ∧ s.table.next ≤ (s.after p).table.next := by
    refine after_preserves (P := fun u => u.Tracked ∧ s.table.next ≤ u.table.next) ?_
      ⟨h, Nat.le_refl _⟩ p
    rintro u w law position ⟨hu, hle⟩ hstep
    obtain ⟨old, new, rest, -, -, hr⟩ := hstep.replaced
    exact ⟨hu.steps hstep, Nat.le_trans hle (hu.toSound.next_le_of_rewrites hr)⟩
  exact hkept.2

theorem Tracked.define_new {s : State} (h : s.Tracked) {p q : Proof} (hq : q <+: p)
    (d : Definition) :
    ((s.after p).table.define d).1.isSynthetic = true ∧
      (s.after q).table.contains ((s.after p).table.define d).1 = false := by
  have hp := h.after p
  rw [hp.define_eq]
  refine ⟨Bindings.isSynthetic_iff.mpr hp.reserve, ?_⟩
  rw [Bool.eq_false_iff]
  intro hmem
  obtain ⟨b, hb⟩ := Bindings.contains_iff.mp hmem
  obtain ⟨rest, rfl⟩ := hq
  have hle := (h.after q).next_le_after rest
  rw [← after_append] at hle
  have hlt := (h.after q).below _ b hb
  exact Nat.lt_irrefl _ (Nat.lt_of_lt_of_le hlt hle)

/-- Whatever steps are tried from a written formula, the table passes both of its checks, has the
counts of all variables that occur, and gives names that are new to the whole run. -/
theorem table_after {body : List Symbol} {slack : Nat} {f : Formula}
    (hf : Formula.ofBody body slack = .ok f) (p : Proof) :
    let s := (ofFormula f).after p
    s.table.isWellFounded = true ∧ s.table.isConsistentWith s.formula.body = true ∧
      (∃ vs, Spelled s.table (varsOf s.formula.body) vs ∧
        ∀ v, (s.table.contains v = true ↔ v ∈ vs) ∧ s.table.count (.var v) = vs.count v) ∧
      (∀ v, s.table.contains v = true → v.id < s.table.next) ∧
      ∀ d q, q <+: p → (s.table.define d).1.isSynthetic = true ∧
        ((ofFormula f).after q).table.contains (s.table.define d).1 = false := by
  intro s
  have hstart := tracked_ofFormula hf
  have h : s.Tracked := hstart.after p
  refine ⟨h.isWellFounded, h.isConsistentWith, ?_, ?_, fun d q hq => hstart.define_new hq d⟩
  · obtain ⟨vs, hvs, hcount⟩ := h.counted
    refine ⟨vs, hvs, fun v => ⟨?_, hcount v⟩⟩
    rw [← List.count_pos_iff, ← hcount, Bindings.contains_iff]
    constructor
    · rintro ⟨b, hb⟩
      rw [Bindings.total_of_get? hb]
      exact h.positive v b hb
    · intro hpos
      obtain ⟨b, hb, -⟩ := Bindings.get?_of_total_pos hpos
      exact ⟨b, hb⟩
  · intro v hv
    obtain ⟨b, hb⟩ := Bindings.contains_iff.mp hv
    exact h.below v b hb

/-- Names inside names, one of them doubled: `x0` no longer stands in the formula and occurs three
times. -/
theorem table_after_nested :
    ∃ f, Formula.ofBody [.disj, .conj, .x 0, .x 1, .neg, .conj, .x 0, .x 1] 7 = .ok f ∧
      ∃ s, s = (ofFormula f).after [⟨.substitution, 1⟩, ⟨.substitution, 3⟩, ⟨.substitution, 2⟩,
        ⟨.domination, 1⟩, ⟨.idempotentOr, 2⟩] ∧
      s.formula.body = [.disj, .var ⟨64⟩, .disj, .var ⟨66⟩, .var ⟨66⟩] ∧
      s.table.isWellFounded = true ∧ s.table.isConsistentWith s.formula.body = true ∧
      ∃ vs, Spelled s.table (varsOf s.formula.body) vs ∧ vs.count ⟨0⟩ = 3 := by
  have hf : Formula.ofBody [.disj, .conj, .x 0, .x 1, .neg, .conj, .x 0, .x 1] 7 =
      .ok (.ofParts [.disj, .conj, .x 0, .x 1, .neg, .conj, .x 0, .x 1] 7 2) := by cbv
  obtain ⟨hfounded, hconsistent, ⟨vs, hvs, hcount⟩, -⟩ := table_after hf [⟨.substitution, 1⟩,
    ⟨.substitution, 3⟩, ⟨.substitution, 2⟩, ⟨.domination, 1⟩, ⟨.idempotentOr, 2⟩]
  refine ⟨_, hf, _, rfl, by decide, hfounded, hconsistent, vs, hvs, ?_⟩
  rw [← (hcount ⟨0⟩).2]
  decide

end State

end LawProof
