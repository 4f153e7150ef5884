import LawProof.Proof.Replay
import LawProof.Proofs.Tape

/-!
# What a law can do

A successful step puts one short list of symbols in the place of another. `Law.Rewrites` lists the
cases: a rule of the law, a part of the formula that gets a name, a name that is spelled out. All
later proofs about steps go through these cases and do not look at the matching again.
-/

namespace LawProof

/-! ## Matching -/

namespace Filling

/-- Every operand found so far is kept. -/
def Extends (σ τ : Filling) : Prop := ∀ x s, σ.get? x = some s → τ.get? x = some s

theorem get?_put (σ : Filling) (x y : Slot) (s : Symbol) :
    (σ.put x s).get? y = if y = x then some s else σ.get? y := by
  cases x <;> cases y <;> rfl

theorem extends_put {σ : Filling} {x : Slot} (h : σ.get? x = none) (s : Symbol) :
    σ.Extends (σ.put x s) := by
  intro y r hr
  rw [get?_put]
  split
  · rename_i hy
    rw [hy, h] at hr
    simp at hr
  · exact hr

theorem fill_slot {σ : Filling} {x : Slot} {s : Symbol} (h : σ.get? x = some s) :
    σ.fill (.slot x) = s := by
  simp only [fill, h, Option.getD_some]

/-- Every slot of the pieces has its operand. -/
structure Fills (σ : Filling) (pieces : List Piece) : Prop where
  filled : ∀ x, .slot x ∈ pieces → ∃ s, σ.get? x = some s
  operand : ∀ x s, σ.get? x = some s → s.isOperand = true

end Filling

theorem fit_eq_some {pieces : List Piece} {window : List Symbol} {σ τ : Filling}
    (h : fit pieces window σ = some τ) (hσ : ∀ x s, σ.get? x = some s → s.isOperand = true) :
    σ.Extends τ ∧ τ.Fills pieces ∧ pieces.map τ.fill <+: window := by
  induction pieces generalizing window σ with
  | nil =>
    simp only [fit, Option.some.injEq] at h
    subst h
    exact ⟨fun _ _ => id, ⟨by simp, hσ⟩, List.nil_prefix⟩
  | cons p pieces ih =>
    cases window with
    | nil => simp [fit] at h
    | cons t window =>
      -- In every case the rest matches, and `p` stands for the symbol `t` in the end.
      suffices ∃ ρ : Filling, fit pieces window ρ = some τ ∧ σ.Extends ρ ∧
          (∀ x s, ρ.get? x = some s → s.isOperand = true) ∧
          (p = .sym t ∨ ∃ x, p = .slot x ∧ ρ.get? x = some t) by
        obtain ⟨ρ, hfit, hext, hρ, hp⟩ := this
        obtain ⟨hext', hfills, hpre⟩ := ih hfit hρ
        refine ⟨fun x s hs => hext' x s (hext x s hs), ⟨?_, hfills.operand⟩, ?_⟩
        · intro x hx
          rcases List.mem_cons.mp hx with rfl | hx
          · rcases hp with hp | ⟨y, hy, ht⟩
            · simp at hp
            · rw [Piece.slot.injEq] at hy
              exact ⟨t, hext' x t (hy ▸ ht)⟩
          · exact hfills.filled x hx
        · have hfill : τ.fill p = t := by
            rcases hp with rfl | ⟨x, rfl, ht⟩
            · rfl
            · exact Filling.fill_slot (hext' x t ht)
          rw [List.map_cons, hfill]
          exact (List.prefix_cons_inj t).mpr hpre
      cases p with
      | sym s =>
        simp only [fit] at h
        split at h
        · rename_i hs
          exact ⟨σ, h, fun _ _ => id, hσ, Or.inl (by rw [hs])⟩
        · simp at h
      | slot x =>
        simp only [fit] at h
        split at h
        · rename_i s hx
          split at h
          · rename_i hs
            exact ⟨σ, h, fun _ _ => id, hσ, Or.inr ⟨x, rfl, hs ▸ hx⟩⟩
          · simp at h
        · rename_i hx
          split at h
          · rename_i ht
            refine ⟨σ.put x t, h, Filling.extends_put hx t, ?_, Or.inr ⟨x, rfl, ?_⟩⟩
            · intro y s hs
              rw [Filling.get?_put] at hs
              split at hs
              · rw [Option.some.injEq] at hs
                exact hs ▸ ht
              · exact hσ y s hs
            · rw [Filling.get?_put, if_pos rfl]
          · simp at h

theorem fit_empty_eq_some {pieces : List Piece} {window : List Symbol} {σ : Filling}
    (h : fit pieces window {} = some σ) : σ.Fills pieces ∧ pieces.map σ.fill <+: window := by
  have hempty : ∀ x s, ({} : Filling).get? x = some s → s.isOperand = true := by
    intro x s hs
    cases x <;> simp [Filling.get?] at hs
  exact (fit_eq_some h hempty).2

/-! ## The cases -/

/-- `law.Rewrites t old new t'`: with the table `t`, the law may put `new` in the place of `old`,
and the table is `t'` afterwards. -/
inductive Law.Rewrites (t : Bindings) : Law → List Symbol → List Symbol → Bindings → Prop where
  | rule {law : Law} {r : Rule} {σ : Filling} : r ∈ law.rules → σ.Fills r.source →
      Rewrites t law (r.source.map σ.fill) (r.target.map σ.fill) (Slot.all.foldl (r.recount σ) t)
  | collapse {d : Definition} : (∀ s ∈ d.operands, s.isOperand = true) →
      Rewrites t .substitution d.symbols [.var (t.define d).1] (t.define d).2
  | spellOut {v : Var} {d : Definition} : t.definition? v = some d →
      Rewrites t .substitution [.var v] d.symbols (t.expand (.var v))

/-- An edit is one of the cases, at the start of the window, and fits. -/
structure Edit.Performs (e : Edit) (law : Law) (t : Bindings) (room : Nat) (window : List Symbol) :
    Prop where
  rewrites : law.Rewrites t (window.take e.width) e.put e.table
  width_le : e.width ≤ window.length
  room : e.put.length ≤ e.width + room

theorem Rule.edit?_eq_some {r : Rule} {law : Law} (hr : r ∈ law.rules) {t : Bindings} {room : Nat}
    {window : List Symbol} {e : Edit} (h : r.edit? t room window = some e) :
    e.Performs law t room window := by
  unfold edit? at h
  split at h
  · rename_i hroom
    split at h
    · simp at h
    · rename_i σ hfit
      rw [Option.some.injEq] at h
      subst h
      obtain ⟨hfills, hpre⟩ := fit_empty_eq_some hfit
      have hlen := hpre.length_le
      rw [List.length_map] at hlen
      have htake : window.take r.source.length = r.source.map σ.fill := by
        have := List.prefix_iff_eq_take.mp hpre
        rw [List.length_map] at this
        exact this.symm
      refine ⟨?_, hlen, ?_⟩
      · rw [htake]
        exact .rule hr hfills
      · rw [List.length_map]
        exact hroom
  · simp at h

theorem Law.collapse_performs {t : Bindings} {room : Nat} {rest : List Symbol} {d : Definition}
    (h : ∀ s ∈ d.operands, s.isOperand = true) :
    (collapse t d).Performs .substitution t room (d.symbols ++ rest) := by
  refine ⟨?_, ?_, ?_⟩
  · show Rewrites t _ ((d.symbols ++ rest).take d.symbols.length) _ _
    rw [List.take_left]
    exact .collapse h
  · show d.symbols.length ≤ (d.symbols ++ rest).length
    rw [List.length_append]
    omega
  · show 1 ≤ d.symbols.length + room
    have : 1 ≤ d.symbols.length := Nat.le_add_left ..
    omega

theorem Law.substitute?_eq_some {t : Bindings} {room : Nat} {window : List Symbol} {e : Edit}
    (h : substitute? t room window = some e) : e.Performs .substitution t room window := by
  unfold substitute? at h
  split at h
  · rename_i a rest
    split at h
    · rename_i ha
      rw [Option.some.injEq] at h
      subst h
      exact collapse_performs (d := .neg a) (by simpa [Definition.operands] using ha)
    · simp at h
  · rename_i a b rest
    split at h
    · rename_i hab
      rw [Option.some.injEq] at h
      subst h
      exact collapse_performs (d := .disj a b) (by simpa [Definition.operands] using hab)
    · simp at h
  · rename_i a b rest
    split at h
    · rename_i hab
      rw [Option.some.injEq] at h
      subst h
      exact collapse_performs (d := .conj a b) (by simpa [Definition.operands] using hab)
    · simp at h
  · rename_i v rest
    split at h
    · simp at h
    · rename_i d hd
      split at h
      · rename_i hroom
        rw [Option.some.injEq] at h
        subst h
        exact ⟨.spellOut hd, Nat.le_add_left .., hroom⟩
      · simp at h
  · simp at h

theorem Law.edit?_eq_some {law : Law} {t : Bindings} {room : Nat} {window : List Symbol} {e : Edit}
    (h : law.edit? t room window = some e) : e.Performs law t room window := by
  unfold edit? at h
  split at h
  · exact substitute?_eq_some h
  · obtain ⟨r, hr, he⟩ := List.exists_of_findSome?_eq_some h
    exact r.edit?_eq_some hr he

/-! ## The tables of rules -/

/-- Only slots stand for variables, each slot of the result is found in the match, and neither side
of the rule is empty. -/
def Rule.isSafe (r : Rule) : Bool :=
  !r.source.isEmpty && !r.target.isEmpty &&
    (r.source ++ r.target).all (fun
      | .sym s => s.var? == none
      | .slot _ => true) &&
    Slot.all.all fun x => r.source.contains (.slot x) || !r.target.contains (.slot x)

theorem Law.isSafe_of_mem_rules {law : Law} {r : Rule} (h : r ∈ law.rules) : r.isSafe = true := by
  have hall : ∀ r ∈ law.rules, r.isSafe = true := by
    cases law <;> decide
  exact hall r h

namespace Rule

variable {r : Rule}

theorem source_ne_nil (h : r.isSafe = true) : r.source ≠ [] := by
  unfold isSafe at h
  intro hnil
  simp [hnil] at h

theorem target_ne_nil (h : r.isSafe = true) : r.target ≠ [] := by
  unfold isSafe at h
  intro hnil
  simp [hnil] at h

theorem var?_of_sym_mem (h : r.isSafe = true) {s : Symbol} (hs : .sym s ∈ r.source ++ r.target) :
    s.var? = none := by
  unfold isSafe at h
  simp only [Bool.and_eq_true, List.all_eq_true] at h
  simpa using h.1.2 _ hs

theorem slot_mem_source (h : r.isSafe = true) {x : Slot} (hx : .slot x ∈ r.target) :
    .slot x ∈ r.source := by
  unfold isSafe at h
  simp only [Bool.and_eq_true, List.all_eq_true] at h
  have := h.2 x (by cases x <;> simp [Slot.all])
  simpa [hx] using this

end Rule

namespace Law.Rewrites

variable {t t' : Bindings} {law : Law} {old new : List Symbol}

theorem old_ne_nil (h : law.Rewrites t old new t') : old ≠ [] := by
  cases h with
  | rule hr _ => simpa using Rule.source_ne_nil (isSafe_of_mem_rules hr)
  | collapse _ => simp [Definition.symbols]
  | spellOut _ => simp

theorem new_ne_nil (h : law.Rewrites t old new t') : new ≠ [] := by
  cases h with
  | rule hr _ => simpa using Rule.target_ne_nil (isSafe_of_mem_rules hr)
  | collapse _ => simp
  | spellOut _ => simp [Definition.symbols]

end Law.Rewrites

/-! ## Steps -/

namespace State

/-- What a step at a position leaves: new symbols for old ones there, all else as it was. -/
structure Steps (s u : State) (law : Law) (position : Nat) : Prop where
  replaced : ∃ old new rest, s.formula.body = s.formula.body.take position ++ old ++ rest ∧
    u.formula.body = s.formula.body.take position ++ new ++ rest ∧
    law.Rewrites s.table old new u.table
  inside : position < s.formula.stop
  capacity : u.formula.capacity = s.formula.capacity
  vars : u.formula.vars = s.formula.vars

theorem fits_of_performs {f : Formula} {law : Law} {t : Bindings} {position : Nat} {e : Edit}
    (h : e.Performs law t f.slack (f.body.drop position)) :
    position < f.stop ∧ f.Fits position e.width e.put := by
  have hwidth := h.width_le
  have hpos : 0 < e.width := by
    have hne := h.rewrites.old_ne_nil
    apply Nat.pos_of_ne_zero
    intro hzero
    rw [hzero, List.take_zero] at hne
    exact hne rfl
  rw [List.length_drop, f.length_body] at hwidth
  exact ⟨by omega, by omega, h.room⟩

theorem applyLaw?_eq_some {s u : State} {law : Law} {position : Nat}
    (h : s.applyLaw? law position = some u) : s.Steps u law position := by
  unfold applyLaw? at h
  obtain ⟨e, he, rfl⟩ := Option.map_eq_some_iff.mp h
  have hp := Law.edit?_eq_some he
  obtain ⟨hinside, hfits⟩ := fits_of_performs hp
  refine ⟨⟨_, e.put, s.formula.body.drop (position + e.width), ?_, ?_, hp.rewrites⟩, hinside,
    Formula.capacity_splice hfits, Formula.vars_splice ..⟩
  · rw [List.append_assoc, ← List.drop_drop, List.take_append_drop, List.take_append_drop]
  · exact Formula.body_splice hfits

theorem step?_eq_some {s u : State} {step : Step} (h : s.step? step = some u) :
    s.Steps u step.law step.position := applyLaw?_eq_some h

theorem replay_nil (goal : Goal) (i : Nat) (s : State) :
    replay goal i s [] = (.unfinished, s) := rfl

theorem replay_cons (goal : Goal) (i : Nat) (s : State) (step : Step) (p : Proof) :
    replay goal i s (step :: p) = match s.step? step with
      | none => (.rejected i, s)
      | some t =>
        if t.formula.isGoal goal then (.proved (i + 1), t) else replay goal (i + 1) t p := by
  cases hu : s.step? step <;> simp only [replay, Engine.replay, Engine.exact, take, hu]

end State

end LawProof
