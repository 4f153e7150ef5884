import LawProof.Proofs.Matching
import LawProof.Proofs.Meaning

/-!
# Round trips

Many steps are taken back by the same law at the same position. The rules of a law come in pairs of
which one leads back from where the other led, up to what stands in the slots. No other rule of the
law matches there, and there is room for what has been there before. The table comes back as well:
what it has on record is told by the formula and by the definitions, and no step that is taken back
has changed a definition that is still in use.
-/

namespace LawProof

open Body (varsOf)

/-! ## Rules that take each other back -/

def Piece.isOperand : Piece → Bool
  | .sym s => s.isOperand
  | .slot _ => true

/-- The piece with others in the place of the slots. -/
def Piece.under (ρ : Slot → Piece) : Piece → Piece
  | .sym s => .sym s
  | .slot x => ρ x

/-- `r.undoneBy ρ r'`: with the pieces `ρ` in its slots, `r'` leads from the target of `r` back to
its source. -/
def Rule.undoneBy (r : Rule) (ρ : Slot → Piece) (r' : Rule) : Bool :=
  r'.source.map (Piece.under ρ) == r.target && r'.target.map (Piece.under ρ) == r.source

/-- What stands in the slots where a rule is taken back: the slots themselves, the first two
exchanged, or a constant in one of these. -/
def Rule.exchanges : List (Slot → Piece) :=
  [.slot,
    fun | .a => .slot .b | .b => .slot .a | .c => .slot .c,
    fun | .a => .tru | x => .slot x,
    fun | .a => .fls | x => .slot x,
    fun | .b => .tru | x => .slot x,
    fun | .b => .fls | x => .slot x]

theorem Rule.isOperand_exchange {ρ : Slot → Piece} (h : ρ ∈ exchanges) (x : Slot) :
    (ρ x).isOperand = true := by
  have hall : ∀ ρ ∈ exchanges, ∀ x ∈ Slot.all, (ρ x).isOperand = true := by decide
  exact hall ρ h x (by cases x <;> decide)

/-- The law takes back a step that it has made where this symbol stands: the first six laws any
step, the next four the expansion of a single symbol, and a substitution the giving of a name. -/
def Law.takesBack (law : Law) (s : Symbol) : Bool :=
  match law with
  | .complement | .domination | .absorptionOr | .absorptionAnd => s.isOperand
  | .substitution => !s.isOperand
  | _ => true

theorem Law.exists_undoneBy {law : Law} {r : Rule} (hr : r ∈ law.rules)
    (h : law.index ≤ 5 ∨ r.source.head?.any Piece.isOperand = true) :
    ∃ r' ∈ law.rules, ∃ ρ ∈ Rule.exchanges, r.undoneBy ρ r' = true := by
  have hall : ∀ r ∈ law.rules, law.index ≤ 5 ∨ r.source.head?.any Piece.isOperand = true →
      ∃ r' ∈ law.rules, ∃ ρ ∈ Rule.exchanges, r.undoneBy ρ r' = true := by
    cases law <;> decide
  exact hall r hr h

namespace Filling

theorem isOperand_fill {σ : Filling} (hσ : σ.Simple) (p : Piece) :
    (σ.fill p).isOperand = p.isOperand := by
  cases p with
  | sym s => rfl
  | slot x => exact isOperand_fill_slot hσ x

/-- The filling in which every slot holds what the piece in it stands for. -/
def through (σ : Filling) (ρ : Slot → Piece) : Filling :=
  ⟨some (σ.fill (ρ .a)), some (σ.fill (ρ .b)), some (σ.fill (ρ .c))⟩

theorem get?_through (σ : Filling) (ρ : Slot → Piece) (x : Slot) :
    (σ.through ρ).get? x = some (σ.fill (ρ x)) := by
  cases x <;> rfl

theorem map_fill_through (σ : Filling) (ρ : Slot → Piece) (pieces : List Piece) :
    pieces.map (σ.through ρ).fill = (pieces.map (Piece.under ρ)).map σ.fill := by
  rw [List.map_map]
  apply List.map_congr_left
  intro p _
  cases p with
  | sym s => rfl
  | slot x => exact fill_slot (get?_through σ ρ x)

theorem fills_through {σ : Filling} (hσ : σ.Simple) {ρ : Slot → Piece}
    (hρ : ∀ x, (ρ x).isOperand = true) (pieces : List Piece) : (σ.through ρ).Fills pieces := by
  refine ⟨fun x _ => ⟨_, get?_through σ ρ x⟩, ?_⟩
  intro x s hs
  rw [get?_through, Option.some.injEq] at hs
  rw [← hs, isOperand_fill hσ, hρ]

end Filling

/-! ## Names -/

namespace Bindings

theorem Sound.within_expand_define {t : Bindings} (h : t.Sound) (d : Definition) :
    ((t.define d).2.expand (.var (t.define d).1)).Within t := by
  have hv : (t.define d).1 = ⟨t.next⟩ := by rw [h.define_eq]
  have hentry : (t.define d).2.get? (t.define d).1 = some ⟨1, some d⟩ := by
    rw [h.get?_define, if_pos hv]
  have hlowered : Lowered (t.define d).2 _ [(t.define d).1] :=
    lowered_expand (by rw [total_of_get? hentry]; exact Nat.one_pos)
  intro w e he
  have hdefined := within_expand _ _ w e he
  rw [h.definition?_define] at hdefined
  split at hdefined
  · -- The name had its one occurrence, so its entry is gone.
    rename_i hw
    have hgone : ((t.define d).2.expand (.var (t.define d).1)).get? w = none := by
      rw [hlowered w, hw, ← hv, hentry, List.count_singleton_self]
      rfl
    unfold definition? at he
    rw [hgone] at he
    simp at he
  · exact hdefined

theorem Tracks.entries_eq {t u : Bindings} {xs : List Var} (h : t.Tracks xs) (hu : u.Tracks xs)
    (hw : u.Within t) : u.entries = t.entries := by
  obtain ⟨vs, hvs, hcount⟩ := h.counted
  obtain ⟨us, hus, hcount'⟩ := hu.counted
  have hdefinition : ∀ v b, u.get? v = some b → t.definition? v = u.definition? v := by
    intro v b hb
    cases hd : u.definition? v with
    | some d => exact hw v d hd
    | none =>
      -- What has an entry without a definition is an input.
      apply h.definition?_eq_none
      rw [definition?_of_get? hb] at hd
      have hnamed := hu.named v b hb
      rw [hd] at hnamed
      simpa using hnamed
  have hsame : us = vs := by
    refine (hus.congr fun v hv => ?_).unique hvs
    obtain ⟨b, hb⟩ := hu.get?_of_mem_spelled hus hv
    exact hdefinition v b hb
  have htotal : ∀ v, u.total v = t.total v := by
    intro v
    rw [hcount, hcount', hsame]
  have hget : ∀ v, u.get? v = t.get? v := by
    intro v
    cases hb : u.get? v with
    | none =>
      cases hc : t.get? v with
      | none => rfl
      | some c =>
        have hpos := h.positive v c hc
        rw [← total_of_get? hc, ← htotal, total_eq, hb] at hpos
        simp at hpos
    | some b =>
      have hpos := hu.positive v b hb
      rw [← total_of_get? hb, htotal] at hpos
      obtain ⟨c, hc, hccount⟩ := get?_of_total_pos hpos
      have hdef := hdefinition v b hb
      rw [definition?_of_get? hb, definition?_of_get? hc] at hdef
      rw [← htotal, total_of_get? hb] at hccount
      rw [hc, Option.some.injEq, Binding.mk.injEq]
      exact ⟨hccount.symm, hdef.symm⟩
  exact entries_ext hu.ordered h.ordered hget

end Bindings

/-! ## Steps -/

theorem Law.index_le_of_takesBack {law : Law} {s : Symbol} (h : law.takesBack s = true)
    (hlaw : law ≠ .substitution) : law.index ≤ 5 ∨ s.isOperand = true := by
  cases law with
  | complement | domination | absorptionOr | absorptionAnd => exact Or.inr h
  | substitution => exact absurd rfl hlaw
  | _ => exact Or.inl (by decide)

/-- What a law has put in the place of something, it may put back again, and no definition is then
in the table that was not there before. -/
theorem Law.Rewrites.exists_back {law : Law} {t t' : Bindings} {old new : List Symbol}
    {s : Symbol} (h : law.Rewrites t old new t') (ht : t.Sound) (hs : old.head? = some s)
    (hback : law.takesBack s = true) : ∃ t'', law.Rewrites t' new old t'' ∧ t''.Within t := by
  cases h with
  | @rule _ r σ hr hσ =>
    have hlaw : law ≠ .substitution := by
      rintro rfl
      simp [rules] at hr
    have hcase : law.index ≤ 5 ∨ r.source.head?.any Piece.isOperand = true := by
      refine (index_le_of_takesBack hback hlaw).imp_right fun hop => ?_
      rw [List.head?_map, Option.map_eq_some_iff] at hs
      obtain ⟨p, hp, rfl⟩ := hs
      rw [Filling.isOperand_fill hσ.operand] at hop
      simp [hp, hop]
    obtain ⟨r', hr', ρ, hρ, hundone⟩ := exists_undoneBy hr hcase
    simp only [Rule.undoneBy, Bool.and_eq_true, beq_iff_eq] at hundone
    have hfills := Filling.fills_through hσ.operand (Rule.isOperand_exchange hρ) r'.source
    have hrewrites := Rewrites.rule (t := Slot.all.foldl (r.recount σ) t) hr' hfills
    rw [Filling.map_fill_through, Filling.map_fill_through, hundone.1, hundone.2] at hrewrites
    have hback := Bindings.within_foldl_recount r' (σ.through ρ) Slot.all
      (Slot.all.foldl (r.recount σ) t)
    exact ⟨_, hrewrites, hback.trans (Bindings.within_foldl_recount r σ Slot.all t)⟩
  | @collapse d hd =>
    have hname : (t.define d).2.definition? (t.define d).1 = some d := by
      rw [ht.definition?_define, ht.define_eq, if_pos rfl]
    exact ⟨_, .spellOut hname, ht.within_expand_define d⟩
  | @spellOut v d hd =>
    obtain rfl : .var v = s := by simpa using hs
    simp [takesBack, Symbol.isOperand] at hback

namespace State

/-- A second application of a law at the same position takes the first one back. -/
theorem applyLaw?_takes_back {body : List Symbol} {slack : Nat} {f : Formula}
    (hf : Formula.ofBody body slack = .ok f) (p : Proof) {law : Law} {position : Nat} {a : Symbol}
    {u : State} (ha : ((ofFormula f).after p).formula.body[position]? = some a)
    (hback : law.takesBack a = true)
    (hu : ((ofFormula f).after p).applyLaw? law position = some u) :
    let s := (ofFormula f).after p
    ∃ w, u.applyLaw? law position = some w ∧ w.formula.body = s.formula.body ∧
      w.formula.stop = s.formula.stop ∧ w.table.entries = s.table.entries := by
  intro s
  have htracked : s.Tracked := (tracked_ofFormula hf).after p
  have hstep := applyLaw?_eq_some hu
  obtain ⟨old, new, rest, hbefore, hafter, hr⟩ := hstep.replaced
  change s.formula.body = s.formula.body.take position ++ old ++ rest at hbefore
  change u.formula.body = s.formula.body.take position ++ new ++ rest at hafter
  have hlen : (s.formula.body.take position).length = position := by
    rw [List.length_take, s.formula.length_body]
    exact Nat.min_eq_left (Nat.le_of_lt hstep.inside)
  have hhead : old.head? = some a := by
    obtain ⟨b, tail, rfl⟩ := List.exists_cons_of_ne_nil hr.old_ne_nil
    change s.formula.body[position]? = some a at ha
    rw [hbefore, List.append_assoc, List.getElem?_append_right (by omega), hlen] at ha
    simpa using ha
  obtain ⟨t, hundo, hwithin⟩ := hr.exists_back htracked.toSound hhead hback
  -- What was there before did fit, so there is room for it again.
  have hroom : old.length ≤ new.length + u.formula.slack := by
    have hstop := congrArg List.length hbefore
    have hstop' := congrArg List.length hafter
    simp only [List.length_append, Formula.length_body] at hstop hstop'
    have hcap := hstep.capacity
    rw [← Formula.stop_add_slack, ← Formula.stop_add_slack] at hcap
    change u.formula.stop + u.formula.slack + 1 = s.formula.stop + s.formula.slack + 1 at hcap
    omega
  obtain ⟨w, hw, hbody, htable⟩ := applyLaw?_of_rewrites hafter hundo hroom
  rw [hlen] at hw
  rw [← hbefore] at hbody
  have hwtracked : w.Tracked := (htracked.steps hstep).steps (applyLaw?_eq_some hw)
  unfold Tracked at hwtracked
  rw [hbody] at hwtracked
  refine ⟨w, hw, hbody, ?_, htracked.entries_eq hwtracked (htable ▸ hwithin)⟩
  rw [← w.formula.length_body, hbody, s.formula.length_body]

end State

end LawProof
