import LawProof.Proofs.Values

/-!
# When a law applies

`Law.Rewrites` says what a law can do. Here is the converse: what it allows is done wherever the
result fits. No two rules of a law match the same symbols. So the order in which they are tried does
not matter, and where the room for one rule is missing no other rule of the law comes in. A step
that applies does the same on a longer tape.
-/

namespace LawProof

/-! ## Matching finds what is there -/

theorem fit_of_prefix {pieces : List Piece} {window : List Symbol} {ρ σ : Filling}
    (hσ : σ.Fills pieces) (hρ : ρ.Extends σ) (h : pieces.map σ.fill <+: window) :
    ∃ τ, fit pieces window ρ = some τ ∧ τ.Extends σ := by
  induction pieces generalizing window ρ with
  | nil => exact ⟨ρ, rfl, hρ⟩
  | cons p pieces ih =>
    cases window with
    | nil => simp at h
    | cons t window =>
      rw [List.map_cons, List.cons_prefix_cons] at h
      obtain ⟨rfl, h⟩ := h
      have hrest : σ.Fills pieces := ⟨fun x hx => hσ.filled x (by simp [hx]), hσ.operand⟩
      cases p with
      | sym s =>
        obtain ⟨τ, hτ, hext⟩ := ih hrest hρ h
        refine ⟨τ, ?_, hext⟩
        simp only [fit, Filling.fill, if_true]
        exact hτ
      | slot x =>
        obtain ⟨s, hs⟩ := hσ.filled x (by simp)
        rw [Filling.fill_slot hs]
        cases hx : ρ.get? x with
        | some r =>
          obtain rfl : s = r := Option.some.inj (hs.symm.trans (hρ x r hx))
          obtain ⟨τ, hτ, hext⟩ := ih hrest hρ h
          refine ⟨τ, ?_, hext⟩
          simp only [fit, hx, if_true]
          exact hτ
        | none =>
          have hput : (ρ.put x s).Extends σ := by
            intro y r hr
            rw [Filling.get?_put] at hr
            split at hr
            · rename_i hy
              rw [hy, hs]
              exact hr
            · exact hρ y r hr
          obtain ⟨τ, hτ, hext⟩ := ih hrest hput h
          refine ⟨τ, ?_, hext⟩
          simp only [fit, hx, hσ.operand x s hs, if_true]
          exact hτ

theorem Filling.map_fill_congr {σ τ : Filling} {pieces : List Piece}
    (h : ∀ x, .slot x ∈ pieces → τ.get? x = σ.get? x) :
    pieces.map τ.fill = pieces.map σ.fill := by
  apply List.map_congr_left
  intro p hp
  cases p with
  | sym s => rfl
  | slot x => simp only [fill, h x hp]

namespace Rule

theorem recount_congr {r : Rule} (hsafe : r.isSafe = true) {σ τ : Filling}
    (h : ∀ x, .slot x ∈ r.source → τ.get? x = σ.get? x) : r.recount τ = r.recount σ := by
  funext t x
  unfold recount
  by_cases hx : .slot x ∈ r.source
  · rw [h x hx]
  · have htarget : .slot x ∉ r.target := fun hm => hx (slot_mem_source hsafe hm)
    simp only [uses, List.count_eq_zero.mpr hx, List.count_eq_zero.mpr htarget]
    cases τ.get? x <;> cases σ.get? x <;> rfl

theorem edit?_of_fills {r : Rule} {law : Law} (hr : r ∈ law.rules) {σ : Filling}
    (hσ : σ.Fills r.source) {room : Nat} (hroom : r.target.length ≤ r.source.length + room)
    (t : Bindings) (rest : List Symbol) :
    r.edit? t room (r.source.map σ.fill ++ rest) =
      some ⟨r.source.length, r.target.map σ.fill, Slot.all.foldl (r.recount σ) t⟩ := by
  have hsafe := Law.isSafe_of_mem_rules hr
  have hempty : ({} : Filling).Extends σ := by
    intro x s hs
    cases x <;> simp [Filling.get?] at hs
  obtain ⟨τ, hτ, hext⟩ := fit_of_prefix hσ hempty (List.prefix_append _ rest)
  have hsame : ∀ x, .slot x ∈ r.source → τ.get? x = σ.get? x := by
    intro x hx
    obtain ⟨s, hs⟩ := (fit_empty_eq_some hτ).1.filled x hx
    rw [hs, hext x s hs]
  have htarget := Filling.map_fill_congr fun x hx => hsame x (slot_mem_source hsafe hx)
  unfold edit?
  rw [if_pos hroom, hτ]
  simp only [htarget, recount_congr hsafe hsame]

end Rule

/-! ## One rule at most -/

/-- No symbol is matched by both pieces. -/
def Piece.clashes : Piece → Piece → Bool
  | .sym s, .sym t => s != t
  | .sym s, .slot _ | .slot _, .sym s => !s.isOperand
  | .slot _, .slot _ => false

/-- Somewhere in the two sources stand pieces that clash. -/
def Rule.clashes (r r' : Rule) : Bool := (List.zipWith Piece.clashes r.source r'.source).any id

theorem Law.clashes_of_ne {law : Law} {r r' : Rule} (hr : r ∈ law.rules) (hr' : r' ∈ law.rules)
    (hne : r ≠ r') : r.clashes r' = true := by
  have hall : ∀ r ∈ law.rules, ∀ r' ∈ law.rules, r = r' ∨ r.clashes r' = true := by
    cases law <;> decide
  exact (hall r hr r' hr').resolve_left hne

namespace Filling

/-- All operands that have been found are operands. -/
def Simple (σ : Filling) : Prop := ∀ x s, σ.get? x = some s → s.isOperand = true

theorem fill_ne {σ τ : Filling} (hσ : σ.Simple) (hτ : τ.Simple) {p q : Piece}
    (h : p.clashes q = true) : σ.fill p ≠ τ.fill q := by
  intro heq
  match p, q with
  | .sym s, .sym t =>
    simp only [Piece.clashes, bne_iff_ne] at h
    exact h heq
  | .sym s, .slot x =>
    have := isOperand_fill_slot hτ x
    rw [← heq] at this
    simp_all [Piece.clashes, fill]
  | .slot x, .sym s =>
    have := isOperand_fill_slot hσ x
    rw [heq] at this
    simp_all [Piece.clashes, fill]
  | .slot x, .slot y => simp [Piece.clashes] at h

theorem not_prefix_of_clashes {σ τ : Filling} (hσ : σ.Simple) (hτ : τ.Simple)
    {ps qs : List Piece} {window : List Symbol}
    (h : (List.zipWith Piece.clashes ps qs).any id = true)
    (hp : ps.map σ.fill <+: window) : ¬ qs.map τ.fill <+: window := by
  intro hq
  induction ps generalizing qs window with
  | nil => simp at h
  | cons p ps ih =>
    cases qs with
    | nil => simp at h
    | cons q qs =>
      cases window with
      | nil => simp at hp
      | cons s window =>
        rw [List.map_cons, List.cons_prefix_cons] at hp hq
        rw [List.zipWith_cons_cons, List.any_cons, Bool.or_eq_true] at h
        rcases h with h | h
        · exact fill_ne hσ hτ h (hp.1.trans hq.1.symm)
        · exact ih h hp.2 hq.2

end Filling

namespace Law

theorem rule_unique {law : Law} {r r' : Rule} (hr : r ∈ law.rules) (hr' : r' ∈ law.rules)
    {σ τ : Filling} (hσ : σ.Simple) (hτ : τ.Simple) {window : List Symbol}
    (h : r.source.map σ.fill <+: window) (h' : r'.source.map τ.fill <+: window) : r = r' := by
  by_cases hne : r = r'
  · exact hne
  · exact absurd h' (Filling.not_prefix_of_clashes hσ hτ (clashes_of_ne hr hr' hne) h)

theorem findSome?_edit?_of_mem {law : Law} {r : Rule} (hr : r ∈ law.rules) {t : Bindings}
    {room : Nat} {window : List Symbol} {e : Edit} (h : r.edit? t room window = some e) :
    (law.rules.findSome? fun r => r.edit? t room window) = some e := by
  -- Any rule that makes an edit here matches here, so it is this one.
  have hfits : ∀ r : Rule, ∀ e, r.edit? t room window = some e →
      ∃ σ : Filling, σ.Simple ∧ r.source.map σ.fill <+: window := by
    intro r e he
    unfold Rule.edit? at he
    split at he
    · split at he
      · simp at he
      · rename_i σ hfit
        obtain ⟨hfills, hpre⟩ := fit_empty_eq_some hfit
        exact ⟨σ, hfills.operand, hpre⟩
    · simp at he
  obtain ⟨σ, hσ, hpre⟩ := hfits r e h
  cases hfind : law.rules.findSome? fun r => r.edit? t room window with
  | none =>
    rw [List.findSome?_eq_none_iff] at hfind
    rw [hfind r hr] at h
    simp at h
  | some e' =>
    obtain ⟨r', hr', he'⟩ := List.exists_of_findSome?_eq_some hfind
    obtain ⟨τ, hτ, hpre'⟩ := hfits r' e' he'
    obtain rfl := rule_unique hr hr' hσ hτ hpre hpre'
    rw [← h, he']

theorem edit?_of_rewrites {law : Law} {t t' : Bindings} {old new : List Symbol}
    (h : law.Rewrites t old new t') {room : Nat} (hroom : new.length ≤ old.length + room)
    (rest : List Symbol) : law.edit? t room (old ++ rest) = some ⟨old.length, new, t'⟩ := by
  cases h with
  | @rule _ r σ hr hσ =>
    simp only [List.length_map] at hroom ⊢
    have hedit := findSome?_edit?_of_mem hr (Rule.edit?_of_fills hr hσ hroom t rest)
    cases law with
    | substitution => simp [rules] at hr
    | _ => exact hedit
  | @collapse d hd =>
    cases d with
    | neg a =>
      have ha : a.isOperand = true := hd a (by simp [Definition.operands])
      simp [edit?, substitute?, Definition.symbols, Definition.operator, Definition.operands,
        collapse, ha]
    | disj a b | conj a b =>
      have ha : a.isOperand = true := hd a (by simp [Definition.operands])
      have hb : b.isOperand = true := hd b (by simp [Definition.operands])
      simp [edit?, substitute?, Definition.symbols, Definition.operator, Definition.operands,
        collapse, ha, hb]
  | @spellOut v d hd =>
    rw [List.length_singleton] at hroom
    simp [edit?, substitute?, hd, hroom]

theorem edit?_eq_some_iff {law : Law} {t : Bindings} {room : Nat} {window : List Symbol}
    {e : Edit} : law.edit? t room window = some e ↔ e.Performs law t room window := by
  refine ⟨edit?_eq_some, ?_⟩
  rintro ⟨hr, hwidth, hroom⟩
  have hlen : (window.take e.width).length = e.width := List.length_take_of_le hwidth
  have := edit?_of_rewrites hr (by omega : _ ≤ _ + room) (window.drop e.width)
  rw [List.take_append_drop, hlen] at this
  exact this

end Law

/-! ## Steps -/

namespace State

theorem applyLaw?_of_rewrites {s : State} {law : Law} {pre old new rest : List Symbol}
    {t : Bindings} (hbody : s.formula.body = pre ++ old ++ rest)
    (h : law.Rewrites s.table old new t)
    (hroom : new.length ≤ old.length + s.formula.slack) :
    ∃ u, s.applyLaw? law pre.length = some u ∧ u.formula.body = pre ++ new ++ rest ∧
      u.table = t := by
  have hdrop : s.formula.body.drop pre.length = old ++ rest := by
    rw [hbody, List.append_assoc, List.drop_left]
  have hlen : pre.length + old.length ≤ s.formula.stop := by
    rw [← s.formula.length_body, hbody]
    simp only [List.length_append]
    omega
  have hedit := Law.edit?_of_rewrites h hroom rest
  rw [← hdrop] at hedit
  refine ⟨s.perform pre.length ⟨old.length, new, t⟩, ?_, ?_, rfl⟩
  · unfold applyLaw?
    rw [hedit]
    rfl
  · show (s.formula.splice pre.length old.length new).body = _
    rw [Formula.body_splice ⟨hlen, hroom⟩, hbody, List.append_assoc pre, List.take_left,
      ← List.drop_drop, List.drop_left, List.drop_left]

/-! ## More room -/

/-- `s.Roomier u`: `u` has the formula and the table of `s` and at least as much room. -/
structure Roomier (s u : State) : Prop where
  body : u.formula.body = s.formula.body
  table : u.table = s.table
  slack : s.formula.slack ≤ u.formula.slack

theorem Roomier.step? {s u s' : State} {step : Step} (h : s.Roomier u)
    (hs : s.step? step = some s') : ∃ u', u.step? step = some u' ∧ s'.Roomier u' := by
  obtain ⟨e, he, rfl⟩ := Option.map_eq_some_iff.mp hs
  have hperforms := Law.edit?_eq_some he
  have hmore : e.Performs step.law u.table u.formula.slack (u.formula.body.drop step.position) := by
    have hroom := Nat.le_trans hperforms.room (Nat.add_le_add_left h.slack e.width)
    rw [h.table, h.body]
    exact ⟨hperforms.rewrites, hperforms.width_le, hroom⟩
  have hfits := (fits_of_performs hperforms).2
  have hfits' := (fits_of_performs hmore).2
  have hbody : (u.formula.splice step.position e.width e.put).body =
      (s.formula.splice step.position e.width e.put).body := by
    rw [Formula.body_splice hfits, Formula.body_splice hfits', h.body]
  refine ⟨u.perform step.position e, ?_, hbody, rfl, ?_⟩
  · unfold State.step? applyLaw?
    rw [Law.edit?_eq_some_iff.mpr hmore]
    rfl
  · -- Both bodies grow by the same, and neither tape does.
    have hlen := congrArg List.length h.body
    have hlen' := congrArg List.length hbody
    simp only [Formula.length_body] at hlen hlen'
    have hcap := Formula.capacity_splice hfits
    have hcap' := Formula.capacity_splice hfits'
    simp only [← Formula.stop_add_slack] at hcap hcap'
    have hslack := h.slack
    show (s.formula.splice step.position e.width e.put).slack ≤
      (u.formula.splice step.position e.width e.put).slack
    omega

theorem Roomier.replay {s u : State} (h : s.Roomier u) {goal : Goal} {i n : Nat} {p : Proof}
    (hp : (State.replay goal i s p).1 = .proved n) : (State.replay goal i u p).1 = .proved n := by
  induction p generalizing s u i with
  | nil => simp [State.replay_nil] at hp
  | cons step p ih =>
    simp only [State.replay_cons] at hp ⊢
    split at hp
    · simp at hp
    · rename_i s' hs'
      obtain ⟨u', hu', h'⟩ := h.step? hs'
      have hgoal : u'.formula.isGoal goal = s'.formula.isGoal goal := by
        unfold Formula.isGoal
        rw [h'.body]
      rw [hu']
      simp only [hgoal]
      split at hp
      · rename_i htrue
        rw [if_pos htrue]
        exact hp
      · rename_i hfalse
        rw [if_neg hfalse]
        exact ih h' hp

end State

end LawProof
