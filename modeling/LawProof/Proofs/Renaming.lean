import LawProof.Proofs.Translations
import LawProof.Proofs.Scanning
import LawProof.Proofs.Trees
import LawProof.Proofs.TruthTables
import Mathlib.Logic.Equiv.Basic

/-!
# Renaming the inputs

Two formulas that differ by a permutation of their inputs have the same proofs. The permuted formula
is accepted where the formula is. Every step applies to both or to neither and leads to formulas and
tables that again differ by the permutation: synthetic variables are named by the order in which
they are made, whatever the ids of the inputs. So a replay ends in the same way, and a search finds
the same proof.
-/

namespace LawProof

/-! ## Renamed symbols and tables -/

/-- Puts other variables in the place of the first `k` inputs, as a permutation says, and leaves all
others as they are. -/
def Var.permute {k : Nat} (π : Equiv.Perm (Fin k)) : Equiv.Perm Var where
  toFun v := if h : v.id < k then ⟨π ⟨v.id, h⟩⟩ else v
  invFun v := if h : v.id < k then ⟨π.symm ⟨v.id, h⟩⟩ else v
  left_inv v := by by_cases h : v.id < k <;> simp [h]
  right_inv v := by by_cases h : v.id < k <;> simp [h]

def Symbol.rename (ρ : Var → Var) : Symbol → Symbol
  | .var v => .var (ρ v)
  | s => s

def Definition.rename (ρ : Var → Var) : Definition → Definition
  | .neg a => .neg (a.rename ρ)
  | .disj a b => .disj (a.rename ρ) (b.rename ρ)
  | .conj a b => .conj (a.rename ρ) (b.rename ρ)

/-- A renaming as a translation. -/
def Translation.rename (ρ : Var → Var) : Translation where
  symbol := Symbol.rename ρ
  var := ρ
  definition := Definition.rename ρ
  var?_symbol := by
    intro s
    cases s <;> rfl
  isOperand_symbol := by
    intro s
    cases s <;> rfl
  symbols_definition := by
    intro d
    cases d <;> rfl

def Binding.rename (ρ : Var → Var) (b : Binding) : Binding := (Translation.rename ρ).binding b

/-- The tables differ by the names of variables: the counts and what is defined agree, and so does
the next id. -/
structure Bindings.Renamed (ρ : Var → Var) (t u : Bindings) : Prop where
  get? : ∀ v, u.get? (ρ v) = (t.get? v).map (Binding.rename ρ)
  next : u.next = t.next

/-- The states differ by the names of variables. -/
structure State.Renamed (ρ : Var → Var) (s u : State) : Prop where
  formula : u.formula = s.formula.map (Symbol.rename ρ)
  table : s.table.Renamed ρ u.table

namespace Var

variable {k : Nat} (π : Equiv.Perm (Fin k)) {v : Var}

theorem permute_of_lt (h : v.id < k) : permute π v = ⟨π ⟨v.id, h⟩⟩ := dif_pos h

theorem permute_of_le (h : k ≤ v.id) : permute π v = v := dif_neg (Nat.not_lt.mpr h)

theorem id_permute_lt_iff : (permute π v).id < k ↔ v.id < k := by
  rcases Nat.lt_or_ge v.id k with h | h
  · rw [permute_of_lt π h]
    exact iff_of_true (Fin.isLt _) h
  · rw [permute_of_le π h]

end Var

section

variable (ρ : Equiv.Perm Var)

theorem Symbol.rename_symm_rename (s : Symbol) : (s.rename ρ).rename ρ.symm = s := by
  cases s <;> simp [rename]

theorem Symbol.rename_injective : Function.Injective (Symbol.rename ρ) :=
  Function.LeftInverse.injective (Symbol.rename_symm_rename ρ)

theorem Definition.rename_symm_rename (d : Definition) : (d.rename ρ).rename ρ.symm = d := by
  cases d <;> simp [rename, Symbol.rename_symm_rename]

theorem Binding.rename_symm_rename (b : Binding) : (b.rename ρ).rename ρ.symm = b := by
  obtain ⟨count, definition⟩ := b
  cases definition <;>
    simp [rename, Translation.binding, Translation.rename, Definition.rename_symm_rename]

end

namespace Bindings

variable {ρ : Equiv.Perm Var} {t u : Bindings}

theorem Renamed.symm (h : t.Renamed ρ u) : u.Renamed ρ.symm t where
  get? w := by
    have hw := h.get? (ρ.symm w)
    rw [Equiv.apply_symm_apply] at hw
    rw [hw, Option.map_map]
    cases t.get? (ρ.symm w) <;> simp [Binding.rename_symm_rename]
  next := h.next.symm

theorem Renamed.length_entries (h : t.Renamed ρ u) (ht : Ordered t.entries)
    (hu : Ordered u.entries) : u.entries.length = t.entries.length := by
  have hnodup {l : List (Var × Binding)} (hl : Ordered l) : l.Nodup :=
    hl.imp fun hlt heq => by simp [heq] at hlt
  have hinjective : Function.Injective fun e : Var × Binding => (ρ e.1, e.2.rename ρ) := by
    rintro ⟨v, b⟩ ⟨w, c⟩ heq
    obtain ⟨hv, hb⟩ := Prod.mk.inj heq
    refine Prod.ext (ρ.injective hv) ?_
    rw [← b.rename_symm_rename ρ, hb, Binding.rename_symm_rename]
  have hperm : u.entries.Perm (t.entries.map fun e => (ρ e.1, e.2.rename ρ)) := by
    rw [List.perm_ext_iff_of_nodup (hnodup hu) ((hnodup ht).map hinjective)]
    rintro ⟨w, c⟩
    obtain ⟨v, rfl⟩ := ρ.surjective w
    rw [mem_entries_iff hu, h.get?, Option.map_eq_some_iff, List.mem_map]
    constructor
    · rintro ⟨b, hb, rfl⟩
      exact ⟨(v, b), (mem_entries_iff ht).mpr hb, rfl⟩
    · rintro ⟨⟨w, b⟩, hb, heq⟩
      obtain ⟨hw, rfl⟩ := Prod.mk.inj heq
      obtain rfl := ρ.injective hw
      exact ⟨b, (mem_entries_iff ht).mp hb, rfl⟩
  rw [hperm.length_eq, List.length_map]

theorem renamed_empty : empty.Renamed ρ empty := ⟨fun _ => rfl, rfl⟩

end Bindings

/-! ## Steps -/

namespace Translation

open Bindings (Ordered)

theorem rule_rename (ρ : Var → Var) {law : Law} {r : Rule} (hr : r ∈ law.rules) :
    (rename ρ).rule r = r := by
  have hsafe := Law.isSafe_of_mem_rules hr
  have hpiece : ∀ p ∈ r.source ++ r.target, (rename ρ).piece p = p := by
    intro p hp
    cases p with
    | slot x => rfl
    | sym s =>
      have hs := Rule.var?_of_sym_mem hsafe hp
      cases s with
      | var v => simp [Symbol.var?] at hs
      | _ => rfl
  have hmap : ∀ pieces, pieces ⊆ r.source ++ r.target → pieces.map (rename ρ).piece = pieces := by
    intro pieces hsub
    exact (List.map_congr_left fun p hp => hpiece p (hsub hp)).trans (List.map_id _)
  unfold rule
  rw [hmap _ (List.subset_append_left ..), hmap _ (List.subset_append_right ..)]

theorem carries_rename (ρ : Equiv.Perm Var) :
    (rename ρ).Carries fun t u => t.Renamed ρ u ∧ Ordered t.entries ∧ Ordered u.entries where
  get? h v := h.1.get? v
  put := by
    rintro t u ⟨h, ht, hu⟩ v b
    refine ⟨⟨?_, h.next⟩, Bindings.ordered_insert _ _ ht, Bindings.ordered_insert _ _ hu⟩
    intro w
    show (u.put (ρ v) (b.rename ρ)).get? (ρ w) = _
    simp only [Bindings.get?_put, h.get?, ρ.injective.eq_iff]
    split <;> rfl
  remove := by
    rintro t u ⟨h, ht, hu⟩ v
    refine ⟨⟨?_, h.next⟩, Bindings.ordered_erase _ ht, Bindings.ordered_erase _ hu⟩
    intro w
    show (u.remove (ρ v)).get? (ρ w) = _
    simp only [Bindings.get?_remove, h.get?, ρ.injective.eq_iff]
    split <;> rfl
  chainBound := by
    rintro t u ⟨h, ht, hu⟩
    unfold Bindings.chainBound
    rw [h.length_entries ht hu]

end Translation

/-- Every synthetic variable keeps its name. -/
def Var.FixesNames (ρ : Var → Var) : Prop := ∀ v, v.isSynthetic = true → ρ v = v

theorem Var.FixesNames.symm {ρ : Equiv.Perm Var} (h : FixesNames ρ) : FixesNames ρ.symm :=
  fun v hv => ρ.symm_apply_eq.mpr (h v hv).symm

namespace State

open Bindings (Ordered)

variable {ρ : Equiv.Perm Var} {s u : State}

theorem Renamed.symm (h : s.Renamed ρ u) : u.Renamed ρ.symm s where
  formula := by
    rw [h.formula, Formula.map_map_of_inverse (Symbol.rename_symm_rename ρ)]
  table := h.table.symm

theorem Renamed.define (h : s.Renamed ρ u) (hρ : Var.FixesNames ρ) (hs : s.Tracked)
    (hu : u.Tracked) (d : Definition) :
    (u.table.define (d.rename ρ)).1 = ρ (s.table.define d).1 ∧
      (s.table.define d).2.Renamed ρ (u.table.define (d.rename ρ)).2 ∧
      Ordered (s.table.define d).2.entries ∧ Ordered (u.table.define (d.rename ρ)).2.entries := by
  have hname : ρ ⟨s.table.next⟩ = ⟨s.table.next⟩ := hρ _ (Bindings.isSynthetic_iff.mpr hs.reserve)
  have hput := (Translation.carries_rename ρ).put
    (t := { s.table with next := s.table.next + 1 })
    (u := { u.table with next := s.table.next + 1 })
    ⟨⟨h.table.get?, rfl⟩, hs.ordered, hu.ordered⟩ ⟨s.table.next⟩ ⟨1, some d⟩
  rw [show (Translation.rename ρ).var ⟨s.table.next⟩ = ⟨s.table.next⟩ from hname] at hput
  rw [hs.define_eq, hu.define_eq, h.table.next]
  exact ⟨hname.symm, hput⟩

theorem Renamed.step?_of_some (h : s.Renamed ρ u) (hρ : Var.FixesNames ρ) (hs : s.Tracked)
    (hu : u.Tracked) {step : Step} {s' : State} (hstep : s.step? step = some s') :
    ∃ u', u.step? step = some u' ∧ s'.Renamed ρ u' := by
  obtain ⟨u', hu', hformula, htable, -⟩ := (Translation.carries_rename ρ).applyLaw? h.formula
    ⟨h.table, hs.ordered, hu.ordered⟩ (fun _ hr _ _ => (Translation.rule_rename ρ hr).symm ▸ hr) id
    (fun d => h.define hρ hs hu d) hstep
  exact ⟨u', hu', hformula, htable⟩

theorem Renamed.step? (h : s.Renamed ρ u) (hρ : Var.FixesNames ρ) (hs : s.Tracked)
    (hu : u.Tracked) (step : Step) :
    (s.step? step = none ∧ u.step? step = none) ∨
      ∃ s' u', s.step? step = some s' ∧ u.step? step = some u' ∧ s'.Renamed ρ u' := by
  cases hs' : s.step? step with
  | some s' =>
    obtain ⟨u', hu', h'⟩ := h.step?_of_some hρ hs hu hs'
    exact Or.inr ⟨s', u', rfl, hu', h'⟩
  | none =>
    refine Or.inl ⟨rfl, ?_⟩
    -- What the step did to the one could be done back to the other.
    rw [Option.eq_none_iff_forall_ne_some]
    intro u' hu'
    obtain ⟨s', hback, -⟩ := h.symm.step?_of_some hρ.symm hu hs hu'
    rw [hs'] at hback
    simp at hback

theorem Renamed.isGoal (h : s.Renamed ρ u) (goal : Goal) :
    u.formula.isGoal goal = s.formula.isGoal goal := by
  have hgoal : [goal.symbol].map (Symbol.rename ρ) = [goal.symbol] := by cases goal <;> rfl
  have hinjective := List.map_injective_iff.mpr (Symbol.rename_injective ρ)
  unfold Formula.isGoal
  rw [h.formula, Formula.body_map, Bool.eq_iff_iff, beq_iff_eq, beq_iff_eq]
  nth_rewrite 1 [← hgoal]
  exact hinjective.eq_iff

theorem Renamed.replay (h : s.Renamed ρ u) (hρ : Var.FixesNames ρ) (hs : s.Tracked)
    (hu : u.Tracked) (goal : Goal) (i : Nat) (p : Proof) :
    (State.replay goal i u p).1 = (State.replay goal i s p).1 ∧
      (State.replay goal i s p).2.Renamed ρ (State.replay goal i u p).2 := by
  induction p generalizing s u i with
  | nil => exact ⟨rfl, h⟩
  | cons step p ih =>
    rcases h.step? hρ hs hu step with ⟨hs', hu'⟩ | ⟨s', u', hs', hu', h'⟩
    · simp only [State.replay_cons, hs', hu', true_and]
      exact h
    · simp only [State.replay_cons, hs', hu', h'.isGoal]
      split
      · exact ⟨rfl, h'⟩
      · exact ih h' (hs.steps (step?_eq_some hs')) (hu.steps (step?_eq_some hu')) (i + 1)

theorem renamed_ofFormula (ρ : Equiv.Perm Var) (f : Formula) :
    (ofFormula f).Renamed ρ (ofFormula (f.map (Symbol.rename ρ))) := by
  refine ⟨rfl, ?_⟩
  have htable := (Translation.carries_rename ρ).ofBody ⟨Bindings.renamed_empty, .nil, .nil⟩ f.body
  unfold ofFormula Bindings.ofFormula
  rw [Formula.body_map]
  exact htable.1

end State

/-! ## Formulas -/

theorem Tree.text_bind_leaf (ρ : Var → Var) (t : Tree Var) :
    (t.bind fun v => .leaf (ρ v)).text = t.text.map (Symbol.rename ρ) := by
  induction t with
  | const c => cases c <;> rfl
  | leaf v => rfl
  | neg a ih => simp [bind, ih, Symbol.rename]
  | binary op a b iha ihb => cases op <;> simp [bind, iha, ihb, Symbol.rename, Connective.symbol]

namespace Formula

variable {body : List Symbol} {slack : Nat} {f : Formula}

theorem fixesNames_permute (hf : ofBody body slack = .ok f) (π : Equiv.Perm (Fin f.vars)) :
    Var.FixesNames (Var.permute π) := by
  intro v hv
  apply Var.permute_of_le
  exact Nat.le_trans (vars_le_of_ofBody hf) (Bindings.isSynthetic_iff.mp hv)

theorem map_ofParts_rename (ρ : Var → Var) (body : List Symbol) (slack vars : Nat) :
    (ofParts body slack vars).map (Symbol.rename ρ) =
      ofParts (body.map (Symbol.rename ρ)) slack vars := by
  simp [ofParts, map, Symbol.rename]

theorem ofBody_permute (hf : ofBody body slack = .ok f) (π : Equiv.Perm (Fin f.vars)) :
    ofBody (body.map (Symbol.rename (Var.permute π))) slack =
      .ok (f.map (Symbol.rename (Var.permute π))) := by
  have hmem : ∀ v, .var (Var.permute π v) ∈ body.map (Symbol.rename (Var.permute π)) ↔
      .var v ∈ body := fun v =>
    List.mem_map_of_injective (a := .var v) (Symbol.rename_injective (Var.permute π))
  have hinputs : ∀ w, .var w ∈ body.map (Symbol.rename (Var.permute π)) →
      w.isSynthetic = false := by
    intro w hw
    obtain ⟨v, rfl⟩ := (Var.permute π).surjective w
    have hlt := (Var.id_permute_lt_iff π).mpr (id_lt_vars_of_ofBody hf ((hmem v).mp hw))
    exact Bindings.isSynthetic_eq_false_iff.mpr (Nat.lt_of_lt_of_le hlt (vars_le_of_ofBody hf))
  obtain ⟨hwritten, -⟩ := ofBody_eq_ok hf
  obtain ⟨hslack, -, hsyntax, vars, hvars, rfl⟩ := ofBody_eq_ok_iff.mp hf
  have hdense : ∀ i, .x i ∈ body.map (Symbol.rename (Var.permute π)) ↔ i < vars := by
    intro i
    obtain ⟨v, hv⟩ := (Var.permute π).surjective ⟨i⟩
    have hi : i = (Var.permute π v).id := (congrArg Var.id hv).symm
    rw [Symbol.x, ← hv, hmem, hi]
    exact ((Body.countVariables_iff_dense hwritten.inputs).mp hvars v.id).trans
      (Var.id_permute_lt_iff π).symm
  obtain ⟨t, ht⟩ := Body.checkSyntax_eq_ok_iff.mp hsyntax
  have htext : (t.bind fun v => .leaf (Var.permute π v)).text =
      body.map (Symbol.rename (Var.permute π)) := by rw [Tree.text_bind_leaf, ht]
  exact ofBody_eq_ok_iff.mpr ⟨hslack,
    forbidden?_eq_none (htext ▸ Body.stop_notMem_text _) hinputs 0,
    Body.checkSyntax_eq_ok_iff.mpr ⟨_, htext⟩, vars,
    (Body.countVariables_iff_dense hinputs).mpr hdense, map_ofParts_rename ..⟩

/-- A permutation of the inputs of a formula makes no difference to its proofs. -/
theorem replay_permute (hf : ofBody body slack = .ok f) (π : Equiv.Perm (Fin f.vars)) :
    ∃ g, ofBody (body.map (Symbol.rename (Var.permute π))) slack = .ok g ∧
      (∀ goal p, replay g goal p = replay f goal p ∧
        (State.replay goal 0 (.ofFormula f) p).2.Renamed (Var.permute π)
          (State.replay goal 0 (.ofFormula g) p).2) ∧
      (∀ goal n, searchUpTo g goal n = searchUpTo f goal n) ∧
      ∀ goal length positions,
        searchFixedLength g goal length positions = searchFixedLength f goal length positions := by
  have hg := ofBody_permute hf π
  have hreplay := (State.renamed_ofFormula (Var.permute π) f).replay (fixesNames_permute hf π)
    (State.tracked_ofFormula hf) (State.tracked_ofFormula hg)
  generalize hgeq : f.map (Symbol.rename (Var.permute π)) = g at hg hreplay
  have hcapacity : g.capacity = f.capacity := by rw [← hgeq, capacity_map]
  have hfirst (goal) (c : Candidates) :
      c.first? (.ofFormula g) goal = c.first? (.ofFormula f) goal := by
    have hfinishes : (State.ofFormula g).finishes goal = (State.ofFormula f).finishes goal := by
      funext p
      unfold State.finishes
      rw [(hreplay goal 0 p).1]
    unfold Candidates.first?
    rw [hfinishes]
  refine ⟨g, hg, fun goal p => hreplay goal 0 p, ?_, ?_⟩
  · intro goal n
    rw [searchUpTo_eq, searchUpTo_eq, hcapacity]
    exact Search.answer_eq_of_first?_eq (fun _ => hfirst goal _) n 1
  · intro goal length positions
    rw [searchFixedLength_eq, searchFixedLength_eq, hfirst]

/-- The two inputs are exchanged. The proof gives one part a name, `s0`, and spells it out again. -/
theorem replay_permute_swapped :
    ∃ f g, ofBody [.disj, .disj, .x 0, .neg, .x 0, .x 1] 7 = .ok f ∧
      ofBody [.disj, .disj, .x 1, .neg, .x 1, .x 0] 7 = .ok g ∧
      replay g .tautology [⟨.substitution, 3⟩, ⟨.commutative, 1⟩, ⟨.commutative, 1⟩,
        ⟨.substitution, 3⟩, ⟨.complement, 1⟩, ⟨.commutative, 0⟩, ⟨.domination, 0⟩] = .proved 7 ∧
      (State.replay .tautology 0 (.ofFormula g) [⟨.substitution, 3⟩]).2.table.get? ⟨64⟩ =
        some ⟨1, some (.neg (.x 1))⟩ ∧
      searchUpTo g .tautology 3 = searchUpTo f .tautology 3 ∧
      searchFixedLength g .tautology 3 2 = searchFixedLength f .tautology 3 2 := by
  have hf : ofBody [.disj, .disj, .x 0, .neg, .x 0, .x 1] 7 =
      .ok (.ofParts [.disj, .disj, .x 0, .neg, .x 0, .x 1] 7 2) := by cbv
  obtain ⟨g, hg, hreplay, hup, hfixed⟩ :=
    replay_permute hf (Equiv.swap 0 1 : Equiv.Perm (Fin 2))
  have hnamed := (hreplay .tautology [⟨.substitution, 3⟩]).2.table.get? ⟨64⟩
  exact ⟨_, g, hf, hg, (hreplay _ _).1.trans (by decide), hnamed.trans (by decide), hup _ _,
    hfixed _ _ _⟩

end Formula

end LawProof
