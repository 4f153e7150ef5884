import LawProof.Proofs.Completeness

/-!
# Names are abbreviations

With all names spelled out, a working formula is a formula over the inputs alone. It has the values
of the working formula, and the table counts the inputs in it. To give a name or to spell one out
does not change it. Any other law changes it by one of its equations, in which whole subtrees stand
where the working formula has single symbols.
-/

namespace LawProof

open Body (varsOf stack under)

/-! ## Spelling out through the table -/

namespace Bindings

variable {t : Bindings} {xs vs : List Var} {δ : Var → Tree Var}

end Bindings

/-! ## Values -/

theorem Definition.value_tree (d : Definition) (ρ : Var → Bool) : d.tree.value ρ = d.valueIn ρ := by
  have hsymbol : ∀ s, (Tree.ofSymbol s).value ρ = s.valueIn ρ := by
    intro s
    cases s <;> rfl
  cases d <;> simp [tree, valueIn, Tree.value, Connective.value, hsymbol]

namespace Law

theorem Rewrites.exists_equation {law : Law} {t t' : Bindings} {old new : List Symbol}
    (h : law.Rewrites t old new t') (hlaw : law ≠ .substitution) :
    ∃ e ∈ law.equations, ∃ τ : Slot → Tree Var, (∀ x, (τ x).isOperand = true) ∧
      old = (e.left.bind τ).text ∧ new = (e.right.bind τ).text := by
  cases h with
  | rule hr hσ =>
    obtain ⟨e, he, rfl⟩ := Law.exists_equation hr
    exact ⟨e, he, _, fun x => Tree.isOperand_ofSymbol _, Filling.map_fill_pieces hσ.operand e.left,
      Filling.map_fill_pieces hσ.operand e.right⟩
  | collapse _ | spellOut _ => exact absurd rfl hlaw

end Law

namespace State

variable {s u : State} {δ : Var → Tree Var}

end State

end LawProof
