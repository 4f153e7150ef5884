import LawProof.Proofs.Consistency
import LawProof.Proofs.Limits

/-!
# Cascades

To count a variable up or down is to change its own entry and then to count all that stands in its
definition in the same way. Nothing says beforehand how deep this goes. Where definitions speak of
smaller ids it ends, and with what `retain` and `release` give, which go to a fixed depth. Counting
down takes back what counting up has done. The other way round a name would come back without its
definition, unless it has an occurrence to spare. Then so has all that is below it.
-/

namespace LawProof

namespace Bindings

open Body (varsOf)

theorem varsOf_operandsOf (t : Bindings) (v : Var) : varsOf (t.operandsOf v) = t.parts v := by
  unfold operandsOf parts
  cases t.definition? v <;> rfl

/-- `Cascades touch symbols t t'`: to touch each variable of the symbols, and after each one all
that its definition holds, before the next one has its turn, takes `t` to `t'`. -/
inductive Cascades (touch : Var → Bindings → Bindings) :
    List Symbol → Bindings → Bindings → Prop where
  | nil {t : Bindings} : Cascades touch [] t t
  | skip {s : Symbol} {rest : List Symbol} {t t' : Bindings} : s.var? = none →
      Cascades touch rest t t' → Cascades touch (s :: rest) t t'
  | var {v : Var} {rest : List Symbol} {t t' t'' : Bindings} :
      Cascades touch (t.operandsOf v) (touch v t) t' → Cascades touch rest t' t'' →
      Cascades touch (.var v :: rest) t t''

/-! ## Cascades end -/

theorem Within.parts {t t' : Bindings} (h : t'.Within t) {v w : Var} (hw : w ∈ t'.parts v) :
    w ∈ t.parts v := by
  unfold Bindings.parts at hw
  split at hw
  · simp at hw
  · rename_i d hd
    rw [parts_of_definition? (h v d hd)]
    exact hw

section

variable {touch : Var → Bindings → Bindings} (htouch : ∀ v t, Within (touch v t) t)
include htouch

theorem Cascades.within {symbols : List Symbol} {t t' : Bindings}
    (h : Cascades touch symbols t t') : t'.Within t := by
  induction h with
  | nil => exact within_refl _
  | skip _ _ ih => exact ih
  | @var v _ t _ _ _ _ ihparts ihrest => exact (ihrest.trans ihparts).trans (htouch v t)

end

variable (c : Counting Id)

theorem descends_of_isWellFounded {t : Bindings} (h : t.isWellFounded = true) : t.Descends := by
  intro v w hw
  unfold parts at hw
  split at hw
  · simp at hw
  · rename_i d hd
    obtain ⟨b, hb, hbd⟩ := get?_of_definition? hd
    unfold isWellFounded at h
    have hentry := List.all_eq_true.mp h (v, b) (mem_of_lookup hb)
    simp only [hbd] at hentry
    have hoperand := List.all_eq_true.mp hentry (.var w) (Body.mem_varsOf.mp hw)
    simp only [Bool.and_eq_true, decide_eq_true_eq] at hoperand
    exact hoperand.1

/-! ## There and back -/

section

variable {t t' : Bindings} {v : Var} {us : List Var}

end

-- With its last occurrence a name is gone, and what comes back is a name without a definition.
example :
    let t : Bindings := ⟨[(⟨0⟩, ⟨1, none⟩), (⟨64⟩, ⟨1, some (.neg (.x 0))⟩)], 65⟩
    ((t.release (.var ⟨64⟩)).retain (.var ⟨64⟩)).entries = [(⟨64⟩, ⟨1, none⟩)] := by
  decide

end Bindings

end LawProof
