import LawProof.Proofs.Runs
import LawProof.Proofs.Matching

/-!
# Translations

A translation takes variables to variables and other symbols to other symbols, and definitions
along with their symbols. Counting occurrences looks only at which symbols are the same variable, so
it does the same to two tables whose entries are translations of each other. Hence a law that has a
rule's translation among its own rules does to a translated formula what the rule does to the
formula.
-/

namespace LawProof

structure Translation where
  symbol : Symbol → Symbol
  var : Var → Var
  definition : Definition → Definition
  var?_symbol : ∀ s, (symbol s).var? = s.var?.map var
  isOperand_symbol : ∀ s, (symbol s).isOperand = s.isOperand
  symbols_definition : ∀ d, (definition d).symbols = d.symbols.map symbol

namespace Translation

section

variable (τ : Translation)

theorem symbol_var (v : Var) : τ.symbol (.var v) = .var (τ.var v) :=
  Symbol.eq_var_of_var? (τ.var?_symbol (.var v))

theorem var?_symbol_of_none {s : Symbol} (h : s.var? = none) : (τ.symbol s).var? = none := by
  rw [τ.var?_symbol, h, Option.map_none]

theorem operands_definition (d : Definition) :
    (τ.definition d).operands = d.operands.map τ.symbol :=
  (List.cons.inj (τ.symbols_definition d)).2

def binding (b : Binding) : Binding := ⟨b.count, b.definition.map τ.definition⟩

def piece : Piece → Piece
  | .sym s => .sym (τ.symbol s)
  | .slot x => .slot x

def rule (r : Rule) : Rule := ⟨r.source.map τ.piece, r.target.map τ.piece⟩

def filling (σ : Filling) : Filling :=
  ⟨σ.a.map τ.symbol, σ.b.map τ.symbol, σ.c.map τ.symbol⟩

/-- Two tables that `R` relates have translated entries, and the same change in both leaves them
related. -/
structure Carries (R : Bindings → Bindings → Prop) : Prop where
  get? : ∀ {t u}, R t u → ∀ v, u.get? (τ.var v) = (t.get? v).map τ.binding
  put : ∀ {t u}, R t u → ∀ v b, R (t.put v b) (u.put (τ.var v) (τ.binding b))
  remove : ∀ {t u}, R t u → ∀ v, R (t.remove v) (u.remove (τ.var v))
  chainBound : ∀ {t u}, R t u → u.chainBound = t.chainBound

end

/-! ## Tables -/

variable {τ : Translation} {R : Bindings → Bindings → Prop}

theorem foldl_related {f : Bindings → Symbol → Bindings}
    (hf : ∀ t u s, R t u → R (f t s) (f u (τ.symbol s))) (symbols : List Symbol) {t u : Bindings}
    (h : R t u) : R (symbols.foldl f t) ((symbols.map τ.symbol).foldl f u) := by
  induction symbols generalizing t u with
  | nil => exact h
  | cons s symbols ih => exact ih (hf t u s h)

theorem repeat_related {f : Bindings → Symbol → Bindings}
    (hf : ∀ t u s, R t u → R (f t s) (f u (τ.symbol s))) (s : Symbol) (k : Nat) {t u : Bindings}
    (h : R t u) : R (Nat.repeat (f · s) k t) (Nat.repeat (f · (τ.symbol s)) k u) := by
  induction k with
  | zero => exact h
  | succ k ih => exact hf _ _ s ih

namespace Carries

variable (hR : τ.Carries R) {t u : Bindings}

include hR

theorem definition? (h : R t u) (v : Var) :
    u.definition? (τ.var v) = (t.definition? v).map τ.definition := by
  unfold Bindings.definition?
  rw [hR.get? h]
  cases t.get? v <;> rfl

theorem dropOne (h : R t u) (v : Var) (b : Binding) :
    R (t.dropOne v b) (u.dropOne (τ.var v) (τ.binding b)) := by
  have hcount : (τ.binding b).count = b.count := rfl
  unfold Bindings.dropOne
  rw [hcount]
  split
  · exact hR.remove h v
  · exact hR.put h v ⟨b.count - 1, b.definition⟩

theorem retainWithin (n : Nat) (s : Symbol) (h : R t u) :
    R (Bindings.retainWithin n s t) (Bindings.retainWithin n (τ.symbol s) u) := by
  induction n generalizing s t u with
  | zero => exact h
  | succ n ih =>
    cases hs : s.var? with
    | none =>
      rw [Bindings.retainWithin_of_var?_eq_none hs,
        Bindings.retainWithin_of_var?_eq_none (τ.var?_symbol_of_none hs)]
      exact h
    | some v =>
      obtain rfl := Symbol.eq_var_of_var? hs
      rw [τ.symbol_var]
      simp only [Bindings.retainWithin, hR.get? h v]
      cases t.get? v with
      | none => exact hR.put h v ⟨1, none⟩
      | some b =>
        obtain ⟨count, definition⟩ := b
        have hput := hR.put h v ⟨count + 1, definition⟩
        cases definition with
        | none => exact hput
        | some d =>
          simp only [Option.map_some, binding, τ.operands_definition]
          exact foldl_related (f := fun t s => Bindings.retainWithin n s t) (fun _ _ s h => ih s h)
            d.operands hput

theorem releaseWithin (n : Nat) (s : Symbol) (h : R t u) :
    R (Bindings.releaseWithin n s t) (Bindings.releaseWithin n (τ.symbol s) u) := by
  induction n generalizing s t u with
  | zero => exact h
  | succ n ih =>
    cases hs : s.var? with
    | none =>
      rw [Bindings.releaseWithin_of_var?_eq_none hs,
        Bindings.releaseWithin_of_var?_eq_none (τ.var?_symbol_of_none hs)]
      exact h
    | some v =>
      obtain rfl := Symbol.eq_var_of_var? hs
      rw [τ.symbol_var]
      simp only [Bindings.releaseWithin, hR.get? h v]
      cases t.get? v with
      | none => exact h
      | some b =>
        have hdrop := hR.dropOne h v b
        obtain ⟨count, definition⟩ := b
        cases definition with
        | none => exact hdrop
        | some d =>
          simp only [Option.map_some, binding, τ.operands_definition]
          exact foldl_related (f := fun t s => Bindings.releaseWithin n s t) (fun _ _ s h => ih s h)
            d.operands hdrop

theorem retain (h : R t u) (s : Symbol) : R (t.retain s) (u.retain (τ.symbol s)) := by
  unfold Bindings.retain
  rw [hR.chainBound h]
  exact hR.retainWithin _ s h

theorem release (h : R t u) (s : Symbol) : R (t.release s) (u.release (τ.symbol s)) := by
  unfold Bindings.release
  rw [hR.chainBound h]
  exact hR.releaseWithin _ s h

theorem expand (h : R t u) (v : Var) : R (t.expand (.var v)) (u.expand (.var (τ.var v))) := by
  simp only [Bindings.expand, Symbol.var?, hR.get? h v]
  cases t.get? v with
  | none => exact h
  | some b => exact hR.dropOne h v b

theorem ofBody (h : R .empty .empty) (body : List Symbol) :
    R (Bindings.ofBody body) (Bindings.ofBody (body.map τ.symbol)) :=
  foldl_related (R := R) (f := Bindings.retain) (fun _ _ s h => hR.retain h s) body h

end Carries

/-! ## Rules -/

theorem count_slot_map_piece (pieces : List Piece) (x : Slot) :
    (pieces.map τ.piece).count (.slot x) = pieces.count (.slot x) := by
  induction pieces with
  | nil => rfl
  | cons p pieces ih => cases p <;> simp [piece, List.count_cons, ih]

theorem uses_rule (r : Rule) (x : Slot) : (τ.rule r).uses x = r.uses x :=
  Prod.ext (count_slot_map_piece ..) (count_slot_map_piece ..)

theorem get?_filling (σ : Filling) (x : Slot) :
    (τ.filling σ).get? x = (σ.get? x).map τ.symbol := by
  cases x <;> rfl

section

variable {σ : Filling} {pieces : List Piece}

theorem fills_filling (h : σ.Fills pieces) : (τ.filling σ).Fills (pieces.map τ.piece) := by
  constructor
  · intro x hx
    obtain ⟨p, hp, hslot⟩ := List.mem_map.mp hx
    cases p with
    | sym s => simp [piece] at hslot
    | slot y =>
      obtain rfl := Piece.slot.inj hslot
      obtain ⟨s, hs⟩ := h.filled y hp
      exact ⟨τ.symbol s, by rw [get?_filling, hs, Option.map_some]⟩
  · intro x s hs
    rw [get?_filling, Option.map_eq_some_iff] at hs
    obtain ⟨a, ha, rfl⟩ := hs
    rw [τ.isOperand_symbol]
    exact h.operand x a ha

theorem map_fill_filling (h : ∀ x, .slot x ∈ pieces → ∃ s, σ.get? x = some s) :
    (pieces.map τ.piece).map (τ.filling σ).fill = (pieces.map σ.fill).map τ.symbol := by
  rw [List.map_map, List.map_map]
  apply List.map_congr_left
  intro p hp
  cases p with
  | sym s => rfl
  | slot x =>
    obtain ⟨s, hs⟩ := h x hp
    have hfilling : (τ.filling σ).get? x = some (τ.symbol s) := by
      rw [get?_filling, hs, Option.map_some]
    show (τ.filling σ).fill (.slot x) = τ.symbol (σ.fill (.slot x))
    rw [Filling.fill_slot hs, Filling.fill_slot hfilling]

end

namespace Carries

variable (hR : τ.Carries R) {t u : Bindings}

include hR

theorem recount (r : Rule) (σ : Filling) (x : Slot) (h : R t u) :
    R (r.recount σ t x) ((τ.rule r).recount (τ.filling σ) u x) := by
  unfold Rule.recount
  rw [get?_filling, uses_rule]
  cases σ.get? x with
  | none => exact h
  | some s =>
    have hretain (k) := repeat_related (R := R) (fun _ _ s h => hR.retain h s) s k h
    exact repeat_related (R := R) (fun _ _ s h => hR.release h s) s _ (hretain _)

theorem foldl_recount (r : Rule) (σ : Filling) (slots : List Slot) (h : R t u) :
    R (slots.foldl (r.recount σ) t) (slots.foldl ((τ.rule r).recount (τ.filling σ)) u) := by
  induction slots generalizing t u with
  | nil => exact h
  | cons x slots ih => exact ih (hR.recount r σ x h)

theorem rewrites (h : R t u) {t' : Bindings} {law law' : Law} {old new : List Symbol}
    (hrules : ∀ r ∈ law.rules, ∀ σ : Filling, r.source.map σ.fill = old → τ.rule r ∈ law'.rules)
    (hlaw : law = .substitution → law' = .substitution)
    (hdefine : ∀ d, (u.define (τ.definition d)).1 = τ.var (t.define d).1 ∧
      R (t.define d).2 (u.define (τ.definition d)).2)
    (hr : law.Rewrites t old new t') :
    ∃ u', law'.Rewrites u (old.map τ.symbol) (new.map τ.symbol) u' ∧ R t' u' := by
  cases hr with
  | @rule _ r σ hr hσ =>
    refine ⟨_, ?_, hR.foldl_recount r σ Slot.all h⟩
    rw [← map_fill_filling hσ.filled, ← map_fill_filling fun x hx =>
      hσ.filled x (Rule.slot_mem_source (Law.isSafe_of_mem_rules hr) hx)]
    exact .rule (r := τ.rule r) (hrules r hr σ rfl) (fills_filling hσ)
  | @collapse d hd =>
    obtain ⟨hname, htable⟩ := hdefine d
    refine ⟨_, ?_, htable⟩
    rw [hlaw rfl, List.map_singleton, τ.symbol_var, ← hname, ← τ.symbols_definition]
    apply Law.Rewrites.collapse
    rw [τ.operands_definition, List.forall_mem_map]
    intro s hs
    rw [τ.isOperand_symbol]
    exact hd s hs
  | @spellOut v d hd =>
    refine ⟨_, ?_, hR.expand h v⟩
    rw [hlaw rfl, List.map_singleton, τ.symbol_var, ← τ.symbols_definition]
    apply Law.Rewrites.spellOut
    rw [hR.definition? h, hd, Option.map_some]

end Carries

end Translation

/-! ## Formulas -/

namespace Formula

/-- The formula with all symbols on its tape changed alike. -/
def map (g : Symbol → Symbol) (f : Formula) : Formula where
  cells := f.cells.map g
  stop := f.stop
  vars := f.vars
  stop_lt := by simpa using f.stop_lt

variable (g : Symbol → Symbol) (f : Formula)

theorem map_map_of_inverse {g h : Symbol → Symbol} (hg : ∀ s, h (g s) = s) (f : Formula) :
    (f.map g).map h = f := by
  cases f
  simp [map, Function.comp_def, hg]

theorem body_map : (f.map g).body = f.body.map g := List.map_take.symm

theorem capacity_map : (f.map g).capacity = f.capacity := List.length_map ..

theorem slack_map : (f.map g).slack = f.slack := by
  unfold slack
  rw [capacity_map]
  rfl

theorem shift_map (src dst : Nat) : (f.shift src dst).map g = (f.map g).shift src dst := by
  by_cases h : src ≤ f.stop ∧ dst + (f.stop - src) < f.capacity
  · have h' : src ≤ (f.map g).stop ∧ dst + ((f.map g).stop - src) < (f.map g).capacity := by
      rw [capacity_map]
      exact h
    unfold shift
    rw [dif_pos h, dif_pos h']
    simp [map]
  · have h' : ¬ (src ≤ (f.map g).stop ∧ dst + ((f.map g).stop - src) < (f.map g).capacity) := by
      rw [capacity_map]
      exact h
    unfold shift
    rw [dif_neg h, dif_neg h']

theorem write_map (i : Nat) (symbols : List Symbol) :
    (f.write i symbols).map g = (f.map g).write i (symbols.map g) := by
  simp [write, map]

theorem splice_map (i width : Nat) (symbols : List Symbol) :
    (f.splice i width symbols).map g = (f.map g).splice i width (symbols.map g) := by
  unfold splice
  rw [write_map, shift_map, List.length_map]

end Formula

/-! ## Steps -/

/-- Where a law applies, a law with the translated rules applies to the translation, and it leads to
the translation. -/
theorem Translation.Carries.applyLaw? {τ : Translation} {R : Bindings → Bindings → Prop}
    (hR : τ.Carries R) {s s' u : State} {law law' : Law} {position : Nat}
    (hformula : u.formula = s.formula.map τ.symbol) (htable : R s.table u.table)
    (hrules : ∀ r ∈ law.rules, ∀ σ : Filling,
      r.source.map σ.fill <+: s.formula.body.drop position → τ.rule r ∈ law'.rules)
    (hlaw : law = .substitution → law' = .substitution)
    (hdefine : ∀ d, (u.table.define (τ.definition d)).1 = τ.var (s.table.define d).1 ∧
      R (s.table.define d).2 (u.table.define (τ.definition d)).2)
    (hs : s.applyLaw? law position = some s') :
    ∃ u', u.applyLaw? law' position = some u' ∧ u'.formula = s'.formula.map τ.symbol ∧
      R s'.table u'.table := by
  obtain ⟨e, he, rfl⟩ := Option.map_eq_some_iff.mp hs
  obtain ⟨hrewrites, hwidth, hroom⟩ := Law.edit?_eq_some_iff.mp he
  obtain ⟨t, ht, htable'⟩ := hR.rewrites htable
    (fun r hr σ hσ => hrules r hr σ (hσ ▸ List.take_prefix ..)) hlaw hdefine hrewrites
  have hperforms : (⟨e.width, e.put.map τ.symbol, t⟩ : Edit).Performs law' u.table
      u.formula.slack (u.formula.body.drop position) := by
    rw [hformula, Formula.slack_map, Formula.body_map, ← List.map_drop]
    refine ⟨?_, by simpa using hwidth, by simpa using hroom⟩
    rw [← List.map_take]
    exact ht
  refine ⟨_, Option.map_eq_some_iff.mpr ⟨_, Law.edit?_eq_some_iff.mpr hperforms, rfl⟩, ?_, htable'⟩
  show u.formula.splice position e.width (e.put.map τ.symbol) =
    (s.formula.splice position e.width e.put).map τ.symbol
  rw [hformula, Formula.splice_map]

end LawProof
