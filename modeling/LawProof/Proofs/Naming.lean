import LawProof.Proofs.Equations
import LawProof.Proofs.Meaning
import Mathlib.Logic.Relation

/-!
# Names for parts

The operands in a law's equation are single symbols. To use an equation on larger parts, each part
gets a name first, from its leaves up. Then the equation is used on the names, and at last all names
are spelled out. Here the formula is off the tape, so nothing limits how long it grows on the way.
-/

namespace LawProof

open Body (varsOf)

/-! ## Off the tape -/

/-- A working formula off the tape. -/
structure Content where
  body : List Symbol
  table : Bindings

namespace Content

/-- One step of some law at some place. -/
def Moves (x y : Content) : Prop :=
  ∃ pre old new post law, x.body = pre ++ old ++ post ∧ y.body = pre ++ new ++ post ∧
    Law.Rewrites x.table law old new y.table

/-- Any number of steps. -/
def Leads : Content → Content → Prop := Relation.ReflTransGen Moves

theorem leads_of_rewrites {t t' : Bindings} {law : Law} {old new : List Symbol}
    (h : law.Rewrites t old new t') (pre post : List Symbol) :
    Leads ⟨pre ++ old ++ post, t⟩ ⟨pre ++ new ++ post, t'⟩ :=
  .single ⟨pre, old, new, post, law, rfl, rfl, h⟩

end Content

/-! ## What names stand for -/

namespace Bindings

/-- `δ` spells the names out: an input is itself, a name is what its definition comes to. -/
structure Unfolds (t : Bindings) (δ : Var → Tree Var) : Prop where
  input : ∀ v, v.isSynthetic = false → δ v = .leaf v
  defined : ∀ v d, t.definition? v = some d → δ v = d.tree.bind δ

theorem Unfolds.within {t t' : Bindings} {δ : Var → Tree Var} (h : t.Unfolds δ)
    (hw : t'.Within t) : t'.Unfolds δ :=
  ⟨h.input, fun v d hd => h.defined v d (hw v d hd)⟩

end Bindings

theorem Tree.leaves_ofSymbol (s : Symbol) : (ofSymbol s).leaves = varsOf [s] := by
  cases s <;> rfl

theorem Definition.leaves_tree (d : Definition) : d.tree.leaves = varsOf d.operands := by
  have hpair : ∀ a b, varsOf [a, b] = (Tree.ofSymbol a).leaves ++ (Tree.ofSymbol b).leaves := by
    intro a b
    rw [← List.singleton_append, Body.varsOf_append, Tree.leaves_ofSymbol, Tree.leaves_ofSymbol]
  cases d with
  | neg a => exact Tree.leaves_ofSymbol a
  | disj a b | conj a b => exact (hpair a b).symm

/-- The definition with a binary connective. -/
def Connective.definition : Connective → Symbol → Symbol → Definition
  | .disj, a, b => .disj a b
  | .conj, a, b => .conj a b

theorem Connective.symbols_definition (op : Connective) (a b : Symbol) :
    (op.definition a b).symbols = [op.symbol, a, b] := by
  cases op <;> rfl

theorem Connective.tree_definition (op : Connective) (a b : Symbol) :
    (op.definition a b).tree = .binary op (.ofSymbol a) (.ofSymbol b) := by
  cases op <;> rfl

theorem Connective.operands_definition (op : Connective) (a b : Symbol) :
    (op.definition a b).operands = [a, b] := by
  cases op <;> rfl

namespace Bindings

theorem Unfolds.define {t : Bindings} {δ : Var → Tree Var} (hδ : t.Unfolds δ) (h : t.Sound)
    {d : Definition} (hlt : ∀ w ∈ varsOf d.operands, w.id < t.next) :
    ∃ δ', (t.define d).2.Unfolds δ' ∧ (∀ v : Var, v.id < t.next → δ' v = δ v) ∧
      δ' (t.define d).1 = d.tree.bind δ := by
  let δ' : Var → Tree Var := fun w => if w = ⟨t.next⟩ then d.tree.bind δ else δ w
  have hkept : ∀ v : Var, v.id < t.next → δ' v = δ v := by
    intro v hv
    apply if_neg
    rintro rfl
    exact Nat.lt_irrefl _ hv
  have hnew : δ' ⟨t.next⟩ = d.tree.bind δ := if_pos rfl
  have hbind : ∀ e : Definition, (∀ w ∈ varsOf e.operands, w.id < t.next) →
      e.tree.bind δ = e.tree.bind δ' := by
    intro e he
    apply Tree.bind_congr
    intro w hw
    rw [Definition.leaves_tree] at hw
    exact (hkept w (he w hw)).symm
  refine ⟨δ', ⟨?_, ?_⟩, hkept, ?_⟩
  · intro v hv
    have := isSynthetic_eq_false_iff.mp hv
    have := h.reserve
    rw [hkept v (by omega), hδ.input v hv]
  · intro v e he
    rw [h.definition?_define] at he
    split at he
    · rename_i hv
      rw [Option.some.injEq] at he
      rw [hv, hnew, ← he]
      exact hbind d hlt
    · obtain ⟨b, hb, -⟩ := get?_of_definition? he
      have hv := h.below v b hb
      rw [hkept v hv, hδ.defined v e he]
      apply hbind
      intro w hw
      have := h.descends v w (by rw [parts_of_definition? he]; exact hw)
      omega
  · rw [h.define_eq]
    exact hnew

end Bindings

theorem Tree.mem_varsOf_bind {α : Type} {t : Tree α} {f : α → Tree Var} {a : α}
    (ha : a ∈ t.leaves) {v : Var} (hv : v ∈ (f a).leaves) : v ∈ varsOf (t.bind f).text := by
  rw [varsOf_text, leaves_bind, List.mem_flatMap]
  exact ⟨a, ha, hv⟩

namespace Content

/-- The table tracks the body, and `δ` spells its names out. -/
structure Named (x : Content) (δ : Var → Tree Var) : Prop where
  tracks : x.table.Tracks (varsOf x.body)
  unfolds : x.table.Unfolds δ

variable {t t' : Bindings} {δ : Var → Tree Var} {pre post : List Symbol}

theorem Named.replace {law : Law} {old new : List Symbol} (h : Named ⟨pre ++ old ++ post, t⟩ δ)
    (hr : law.Rewrites t old new t') (hw : t'.Within t) : Named ⟨pre ++ new ++ post, t'⟩ δ :=
  ⟨h.tracks.replace hr, h.unfolds.within hw⟩

theorem Named.collapse {d : Definition} (h : Named ⟨pre ++ d.symbols ++ post, t⟩ δ)
    (hd : ∀ s ∈ d.operands, s.isOperand = true) :
    ∃ δ', Named ⟨pre ++ [.var (t.define d).1] ++ post, (t.define d).2⟩ δ' ∧
      δ' (t.define d).1 = d.tree.bind δ ∧ ∀ w ∈ varsOf (pre ++ post), δ' w = δ w := by
  have hlt : ∀ w ∈ varsOf (pre ++ d.symbols ++ post), w.id < t.next := by
    intro w hw
    obtain ⟨b, hb⟩ := h.tracks.get?_of_mem hw
    exact h.tracks.below w b hb
  simp only [Body.varsOf_append, Body.varsOf_symbols, List.mem_append] at hlt ⊢
  obtain ⟨δ', hδ', hkept, hnew⟩ :=
    h.unfolds.define h.tracks.toSound fun w hw => hlt w (Or.inl (Or.inr hw))
  refine ⟨δ', ⟨h.tracks.replace (.collapse hd), hδ'⟩, hnew, ?_⟩
  intro w hw
  apply hkept
  apply hlt
  rcases hw with hw | hw
  · exact Or.inl (Or.inl hw)
  · exact Or.inr hw

/-! ## Giving names -/

theorem exists_operand (a : Tree Var) (h : Named ⟨pre ++ a.text ++ post, t⟩ δ) :
    ∃ s t' δ', s.isOperand = true ∧
      Leads ⟨pre ++ a.text ++ post, t⟩ ⟨pre ++ [s] ++ post, t'⟩ ∧
      Named ⟨pre ++ [s] ++ post, t'⟩ δ' ∧ (Tree.ofSymbol s).bind δ' = a.bind δ ∧
      ∀ w ∈ varsOf (pre ++ post), δ' w = δ w := by
  induction a generalizing pre post t δ with
  | const c => exact ⟨.constant c, t, δ, by cases c <;> rfl, .refl, h, by cases c <;> rfl, by simp⟩
  | leaf v => exact ⟨.var v, t, δ, rfl, .refl, h, rfl, by simp⟩
  | neg a ih =>
    have hfront : pre ++ (Tree.neg a).text ++ post = (pre ++ [.neg]) ++ a.text ++ post := by simp
    rw [hfront] at h ⊢
    obtain ⟨x, t₁, δ₁, hx, hleads, h₁, hbind, hkept⟩ := ih h
    have hback : (pre ++ [.neg]) ++ [x] ++ post = pre ++ (Definition.neg x).symbols ++ post := by
      simp [Definition.symbols, Definition.operator, Definition.operands]
    rw [hback] at hleads h₁
    have hd : ∀ s ∈ (Definition.neg x).operands, s.isOperand = true := by
      simpa [Definition.operands] using hx
    obtain ⟨δ₂, h₂, hnew, hkept'⟩ := h₁.collapse hd
    refine ⟨.var _, _, δ₂, rfl,
      hleads.trans (leads_of_rewrites (.collapse hd) pre post), h₂, ?_, ?_⟩
    · show δ₂ _ = _
      rw [hnew]
      exact congrArg Tree.neg hbind
    · intro w hw
      rw [hkept' w hw, hkept w]
      simp only [Body.varsOf_append, List.mem_append] at hw ⊢
      exact hw.imp Or.inl id
  | binary op a b iha ihb =>
    have hfront : pre ++ (Tree.binary op a b).text ++ post =
        (pre ++ [op.symbol]) ++ a.text ++ (b.text ++ post) := by simp
    rw [hfront] at h ⊢
    obtain ⟨x, t₁, δ₁, hx, hleads₁, h₁, hbind₁, hkept₁⟩ := iha h
    have hmiddle : (pre ++ [op.symbol]) ++ [x] ++ (b.text ++ post) =
        (pre ++ [op.symbol, x]) ++ b.text ++ post := by simp
    rw [hmiddle] at hleads₁ h₁
    obtain ⟨y, t₂, δ₂, hy, hleads₂, h₂, hbind₂, hkept₂⟩ := ihb h₁
    have hback : (pre ++ [op.symbol, x]) ++ [y] ++ post =
        pre ++ (op.definition x y).symbols ++ post := by simp [op.symbols_definition]
    rw [hback] at hleads₂ h₂
    have hd : ∀ s ∈ (op.definition x y).operands, s.isOperand = true := by
      simpa [op.operands_definition] using ⟨hx, hy⟩
    obtain ⟨δ₃, h₃, hnew, hkept₃⟩ := h₂.collapse hd
    refine ⟨.var _, _, δ₃, rfl,
      (hleads₁.trans hleads₂).trans (leads_of_rewrites (.collapse hd) pre post), h₃, ?_, ?_⟩
    · have hx' : (Tree.ofSymbol x).bind δ₂ = (Tree.ofSymbol x).bind δ₁ := by
        apply Tree.bind_congr
        intro w hw
        rw [Tree.leaves_ofSymbol] at hw
        apply hkept₂
        grind [Body.varsOf_append, List.append_cons]
      have hb' : b.bind δ₁ = b.bind δ := by
        apply Tree.bind_congr
        intro w hw
        rw [← Tree.varsOf_text] at hw
        apply hkept₁
        grind [Body.varsOf_append]
      show δ₃ _ = _
      rw [hnew, op.tree_definition, Tree.bind, Tree.bind, hx', hbind₁, hbind₂, hb']
    · intro w hw
      rw [hkept₃ w hw, hkept₂ w, hkept₁ w]
      · grind [Body.varsOf_append]
      · grind [Body.varsOf_append]

theorem exists_operands {l : Tree Slot} (hl : l.leaves.Nodup) {σ : Slot → Tree Var}
    (h : Named ⟨pre ++ (l.bind σ).text ++ post, t⟩ δ) :
    ∃ τ t' δ', (∀ x, (τ x).isOperand = true) ∧
      Leads ⟨pre ++ (l.bind σ).text ++ post, t⟩ ⟨pre ++ (l.bind τ).text ++ post, t'⟩ ∧
      Named ⟨pre ++ (l.bind τ).text ++ post, t'⟩ δ' ∧
      (∀ x ∈ l.leaves, (τ x).bind δ' = (σ x).bind δ) ∧
      ∀ w ∈ varsOf (pre ++ post), δ' w = δ w := by
  induction l generalizing pre post t δ with
  | const c =>
    exact ⟨fun _ => .const c, t, δ, fun _ => rfl, .refl, h, by simp [Tree.leaves], by simp⟩
  | leaf x =>
    obtain ⟨s, t', δ', hs, hleads, h', hbind, hkept⟩ := exists_operand (σ x) h
    have htext : ((Tree.leaf x).bind fun _ => Tree.ofSymbol s).text = [s] := Tree.text_ofSymbol hs
    rw [← htext] at hleads h'
    refine ⟨fun _ => .ofSymbol s, t', δ', fun _ => Tree.isOperand_ofSymbol s, hleads, h', ?_, hkept⟩
    intro y hy
    obtain rfl := List.mem_singleton.mp hy
    exact hbind
  | neg l ih =>
    have hfront : ∀ τ : Slot → Tree Var, pre ++ ((Tree.neg l).bind τ).text ++ post =
        (pre ++ [.neg]) ++ (l.bind τ).text ++ post := by
      intro τ
      simp [Tree.bind]
    rw [hfront] at h
    obtain ⟨τ, t', δ', hτ, hleads, h', hbind, hkept⟩ := ih hl h
    rw [← hfront, ← hfront] at hleads
    rw [← hfront] at h'
    refine ⟨τ, t', δ', hτ, hleads, h', hbind, ?_⟩
    intro w hw
    apply hkept
    grind [Body.varsOf_append]
  | binary op l r ihl ihr =>
    obtain ⟨hleft, hright, hdisjoint⟩ := List.nodup_append.mp hl
    have hfront : pre ++ ((Tree.binary op l r).bind σ).text ++ post =
        (pre ++ [op.symbol]) ++ (l.bind σ).text ++ ((r.bind σ).text ++ post) := by
      simp [Tree.bind]
    rw [hfront] at h ⊢
    obtain ⟨τ₁, t₁, δ₁, hτ₁, hleads₁, h₁, hbind₁, hkept₁⟩ := ihl hleft h
    have hmiddle : (pre ++ [op.symbol]) ++ (l.bind τ₁).text ++ ((r.bind σ).text ++ post) =
        (pre ++ op.symbol :: (l.bind τ₁).text) ++ (r.bind σ).text ++ post := by simp
    rw [hmiddle] at hleads₁ h₁
    obtain ⟨τ₂, t₂, δ₂, hτ₂, hleads₂, h₂, hbind₂, hkept₂⟩ := ihr hright h₁
    -- The slots of the two sides are not the same, so each side can have its own names.
    let τ : Slot → Tree Var := fun x => if x ∈ l.leaves then τ₁ x else τ₂ x
    have hτl : ∀ x ∈ l.leaves, τ x = τ₁ x := fun x hx => if_pos hx
    have hτr : ∀ x ∈ r.leaves, τ x = τ₂ x :=
      fun x hx => if_neg fun hx' => hdisjoint x hx' x hx rfl
    have hback : (pre ++ op.symbol :: (l.bind τ₁).text) ++ (r.bind τ₂).text ++ post =
        pre ++ ((Tree.binary op l r).bind τ).text ++ post := by
      rw [Tree.bind, Tree.bind_congr hτl, Tree.bind_congr hτr]
      simp
    rw [hback] at hleads₂ h₂
    refine ⟨τ, t₂, δ₂, ?_, hleads₁.trans hleads₂, h₂, ?_, ?_⟩
    · intro x
      show (if _ then _ else _ : Tree Var).isOperand = true
      split
      · exact hτ₁ x
      · exact hτ₂ x
    · intro x hx
      rcases List.mem_append.mp hx with hx | hx
      · rw [hτl x hx, ← hbind₁ x hx]
        apply Tree.bind_congr
        intro w hw
        have := Tree.mem_varsOf_bind hx hw
        apply hkept₂
        grind [Body.varsOf_append]
      · rw [hτr x hx, hbind₂ x hx]
        apply Tree.bind_congr
        intro w hw
        have := Tree.mem_varsOf_bind hx hw
        apply hkept₁
        grind [Body.varsOf_append]
    · intro w hw
      rw [hkept₂ w, hkept₁ w]
      · grind [Body.varsOf_append]
      · grind [Body.varsOf_append]

/-! ## Spelling names out -/

end Content

/-- The symbols with the names spelled out. -/
def inline (δ : Var → Tree Var) (xs : List Symbol) : List Symbol :=
  xs.flatMap fun
    | .var v => (δ v).text
    | s => [s]

theorem inline_append (δ : Var → Tree Var) (xs ys : List Symbol) :
    inline δ (xs ++ ys) = inline δ xs ++ inline δ ys := List.flatMap_append

theorem inline_text (δ : Var → Tree Var) (t : Tree Var) :
    inline δ t.text = (t.bind δ).text := by
  have hcons : ∀ s xs, s.var? = none → inline δ (s :: xs) = s :: inline δ xs := by
    intro s xs hs
    cases s with
    | var v => simp [Symbol.var?] at hs
    | _ => rfl
  induction t with
  | const c => cases c <;> rfl
  | leaf v => simp [inline, Tree.bind]
  | neg a ih => rw [Tree.text_neg, hcons _ _ rfl, ih, Tree.bind, Tree.text_neg]
  | binary op a b iha ihb =>
    have hop : op.symbol.var? = none := by cases op <;> rfl
    rw [Tree.text_binary, hcons _ _ hop, inline_append, iha, ihb, Tree.bind, Tree.text_binary]

theorem length_le_length_inline (δ : Var → Tree Var) (xs : List Symbol) :
    xs.length ≤ (inline δ xs).length := by
  induction xs with
  | nil => exact Nat.le_refl 0
  | cons s xs ih =>
    rw [← List.singleton_append, inline_append, List.length_append, List.length_append]
    have hone : 1 ≤ (inline δ [s]).length := by
      cases s with
      | var v =>
        have := (δ v).size_pos
        simp [inline]
        omega
      | _ => simp [inline]
    simp only [List.length_singleton]
    omega

/-- No name stands among the symbols. -/
def Plain (xs : List Symbol) : Prop := ∀ v ∈ varsOf xs, v.isSynthetic = false

theorem plain_append {xs ys : List Symbol} : Plain (xs ++ ys) ↔ Plain xs ∧ Plain ys := by
  unfold Plain
  simp only [Body.varsOf_append, List.mem_append, or_imp, forall_and]

theorem Bindings.Unfolds.inline_eq {t : Bindings} {δ : Var → Tree Var} (h : t.Unfolds δ)
    {xs : List Symbol} (hxs : Plain xs) : inline δ xs = xs := by
  have hone : ∀ s ∈ xs, inline δ [s] = [s] := by
    intro s hs
    cases s with
    | var v => simp [inline, h.input v (hxs v (Body.mem_varsOf.mpr hs))]
    | _ => rfl
  clear hxs
  induction xs with
  | nil => rfl
  | cons s xs ih =>
    rw [← List.singleton_append, inline_append, hone s List.mem_cons_self,
      ih fun r hr => hone r (List.mem_cons_of_mem s hr)]

theorem Bindings.Unfolds.bind_eq {t : Bindings} {δ : Var → Tree Var} (h : t.Unfolds δ)
    {a : Tree Var} (ha : ∀ v ∈ a.leaves, v.isSynthetic = false) : a.bind δ = a := by
  rw [Tree.bind_congr fun v hv => h.input v (ha v hv), Tree.bind_leaf]

namespace Content

/-- All names can be spelled out, and then none is left. -/
theorem Named.leads_inline {δ : Var → Tree Var} {body : List Symbol} {t : Bindings}
    (h : Named ⟨body, t⟩ δ) :
    ∃ t', Leads ⟨body, t⟩ ⟨inline δ body, t'⟩ ∧ Named ⟨inline δ body, t'⟩ δ ∧
      Plain (inline δ body) := by
  -- Every step makes the body longer and leaves it the same once spelled out.
  induction hn : (inline δ body).length - body.length using Nat.strongRecOn
    generalizing body t with
  | ind n ih =>
    by_cases hname : ∃ v ∈ varsOf body, v.isSynthetic = true
    · obtain ⟨v, hv, hsyn⟩ := hname
      obtain ⟨vs, hvs, -⟩ := h.tracks.counted
      obtain ⟨d, hd⟩ := h.tracks.definition?_of_mem hvs (hvs.subset hv) hsyn
      obtain ⟨pre, post, rfl⟩ := List.append_of_mem (Body.mem_varsOf.mp hv)
      have hr := Law.Rewrites.spellOut hd
      have hmid : pre ++ .var v :: post = pre ++ [.var v] ++ post := by simp
      rw [hmid] at h hn ⊢
      have h' := h.replace hr (Bindings.within_expand t (.var v))
      have hsame : inline δ (pre ++ d.symbols ++ post) = inline δ (pre ++ [.var v] ++ post) := by
        have hv' : inline δ [.var v] = (δ v).text := by simp [inline]
        simp only [inline_append]
        rw [hv', h.unfolds.defined v d hd, ← inline_text,
          Definition.text_tree (h.tracks.simple v d hd)]
      have hlt : (inline δ (pre ++ d.symbols ++ post)).length - (pre ++ d.symbols ++ post).length <
          n := by
        have hle := length_le_length_inline δ (pre ++ d.symbols ++ post)
        have hlong : 2 ≤ d.symbols.length := by
          cases d <;> simp [Definition.symbols, Definition.operands]
        rw [hsame] at hle ⊢
        simp only [List.length_append, List.length_singleton] at hle hn ⊢
        omega
      obtain ⟨t', hleads, hnamed, hdone⟩ := ih _ hlt h' rfl
      rw [hsame] at hleads hnamed hdone
      exact ⟨t', (leads_of_rewrites hr pre post).trans hleads, hnamed, hdone⟩
    · have hplain : Plain body :=
        fun v hv => Bool.eq_false_iff.mpr fun hsyn => hname ⟨v, hv, hsyn⟩
      rw [h.unfolds.inline_eq hplain]
      exact ⟨t, .refl, h, hplain⟩

end Content

/-! ## Equations on larger parts -/

/-- A formula without names, and a table that tracks it. -/
structure Content.Written (x : Content) : Prop where
  plain : Plain x.body
  named : ∃ δ, x.Named δ

/-- Wherever the one tree stands in a formula without names, steps lead to the other in its
place. -/
def Tree.Becomes (u w : Tree Var) : Prop :=
  ∀ pre post t, Content.Written ⟨pre ++ u.text ++ post, t⟩ →
    ∃ t', Content.Written ⟨pre ++ w.text ++ post, t'⟩ ∧
      Content.Leads ⟨pre ++ u.text ++ post, t⟩ ⟨pre ++ w.text ++ post, t'⟩

namespace Tree.Becomes

variable {u w x : Tree Var}

theorem refl (u : Tree Var) : u.Becomes u := fun _ _ t h => ⟨t, h, .refl⟩

theorem trans (h : u.Becomes w) (h' : w.Becomes x) : u.Becomes x := by
  intro pre post t ht
  obtain ⟨t₁, ht₁, hleads₁⟩ := h pre post t ht
  obtain ⟨t₂, ht₂, hleads₂⟩ := h' pre post t₁ ht₁
  exact ⟨t₂, ht₂, hleads₁.trans hleads₂⟩

theorem neg (h : u.Becomes w) : (Tree.neg u).Becomes (.neg w) := by
  intro pre post t ht
  have hfront : ∀ a : Tree Var,
      pre ++ (Tree.neg a).text ++ post = (pre ++ [.neg]) ++ a.text ++ post := by simp
  rw [hfront] at ht ⊢
  rw [hfront]
  exact h _ _ t ht

theorem left (h : u.Becomes w) (op : Connective) (x : Tree Var) :
    (Tree.binary op u x).Becomes (.binary op w x) := by
  intro pre post t ht
  have hfront : ∀ a : Tree Var, pre ++ (Tree.binary op a x).text ++ post =
      (pre ++ [op.symbol]) ++ a.text ++ (x.text ++ post) := by simp
  rw [hfront] at ht ⊢
  rw [hfront]
  exact h _ _ t ht

theorem right (h : u.Becomes w) (op : Connective) (x : Tree Var) :
    (Tree.binary op x u).Becomes (.binary op x w) := by
  intro pre post t ht
  have hfront : ∀ a : Tree Var, pre ++ (Tree.binary op x a).text ++ post =
      (pre ++ op.symbol :: x.text) ++ a.text ++ post := by simp
  rw [hfront] at ht ⊢
  rw [hfront]
  exact h _ _ t ht

end Tree.Becomes

theorem Law.within_of_rewrites {law : Law} {t t' : Bindings} {old new : List Symbol}
    (h : law.Rewrites t old new t') (hlaw : law ≠ .substitution) : t'.Within t := by
  cases h with
  | @rule _ r σ _ _ => exact Bindings.within_foldl_recount r σ Slot.all t
  | collapse _ | spellOut _ => exact absurd rfl hlaw

theorem Law.leaves_right_subset {law : Law} {e : Equation} (h : e ∈ law.equations) :
    e.right.leaves ⊆ e.left.leaves := by
  have hall : ∀ e ∈ law.equations, ∀ x ∈ e.right.leaves, x ∈ e.left.leaves := by
    cases law <;> decide
  exact hall e h

theorem Law.leads_of_named {law : Law} {e : Equation} (he : e ∈ law.equations)
    {σ τ : Slot → Tree Var} (hτ : ∀ x, (τ x).isOperand = true) {δ : Var → Tree Var}
    (hbind : ∀ x ∈ e.left.leaves, (τ x).bind δ = σ x) {pre post : List Symbol} {t : Bindings}
    (hpre : Plain pre) (hpost : Plain post)
    (h : Content.Named ⟨pre ++ (e.left.bind τ).text ++ post, t⟩ δ) :
    ∃ t', Content.Written ⟨pre ++ (e.right.bind σ).text ++ post, t'⟩ ∧
      Content.Leads ⟨pre ++ (e.left.bind τ).text ++ post, t⟩
        ⟨pre ++ (e.right.bind σ).text ++ post, t'⟩ := by
  have hlaw : law ≠ .substitution := by
    rintro rfl
    simp [equations] at he
  obtain ⟨t₁, hr⟩ := rewrites_of_relates he ⟨τ, hτ, rfl, rfl⟩ t
  obtain ⟨t₂, hleads, h₂, hplain⟩ := (h.replace hr (within_of_rewrites hr hlaw)).leads_inline
  have hinline : inline δ (pre ++ (e.right.bind τ).text ++ post) =
      pre ++ (e.right.bind σ).text ++ post := by
    rw [inline_append, inline_append, h.unfolds.inline_eq hpre, h.unfolds.inline_eq hpost,
      inline_text, Tree.bind_bind, Tree.bind_congr fun x hx => hbind x (leaves_right_subset he hx)]
  rw [hinline] at hleads h₂ hplain
  exact ⟨t₂, ⟨hplain, δ, h₂⟩, (Content.leads_of_rewrites hr pre post).trans hleads⟩

namespace Equation

/-- The operands of an equation can be anything, if none stands on the left side twice. -/
theorem becomes (law : Law) (e : Equation) (σ : Slot → Tree Var) (he : e ∈ law.equations)
    (hl : e.left.leaves.Nodup) : (e.left.bind σ).Becomes (e.right.bind σ) := by
  rintro pre post t ⟨hplain, δ, h⟩
  obtain ⟨hplain', hpost⟩ := plain_append.mp hplain
  obtain ⟨hpre, hmid⟩ := plain_append.mp hplain'
  obtain ⟨τ, t₁, δ₁, hτ, hleads₁, h₁, hbind, -⟩ := Content.exists_operands hl h
  have hσ : ∀ x ∈ e.left.leaves, (τ x).bind δ₁ = σ x := by
    intro x hx
    rw [hbind x hx, h.unfolds.bind_eq]
    exact fun v hv => hmid v (Tree.mem_varsOf_bind hx hv)
  obtain ⟨t₂, h₂, hleads₂⟩ := Law.leads_of_named he hτ hσ hpre hpost h₁
  exact ⟨t₂, h₂, hleads₁.trans hleads₂⟩

theorem becomes_of_isOperand (law : Law) (e : Equation) (σ : Slot → Tree Var)
    (he : e ∈ law.equations) (hσ : ∀ x, (σ x).isOperand = true) :
    (e.left.bind σ).Becomes (e.right.bind σ) := by
  rintro pre post t ⟨hplain, δ, h⟩
  obtain ⟨hplain', hpost⟩ := plain_append.mp hplain
  obtain ⟨hpre, hmid⟩ := plain_append.mp hplain'
  apply Law.leads_of_named he hσ _ hpre hpost h
  intro x hx
  rw [h.unfolds.bind_eq]
  exact fun v hv => hmid v (Tree.mem_varsOf_bind hx hv)

end Equation

end LawProof
