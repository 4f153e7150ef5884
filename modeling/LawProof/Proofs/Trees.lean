import LawProof.Proofs.Occurrences
import LawProof.Proofs.Tape

/-!
# Trees

A well-formed body is the text, in prefix order, of one tree and of no other. Every position in the
body is where the text of one subtree starts, and to put another tree there is to splice its text
in. The leaves of a tree can be of any kind: variables in a formula, slots in an equation.
-/

namespace LawProof

open Body (varsOf)

inductive Connective where
  | disj
  | conj
deriving DecidableEq, Repr

namespace Connective

def symbol : Connective → Symbol
  | .disj => .disj
  | .conj => .conj

def dual : Connective → Connective
  | .disj => .conj
  | .conj => .disj

theorem symbol_inj {op op' : Connective} (h : op.symbol = op'.symbol) : op = op' := by
  cases op <;> cases op' <;> simp_all [symbol]

end Connective

inductive Tree (α : Type) where
  | const (value : Bool)
  | leaf (a : α)
  | neg (a : Tree α)
  | binary (op : Connective) (a b : Tree α)
deriving DecidableEq, Repr

namespace Tree

variable {α β γ : Type}

@[match_pattern]
abbrev disj (a b : Tree α) : Tree α := .binary .disj a b

@[match_pattern]
abbrev conj (a b : Tree α) : Tree α := .binary .conj a b

/-- The nodes in prefix order: `sym` writes constants and connectives, `leaf` the leaves. -/
def nodes (sym : Symbol → β) (leaf : α → β) : Tree α → List β
  | .const c => [sym (.constant c)]
  | .leaf a => [leaf a]
  | .neg a => sym .neg :: a.nodes sym leaf
  | .binary op a b => sym op.symbol :: (a.nodes sym leaf ++ b.nodes sym leaf)

def text (t : Tree Var) : List Symbol := t.nodes id .var

/-- How many symbols the text has. -/
def size : Tree α → Nat
  | .const _ | .leaf _ => 1
  | .neg a => a.size + 1
  | .binary _ a b => a.size + b.size + 1

def leaves : Tree α → List α
  | .const _ => []
  | .leaf a => [a]
  | .neg a => a.leaves
  | .binary _ a b => a.leaves ++ b.leaves

/-- Puts a tree in the place of every leaf. -/
def bind : Tree α → (α → Tree β) → Tree β
  | .const c, _ => .const c
  | .leaf a, f => f a
  | .neg a, f => .neg (a.bind f)
  | .binary op a b, f => .binary op (a.bind f) (b.bind f)

/-- A constant or a single leaf. -/
def isOperand : Tree α → Bool
  | .const _ | .leaf _ => true
  | _ => false

@[simp] theorem text_const (c : Bool) : text (.const c) = [.constant c] := rfl
@[simp] theorem text_leaf (v : Var) : text (.leaf v) = [.var v] := rfl
@[simp] theorem text_neg (a : Tree Var) : text (.neg a) = .neg :: a.text := rfl
@[simp] theorem text_binary (op : Connective) (a b : Tree Var) :
    text (.binary op a b) = op.symbol :: (a.text ++ b.text) := rfl

theorem size_pos (t : Tree α) : 0 < t.size := by
  cases t <;> simp [size]

@[simp] theorem length_nodes (sym : Symbol → β) (leaf : α → β) (t : Tree α) :
    (t.nodes sym leaf).length = t.size := by
  induction t with
  | const | leaf => rfl
  | neg a ih => simp [nodes, size, ih]
  | binary op a b iha ihb => simp [nodes, size, iha, ihb]

@[simp] theorem length_text (t : Tree Var) : t.text.length = t.size := t.length_nodes ..

theorem map_nodes (f : β → γ) (sym : Symbol → β) (leaf : α → β) (t : Tree α) :
    (t.nodes sym leaf).map f = t.nodes (f ∘ sym) (f ∘ leaf) := by
  induction t with
  | const | leaf => rfl
  | neg a ih => simp [nodes, ih]
  | binary op a b iha ihb => simp [nodes, iha, ihb]

/-! ## Leaves -/

theorem bind_congr {t : Tree α} {f g : α → Tree β} (h : ∀ a ∈ t.leaves, f a = g a) :
    t.bind f = t.bind g := by
  induction t with
  | const => rfl
  | leaf a => exact h a List.mem_cons_self
  | neg a ih => simp only [bind, ih h]
  | binary op a b iha ihb =>
    simp only [leaves, List.mem_append] at h
    simp only [bind, iha fun x hx => h x (Or.inl hx), ihb fun x hx => h x (Or.inr hx)]

theorem bind_bind (t : Tree α) (f : α → Tree β) (g : β → Tree γ) :
    (t.bind f).bind g = t.bind fun a => (f a).bind g := by
  induction t with
  | const | leaf => rfl
  | neg a ih => simp only [bind, ih]
  | binary op a b iha ihb => simp only [bind, iha, ihb]

theorem bind_leaf (t : Tree α) : t.bind .leaf = t := by
  induction t with
  | const | leaf => rfl
  | neg a ih => simp only [bind, ih]
  | binary op a b iha ihb => simp only [bind, iha, ihb]

theorem leaves_bind (t : Tree α) (f : α → Tree β) :
    (t.bind f).leaves = t.leaves.flatMap fun a => (f a).leaves := by
  induction t with
  | const | leaf => simp [bind, leaves]
  | neg a ih => simp only [bind, leaves, ih]
  | binary op a b iha ihb => simp only [bind, leaves, iha, ihb, List.flatMap_append]

theorem varsOf_text (t : Tree Var) : varsOf t.text = t.leaves := by
  have hsym : ∀ s xs, s.var? = none → varsOf (s :: xs) = varsOf xs :=
    fun s xs hs => List.filterMap_cons_none hs
  induction t with
  | const c => cases c <;> rfl
  | leaf v => rfl
  | neg a ih => rw [text_neg, hsym _ _ rfl, ih, leaves]
  | binary op a b iha ihb =>
    have hop : op.symbol.var? = none := by cases op <;> rfl
    rw [text_binary, hsym _ _ hop, Body.varsOf_append, iha, ihb, leaves]

theorem text_bind_of_single {t : Tree α} {f : α → Tree Var} {g : α → Symbol}
    (h : ∀ a ∈ t.leaves, (f a).text = [g a]) : (t.bind f).text = t.nodes id g := by
  induction t with
  | const => rfl
  | leaf a => exact h a List.mem_cons_self
  | neg a ih => simp only [bind, text_neg, nodes, ih h, id]
  | binary op a b iha ihb =>
    simp only [leaves, List.mem_append] at h
    simp only [bind, text_binary, nodes, iha fun x hx => h x (Or.inl hx),
      ihb fun x hx => h x (Or.inr hx), id]

/-- The tree of one symbol. -/
def ofSymbol : Symbol → Tree Var
  | .tru => .const true
  | .var v => .leaf v
  | _ => .const false

theorem text_ofSymbol {s : Symbol} (h : s.isOperand = true) : (ofSymbol s).text = [s] := by
  cases s with
  | fls | tru | var v => rfl
  | _ => simp [Symbol.isOperand] at h

theorem isOperand_ofSymbol (s : Symbol) : (ofSymbol s).isOperand = true := by
  cases s <;> rfl

theorem exists_ofSymbol {t : Tree Var} (h : t.isOperand = true) :
    ∃ s, s.isOperand = true ∧ t = ofSymbol s := by
  cases t with
  | const c => exact ⟨.constant c, by cases c <;> rfl, by cases c <;> rfl⟩
  | leaf v => exact ⟨.var v, rfl, rfl⟩
  | _ => simp [isOperand] at h

/-! ## One tree for a text -/

theorem constant_ne_symbol (c : Bool) (op : Connective) : Symbol.constant c ≠ op.symbol := by
  cases c <;> cases op <;> decide

/-- Where the text of a tree ends can be told from the text alone. -/
theorem text_append_inj {t u : Tree Var} {xs ys : List Symbol}
    (h : t.text ++ xs = u.text ++ ys) : t = u ∧ xs = ys := by
  induction t generalizing u xs ys with
  | const c =>
    cases u with
    | const d => cases c <;> cases d <;> simp_all [Symbol.constant]
    | binary op a b => exact absurd (List.cons.inj h).1 (constant_ne_symbol c op)
    | _ => cases c <;> simp [Symbol.constant] at h
  | leaf v =>
    cases u with
    | const d => cases d <;> simp [Symbol.constant] at h
    | leaf w => simpa using h
    | binary op a b => cases op <;> simp [Connective.symbol] at h
    | _ => simp at h
  | neg a ih =>
    cases u with
    | const d => cases d <;> simp [Symbol.constant] at h
    | neg b =>
      obtain ⟨rfl, rfl⟩ := ih (List.cons.inj h).2
      exact ⟨rfl, rfl⟩
    | binary op a b => cases op <;> simp [Connective.symbol] at h
    | _ => simp at h
  | binary op a b iha ihb =>
    cases u with
    | const d => exact absurd (List.cons.inj h).1.symm (constant_ne_symbol d op)
    | binary op' a' b' =>
      simp only [text_binary, List.cons_append, List.cons.injEq, List.append_assoc] at h
      obtain ⟨hop, h⟩ := h
      obtain ⟨rfl, hrest⟩ := iha h
      obtain ⟨rfl, rfl⟩ := ihb hrest
      obtain rfl := Connective.symbol_inj hop
      exact ⟨rfl, rfl⟩
    | _ => cases op <;> simp [Connective.symbol] at h

theorem text_inj {t u : Tree Var} (h : t.text = u.text) : t = u :=
  (text_append_inj (congrArg (· ++ []) h)).1

/-! ## Subtrees by position -/

/-- The subtree whose text starts at a position. -/
def at? : Tree α → Nat → Option (Tree α)
  | t, 0 => some t
  | .neg a, i + 1 => a.at? i
  | .binary _ a b, i + 1 => if i < a.size then a.at? i else b.at? (i - a.size)
  | _, _ + 1 => none

/-- The tree with another one in the place of the subtree at a position. -/
def replaceAt : Tree α → Nat → Tree α → Tree α
  | _, 0, u => u
  | .neg a, i + 1, u => .neg (a.replaceAt i u)
  | .binary op a b, i + 1, u =>
    if i < a.size then .binary op (a.replaceAt i u) b
    else .binary op a (b.replaceAt (i - a.size) u)
  | t, _ + 1, _ => t

theorem exists_at? {t : Tree Var} {i : Nat} (h : i < t.size) :
    ∃ u pre post, t.at? i = some u ∧ pre.length = i ∧ t.text = pre ++ u.text ++ post ∧
      ∀ u', (t.replaceAt i u').text = pre ++ u'.text ++ post := by
  induction t generalizing i with
  | const | leaf =>
    obtain rfl : i = 0 := by simpa [size] using h
    exact ⟨_, [], [], rfl, rfl, by simp, fun u' => by simp [replaceAt]⟩
  | neg a ih =>
    cases i with
    | zero => exact ⟨_, [], [], rfl, rfl, by simp, fun u' => by simp [replaceAt]⟩
    | succ i =>
      obtain ⟨u, pre, post, hu, rfl, htext, hrep⟩ := ih (by simpa [size] using h)
      exact ⟨u, .neg :: pre, post, hu, rfl, by simp [htext], fun u' => by simp [replaceAt, hrep]⟩
  | binary op a b iha ihb =>
    cases i with
    | zero => exact ⟨_, [], [], rfl, rfl, by simp, fun u' => by simp [replaceAt]⟩
    | succ i =>
      simp only [size] at h
      -- The position is in the first operand or in the second.
      by_cases hi : i < a.size
      · obtain ⟨u, pre, post, hu, rfl, htext, hrep⟩ := iha hi
        refine ⟨u, op.symbol :: pre, post ++ b.text, by simp [at?, hi, hu], rfl,
          by simp [htext], ?_⟩
        intro u'
        simp [replaceAt, hi, hrep]
      · obtain ⟨u, pre, post, hu, hpre, htext, hrep⟩ := ihb (i := i - a.size) (by omega)
        refine ⟨u, op.symbol :: (a.text ++ pre), post, by simp [at?, hi, hu], ?_,
          by simp [htext], ?_⟩
        · simp only [List.length_cons, List.length_append, length_text]
          omega
        · intro u'
          simp [replaceAt, hi, hrep]

theorem at?_of_text_eq {t u : Tree Var} {pre post : List Symbol}
    (h : t.text = pre ++ u.text ++ post) :
    t.at? pre.length = some u ∧
      ∀ u', (t.replaceAt pre.length u').text = pre ++ u'.text ++ post := by
  have hlen := congrArg List.length h
  have hpos := u.size_pos
  simp only [List.length_append, length_text] at hlen
  obtain ⟨w, pre', post', hw, hpre, htext, hrep⟩ := exists_at? (t := t) (i := pre.length) (by omega)
  rw [h, List.append_assoc, List.append_assoc] at htext
  obtain ⟨rfl, hrest⟩ := List.append_inj htext hpre.symm
  obtain ⟨rfl, rfl⟩ := text_append_inj hrest
  exact ⟨hw, hrep⟩

end Tree

/-! ## Syntax -/

namespace Body

theorem depth_text_append (t : Tree Var) (position : Nat) (rest : List Symbol) :
    depth position (t.text ++ rest) = (depth (position + t.size) rest).map (· + 1) := by
  induction t generalizing position rest with
  | const c =>
    cases c <;> simp only [Tree.text_const, Symbol.constant, List.cons_append, List.nil_append,
      depth, Tree.size] <;> cases depth (position + 1) rest <;> rfl
  | leaf v =>
    simp only [Tree.text_leaf, List.cons_append, List.nil_append, depth, Tree.size]
    cases depth (position + 1) rest <;> rfl
  | neg a ih =>
    rw [Tree.text_neg, List.cons_append, depth, ih, Tree.size, Nat.add_assoc, Nat.add_comm 1]
    cases depth (position + (a.size + 1)) rest <;> rfl
  | binary op a b iha ihb =>
    rw [Tree.text_binary, List.cons_append, List.append_assoc, depth, iha, ihb, Tree.size,
      show position + 1 + a.size + b.size = position + (a.size + b.size + 1) by omega]
    cases depth (position + (a.size + b.size + 1)) rest <;> cases op <;> rfl

theorem exists_trees_of_depth {position n : Nat} {body : List Symbol}
    (h : depth position body = .ok n) :
    ∃ ts : List (Tree Var), ts.length = n ∧ ts.flatMap Tree.text = body := by
  induction body generalizing position n with
  | nil =>
    simp only [depth, Except.ok.injEq] at h
    exact ⟨[], h, rfl⟩
  | cons s body ih =>
    simp only [depth] at h
    split at h
    · simp at h
    · rename_i d hd
      obtain ⟨ts, hlen, rfl⟩ := ih hd
      split at h
      · simp at h
      · rename_i k hk
        split at h
        · simp at h
        · rename_i hle
          rw [Except.ok.injEq] at h
          have hsingle : ∀ s : Symbol, s.isOperand = true →
              (Tree.ofSymbol s :: ts).flatMap Tree.text = s :: ts.flatMap Tree.text := by
            intro s hs
            simp [Tree.text_ofSymbol hs]
          -- The symbol takes its operands from the front of the trees behind it.
          cases s with
          | stop => simp [Symbol.arity?] at hk
          | fls | tru | var v =>
            obtain rfl : 0 = k := Option.some.inj hk
            exact ⟨_, by simp; omega, hsingle _ rfl⟩
          | neg =>
            obtain rfl : 1 = k := Option.some.inj hk
            match ts, hlen with
            | [], hlen => simp at hlen; omega
            | a :: ts, hlen => exact ⟨.neg a :: ts, by simp at hlen ⊢; omega, by simp⟩
          | disj =>
            obtain rfl : 2 = k := Option.some.inj hk
            match ts, hlen with
            | [], hlen | [_], hlen => simp at hlen; omega
            | a :: b :: ts, hlen =>
              exact ⟨.disj a b :: ts, by simp at hlen ⊢; omega, by simp [Connective.symbol]⟩
          | conj =>
            obtain rfl : 2 = k := Option.some.inj hk
            match ts, hlen with
            | [], hlen | [_], hlen => simp at hlen; omega
            | a :: b :: ts, hlen =>
              exact ⟨.conj a b :: ts, by simp at hlen ⊢; omega, by simp [Connective.symbol]⟩

/-- A body passes the syntax check exactly if it is the text of a tree. -/
theorem checkSyntax_eq_ok_iff {body : List Symbol} :
    checkSyntax body = .ok () ↔ ∃ t : Tree Var, t.text = body := by
  constructor
  · intro h
    unfold checkSyntax at h
    split at h
    · simp at h
    · simp at h
    · rename_i hd
      obtain ⟨ts, hlen, rfl⟩ := exists_trees_of_depth hd
      obtain ⟨t, rfl⟩ := List.length_eq_one_iff.mp hlen
      exact ⟨t, by simp⟩
    · simp at h
  · rintro ⟨t, rfl⟩
    have hd := depth_text_append t 0 []
    rw [List.append_nil] at hd
    unfold checkSyntax
    rw [hd]
    rfl

theorem stop_notMem_text (t : Tree Var) : .stop ∉ t.text := by
  induction t with
  | const c => cases c <;> simp [Symbol.constant]
  | leaf v => simp
  | neg a ih => simpa using ih
  | binary op a b iha ihb =>
    have hop : op.symbol ≠ .stop := by cases op <;> decide
    simpa [hop.symm] using ⟨iha, ihb⟩

end Body

end LawProof
