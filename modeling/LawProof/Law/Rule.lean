import LawProof.Bindings
import LawProof.Law

/-!
# Rules

A law is a list of rules, tried in order. A rule says which symbols may be put in the place of
which: its two sides are short bodies in which slots stand for single operands. What a rule does to
the occurrence counts follows from how often each slot stands on either side.
-/

namespace LawProof

/-- A place for one operand. -/
inductive Slot where
  | a
  | b
  | c
deriving DecidableEq, Repr

namespace Slot

def all : List Slot := [.a, .b, .c]

end Slot

/-- One symbol of a side of a rule. -/
inductive Piece where
  | sym (s : Symbol)
  | slot (x : Slot)
deriving DecidableEq, Repr

/-- The operands found for the slots so far. -/
structure Filling where
  a : Option Symbol := none
  b : Option Symbol := none
  c : Option Symbol := none
deriving DecidableEq, Repr

namespace Filling

def get? (σ : Filling) : Slot → Option Symbol
  | .a => σ.a
  | .b => σ.b
  | .c => σ.c

def put (σ : Filling) (x : Slot) (s : Symbol) : Filling :=
  match x with
  | .a => { σ with a := some s }
  | .b => { σ with b := some s }
  | .c => { σ with c := some s }

/-- The symbol that a piece stands for. -/
def fill (σ : Filling) : Piece → Symbol
  | .sym s => s
  | .slot x => (σ.get? x).getD .fls

end Filling

/-- Matches pieces with the symbols at the start of a window. A slot takes any operand, but the same
one each time it occurs. -/
def fit : List Piece → List Symbol → Filling → Option Filling
  | [], _, σ => some σ
  | _ :: _, [], _ => none
  | .sym s :: pieces, t :: window, σ => if s = t then fit pieces window σ else none
  | .slot x :: pieces, t :: window, σ =>
    match σ.get? x with
    | some s => if s = t then fit pieces window σ else none
    | none => if t.isOperand then fit pieces window (σ.put x t) else none

/-- A change to the formula at one position: how many symbols go, which ones come in their place,
and the table afterwards. -/
structure Edit where
  width : Nat
  put : List Symbol
  table : Bindings
deriving DecidableEq, Repr

structure Rule where
  source : List Piece
  target : List Piece
deriving DecidableEq, Repr

namespace Rule

/-- The rule read from right to left. -/
def flip (r : Rule) : Rule := ⟨r.target, r.source⟩

/-- How often a slot stands on either side, target first. -/
def uses (r : Rule) (x : Slot) : Nat × Nat :=
  (r.target.count (.slot x), r.source.count (.slot x))

/-- Brings the count of the operand in one slot in line with its new number of occurrences. -/
def recount (r : Rule) (σ : Filling) (t : Bindings) (x : Slot) : Bindings :=
  match σ.get? x with
  | none => t
  | some s =>
    let (after, before) := r.uses x
    let t := Nat.repeat (·.retain s) (after - before) t
    Nat.repeat (·.release s) (before - after) t

/-- The edit that the rule makes at the start of a window, if it matches there and the result needs
no more than `room` extra cells. -/
def edit? (r : Rule) (t : Bindings) (room : Nat) (window : List Symbol) : Option Edit :=
  if r.target.length ≤ r.source.length + room then
    match fit r.source window {} with
    | none => none
    | some σ => some ⟨r.source.length, r.target.map σ.fill, Slot.all.foldl (r.recount σ) t⟩
  else none

end Rule

namespace Piece

def a : Piece := .slot .a
def b : Piece := .slot .b
def c : Piece := .slot .c
def neg : Piece := .sym .neg
def disj : Piece := .sym .disj
def conj : Piece := .sym .conj
def fls : Piece := .sym .fls
def tru : Piece := .sym .tru

end Piece

namespace Law

open Piece (a b c neg disj conj fls tru)

/-- A rule and its reverse, the shorter result first. -/
def bothWays (long short : List Piece) : List Rule := [⟨long, short⟩, ⟨short, long⟩]

/-- Both ways: `op op a b c = op a op b c`. -/
def association (op : Piece) : List Rule := bothWays [op, op, a, b, c] [op, a, op, b, c]

/-- From `op a co b c` to `co op a b op a c`. -/
def distribution (op co : Piece) : Rule := ⟨[op, a, co, b, c], [co, op, a, b, op, a, c]⟩

/-- From `- op a b` to `co - a - b`. -/
def deMorgan (op co : Piece) : Rule := ⟨[neg, op, a, b], [co, neg, a, neg, b]⟩

/-- The rules of each law in the order in which they are tried. Substitution has none: what it does
depends on the table. -/
def rules : Law → List Rule
  | .identityOr => bothWays [disj, a, fls] [a]
  | .identityAnd => bothWays [conj, a, tru] [a]
  | .idempotentOr => bothWays [disj, a, a] [a]
  | .idempotentAnd => bothWays [conj, a, a] [a]
  | .commutative =>
    [⟨[disj, a, b], [disj, b, a]⟩, ⟨[conj, a, b], [conj, b, a]⟩] ++
      bothWays [neg, tru] [fls] ++ bothWays [neg, fls] [tru]
  | .associative =>
    association disj ++ association conj ++
      [distribution disj conj, distribution conj disj] ++
      [(distribution disj conj).flip, (distribution conj disj).flip] ++
      [deMorgan disj conj, deMorgan conj disj] ++
      [(deMorgan disj conj).flip, (deMorgan conj disj).flip] ++
      bothWays [neg, neg, a] [a]
  | .complement =>
    [⟨[disj, a, neg, a], [tru]⟩, ⟨[conj, a, neg, a], [fls]⟩,
      ⟨[tru], [disj, tru, neg, tru]⟩, ⟨[fls], [conj, tru, neg, tru]⟩]
  | .domination =>
    [⟨[disj, a, tru], [tru]⟩, ⟨[conj, a, fls], [fls]⟩,
      ⟨[tru], [disj, tru, tru]⟩, ⟨[fls], [conj, fls, fls]⟩]
  | .absorptionOr => [⟨[disj, a, conj, a, b], [a]⟩, ⟨[a], [disj, a, conj, a, tru]⟩]
  | .absorptionAnd => [⟨[conj, a, disj, a, b], [a]⟩, ⟨[a], [conj, a, disj, a, fls]⟩]
  | .substitution => []

end Law

end LawProof
