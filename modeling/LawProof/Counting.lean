import LawProof.Bindings

/-!
# Ways of counting

Occurrences can be counted in several ways: in numbers without a bound, in words that wrap around,
or with a fault where a limit is passed. A way of counting says what it is to go up or down by one.
The path through the definitions is the same for all of them.
-/

namespace LawProof

/-- A way of counting the occurrences of a variable up and down by one. -/
structure Counting (m : Type → Type) where
  up : Var → Nat → m Nat
  down : Var → Nat → m Nat

namespace Counting

/-- Numbers without a bound. -/
def exact : Counting Id := ⟨fun _ n => n + 1, fun _ n => n - 1⟩

/-- How many numbers there are in a word of 32 bits. -/
def wordSize : Nat := 4294967296

/-- Words of 32 bits: counting up wraps around, counting down stops at zero. -/
def word : Counting Id := ⟨fun _ n => (n + 1) % wordSize, fun _ n => n - 1⟩

end Counting

namespace Bindings

/-- The symbols in what a variable stands for. -/
def operandsOf (t : Bindings) (v : Var) : List Symbol :=
  match t.definition? v with
  | none => []
  | some d => d.operands

section

variable {m : Type → Type} [Monad m]

/-- Touches the variable of a symbol and then, one after the other, all that it stands for, `depth`
definitions deep. -/
def cascade (touch : Var → Bindings → m Bindings) : Nat → Symbol → Bindings → m Bindings
  | 0, _, t => pure t
  | depth + 1, .var v, t => do
    (t.operandsOf v).foldlM (fun t s => cascade touch depth s t) (← touch v t)
  | _ + 1, _, t => pure t

variable (c : Counting m)

/-- One occurrence more in the entry of a variable, which may be new. -/
def countUp (v : Var) (t : Bindings) : m Bindings := do
  let b := (t.get? v).getD ⟨0, none⟩
  return t.put v { b with count := ← c.up v b.count }

/-- One occurrence less in the entry of a variable, if it has one; the entry goes with the last. -/
def countDown (v : Var) (t : Bindings) : m Bindings := do
  match t.get? v with
  | none => return t
  | some b =>
    let count ← c.down v b.count
    return if count = 0 then t.remove v else t.put v { b with count }

/-- `retain`, with some way of counting. -/
def retainBy (t : Bindings) (s : Symbol) : m Bindings := cascade (countUp c) t.chainBound s t

/-- `release`, with some way of counting. -/
def releaseBy (t : Bindings) (s : Symbol) : m Bindings := cascade (countDown c) t.chainBound s t

/-- `expand`, with some way of counting. -/
def expandBy (t : Bindings) (s : Symbol) : m Bindings :=
  match s.var? with
  | none => pure t
  | some v => countDown c v t

/-- The table of a formula as it was written. -/
def ofBodyBy (body : List Symbol) : m Bindings := body.foldlM (retainBy c) empty

end

end Bindings

end LawProof
