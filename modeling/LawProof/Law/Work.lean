import LawProof.Counting
import LawProof.Law.Apply

/-!
# Laws in place

A law can be worked in place: it looks at some cells, one after the other and no further than it
needs to, and if they are as it wants them, it moves the end of the formula and writes over the
cells, some of them more than once, and keeps the table in step. The state is changed as the work
goes on, and nothing puts it back. The work is a tree of single operations, so it can be run in
several ways: with one way of counting or another, and with or without checks.
-/

namespace LawProof

/-- The connective and the operand on its right give that operand, whatever is on its left. -/
def Symbol.dominates : Symbol → Symbol → Bool
  | .disj, .tru | .conj, .fls => true
  | _, _ => false

/-! ## Operations -/

/-- A single operation on a state, with the type of its answer. -/
inductive Op : Type → Type where
  | stop : Op Nat
  | hasRoom (growth : Nat) : Op Bool
  | load (i : Nat) : Op Symbol
  | store (i : Nat) (x : Symbol) : Op Unit
  | swap (i j : Nat) : Op Unit
  | shiftLeft (src dst : Nat) : Op Unit
  | shiftRight (src dst : Nat) : Op Unit
  | retain (x : Symbol) : Op Unit
  | release (x : Symbol) : Op Unit
  /-- One occurrence of a name less, where its definition comes back into the formula. -/
  | spellOut (x : Symbol) : Op Unit
  | define (d : Definition) : Op Symbol
  | definition? (x : Symbol) : Op (Option Definition)

/-- What an operation does, with some way of counting. -/
def Op.runBy {m : Type → Type} [Monad m] (c : Counting m) {α : Type} :
    Op α → State → m (α × State)
  | .stop, s => pure (s.formula.stop, s)
  | .hasRoom growth, s => pure (s.formula.hasRoom growth, s)
  | .load i, s => pure (s.formula.cell i, s)
  | .store i x, s => pure ((), { s with formula := s.formula.set i x })
  | .swap i j, s => pure ((), { s with formula := s.formula.swap i j })
  | .shiftLeft src dst, s => pure ((), { s with formula := s.formula.shift src dst })
  | .shiftRight src dst, s => pure ((), { s with formula := s.formula.shift src dst })
  | .retain x, s => do return ((), { s with table := ← s.table.retainBy c x })
  | .release x, s => do return ((), { s with table := ← s.table.releaseBy c x })
  | .spellOut x, s => do return ((), { s with table := ← s.table.expandBy c x })
  | .define d, s =>
    let (v, table) := s.table.define d
    pure (.var v, { s with table })
  | .definition? x, s => pure (x.var?.bind s.table.definition?, s)

/-- Work on a state: an operation, and what comes next by its answer. -/
inductive Work (α : Type) : Type 1 where
  | done (a : α)
  | step {β : Type} (op : Op β) (next : β → Work α)

namespace Work

protected def bind {α β : Type} : Work α → (α → Work β) → Work β
  | done a, k => k a
  | step op next, k => step op fun b => (next b).bind k

instance : Monad Work where
  pure := done
  bind := Work.bind

instance : MonadLift Op Work := ⟨fun op => step op done⟩

/-- Does the operations one after the other, each in the given way. -/
def runWith {m : Type → Type} [Monad m] (run : {β : Type} → Op β → State → m (β × State))
    {α : Type} : Work α → State → m (α × State)
  | done a, s => pure (a, s)
  | step op next, s => do
    let (b, s) ← run op s
    (next b).runWith run s

def runBy {m : Type → Type} [Monad m] (c : Counting m) {α : Type} (w : Work α) (s : State) :
    m (α × State) := w.runWith (Op.runBy c) s

open Op (stop hasRoom load store swap shiftLeft shiftRight retain release spellOut define)

/-! ## Tests -/

/-- The first `n` cells all belong to the formula. -/
def fits (n : Nat) : Work Bool := return n ≤ (← stop)

def room (growth : Nat) : Work Bool := hasRoom growth

def finds (i : Nat) (x : Symbol) : Work Bool := return (← load i) == x

def holds (i : Nat) (p : Symbol → Bool) : Work Bool := return p (← load i)

def same (i j : Nat) : Work Bool := return (← load i) == (← load j)

/-- Does some work on the constant at a cell, if there is one and it can grow by so much. -/
def onConstant (i growth : Nat) (work : Bool → Work Unit) : Work Bool := do
  match (← load i).value? with
  | some value =>
    if ← room growth then
      work value
      return true
    else return false
  | none => return false

/-! ## Identity, idempotence, commutativity and constants -/

/-- From `op a unit` to `a`, or else from `a` to `op a unit`. -/
def identity (op unit : Symbol) (i : Nat) : Work Bool := do
  if ← fits (i + 3) <&&> finds i op <&&> holds (i + 1) Symbol.isOperand <&&>
      finds (i + 2) unit then
    store i (← load (i + 1))
    shiftLeft (i + 3) (i + 1)
    return true
  else if ← holds i Symbol.isOperand <&&> room 2 then
    shiftRight (i + 1) (i + 3)
    store (i + 1) (← load i)
    store i op
    store (i + 2) unit
    return true
  else return false

/-- From `op a a` to `a`, or else from `a` to `op a a`. -/
def idempotent (op : Symbol) (i : Nat) : Work Bool := do
  if ← fits (i + 3) <&&> finds i op <&&> holds (i + 1) Symbol.isOperand <&&>
      same (i + 1) (i + 2) then
    store i (← load (i + 1))
    shiftLeft (i + 3) (i + 1)
    release (← load i)
    return true
  else if ← holds i Symbol.isOperand <&&> room 2 then
    retain (← load i)
    shiftRight (i + 1) (i + 3)
    store (i + 1) (← load i)
    store (i + 2) (← load i)
    store i op
    return true
  else return false

/-- From `op a b` to `op b a`. -/
def commutative (i : Nat) : Work Bool := do
  if ← fits (i + 3) <&&> holds i Symbol.isBinary <&&> holds (i + 1) Symbol.isOperand <&&>
      holds (i + 2) Symbol.isOperand then
    swap (i + 1) (i + 2)
    return true
  else return false

/-- From the negation of a constant to the other one, or else the other way. -/
def negation (i : Nat) : Work Bool := do
  if ← finds i .neg then
    if ← fits (i + 2) then
      match (← load (i + 1)).value? with
      | some value =>
        store i (.constant !value)
        shiftLeft (i + 2) (i + 1)
        return true
      | none => return false
    else return false
  else
    onConstant i 1 fun value => do
      shiftRight (i + 1) (i + 2)
      store i .neg
      store (i + 1) (.constant !value)

/-! ## Complement, domination and absorption -/

/-- From `op a - a` to a constant, or else from a constant to `op T - T`. -/
def complement (i : Nat) : Work Bool := do
  if ← fits (i + 4) <&&> holds i Symbol.isBinary <&&> holds (i + 1) Symbol.isOperand <&&>
      finds (i + 2) .neg <&&> same (i + 3) (i + 1) then
    let result := Symbol.constant ((← load i) = .disj)
    release (← load (i + 1))
    release (← load (i + 1))
    shiftLeft (i + 4) (i + 1)
    store i result
    return true
  else
    onConstant i 3 fun value => do
      shiftRight (i + 1) (i + 4)
      store i (if value then .disj else .conj)
      store (i + 1) .tru
      store (i + 2) .neg
      store (i + 3) .tru

def dominated (i : Nat) : Work Bool := return (← load i).dominates (← load (i + 2))

/-- From `op a k` to the constant `k`, or else from `k` to `op k k`. -/
def domination (i : Nat) : Work Bool := do
  if ← fits (i + 3) <&&> holds (i + 1) Symbol.isOperand <&&> dominated i then
    release (← load (i + 1))
    store i (← load (i + 2))
    shiftLeft (i + 3) (i + 1)
    return true
  else
    onConstant i 2 fun value => do
      let constant ← load i
      shiftRight (i + 1) (i + 3)
      store i (if value then .disj else .conj)
      store (i + 1) constant
      store (i + 2) constant

/-- From `outer a inner a b` to `a`, or else from `a` to `outer a inner a filler`. -/
def absorption (outer inner filler : Symbol) (i : Nat) : Work Bool := do
  if ← fits (i + 5) <&&> finds i outer <&&> holds (i + 1) Symbol.isOperand <&&>
      finds (i + 2) inner <&&> same (i + 3) (i + 1) <&&> holds (i + 4) Symbol.isOperand then
    release (← load (i + 1))
    release (← load (i + 4))
    store i (← load (i + 1))
    shiftLeft (i + 5) (i + 1)
    return true
  else if ← holds i Symbol.isOperand <&&> room 4 then
    shiftRight (i + 1) (i + 5)
    store (i + 1) (← load i)
    store (i + 3) (← load i)
    store i outer
    store (i + 2) inner
    store (i + 4) filler
    retain (← load (i + 1))
    return true
  else return false

/-! ## Associativity, distributivity, De Morgan and double negation -/

/-- Between `op a op b c` and `op op a b c`. -/
def associative (i : Nat) : Work Bool := do
  if ← fits (i + 5) then
    let op ← load i
    if ← pure op.isBinary <&&>
        (holds (i + 1) Symbol.isOperand <||> holds (i + 2) Symbol.isOperand) <&&>
        (finds (i + 1) op <||> finds (i + 2) op) <&&>
        holds (i + 3) Symbol.isOperand <&&> holds (i + 4) Symbol.isOperand then
      swap (i + 1) (i + 2)
      return true
    else return false
  else return false

def isDual (i j : Nat) : Work Bool := return (← load i) == (← load j).dual

/-- From `op a co b c` to `co op a b op a c`. -/
def distribute (i : Nat) : Work Bool := do
  if ← fits (i + 5) <&&> room 2 then
    if ← holds i Symbol.isBinary <&&> isDual (i + 2) i <&&>
        holds (i + 1) Symbol.isOperand <&&> holds (i + 3) Symbol.isOperand <&&>
        holds (i + 4) Symbol.isOperand then
      retain (← load (i + 1))
      shiftRight (i + 5) (i + 7)
      store (i + 6) (← load (i + 4))
      store (i + 5) (← load (i + 1))
      store (i + 1) (← load i)
      store (i + 4) (← load i)
      store i (← load (i + 2))
      store (i + 2) (← load (i + 5))
      return true
    else return false
  else return false

/-- From `op co a b co a c` to `co a op b c`. -/
def factor (i : Nat) : Work Bool := do
  if ← fits (i + 7) then
    let inner := (← load i).dual
    if ← holds i Symbol.isBinary <&&> finds (i + 1) inner <&&> finds (i + 4) inner <&&>
        holds (i + 2) Symbol.isOperand <&&> holds (i + 3) Symbol.isOperand <&&>
        holds (i + 6) Symbol.isOperand <&&> same (i + 2) (i + 5) then
      store (i + 1) (← load (i + 2))
      store (i + 2) (← load i)
      store i (← load (i + 4))
      store (i + 4) (← load (i + 6))
      shiftLeft (i + 7) (i + 5)
      release (← load (i + 1))
      return true
    else return false
  else return false

/-- From `- op a b` to `co - a - b`. -/
def deMorganExpand (i : Nat) : Work Bool := do
  if ← fits (i + 4) <&&> room 1 then
    if ← finds i .neg <&&> holds (i + 1) Symbol.isBinary <&&>
        holds (i + 2) Symbol.isOperand <&&> holds (i + 3) Symbol.isOperand then
      shiftRight (i + 4) (i + 5)
      store i (← load (i + 1)).dual
      store (i + 1) .neg
      store (i + 4) (← load (i + 3))
      store (i + 3) .neg
      return true
    else return false
  else return false

/-- From `co - a - b` to `- op a b`. -/
def deMorganFactor (i : Nat) : Work Bool := do
  if ← fits (i + 5) then
    if ← holds i Symbol.isBinary <&&> finds (i + 1) .neg <&&>
        holds (i + 2) Symbol.isOperand <&&> finds (i + 3) .neg <&&>
        holds (i + 4) Symbol.isOperand then
      store (i + 1) (← load i).dual
      store i .neg
      store (i + 3) (← load (i + 4))
      shiftLeft (i + 5) (i + 4)
      return true
    else return false
  else return false

/-- From `- - a` to `a`, or else from `a` to `- - a`. -/
def doubleNegation (i : Nat) : Work Bool := do
  if ← fits (i + 3) <&&> finds i .neg <&&> finds (i + 1) .neg <&&>
      holds (i + 2) Symbol.isOperand then
    store i (← load (i + 2))
    shiftLeft (i + 3) (i + 1)
    return true
  else if ← holds i Symbol.isOperand <&&> room 2 then
    shiftRight (i + 1) (i + 3)
    store (i + 2) (← load i)
    store i .neg
    store (i + 1) .neg
    return true
  else return false

/-! ## Substitution -/

def collapseUnary (i : Nat) : Work Bool := do
  if ← fits (i + 2) <&&> holds (i + 1) Symbol.isOperand then
    store i (← define (.neg (← load (i + 1))))
    shiftLeft (i + 2) (i + 1)
    return true
  else return false

def collapseBinary (i : Nat) : Work Bool := do
  if ← fits (i + 3) <&&> holds (i + 1) Symbol.isOperand <&&>
      holds (i + 2) Symbol.isOperand then
    match Definition.binary? (← load i) (← load (i + 1)) (← load (i + 2)) with
    | none => return false
    | some d =>
      store i (← define d)
      shiftLeft (i + 3) (i + 1)
      return true
  else return false

/-- From a name to its definition. -/
def expand (d : Definition) (i : Nat) : Work Bool := do
  match d with
  | .neg a =>
    if ← room 1 then
      shiftRight (i + 1) (i + 2)
      spellOut (← load i)
      store i .neg
      store (i + 1) a
      return true
    else return false
  | .disj a b | .conj a b =>
    if ← room 2 then
      shiftRight (i + 1) (i + 3)
      spellOut (← load i)
      store i d.operator
      store (i + 1) a
      store (i + 2) b
      return true
    else return false

def substitution (i : Nat) : Work Bool := do
  match ← load i with
  | .neg => collapseUnary i
  | .disj | .conj => collapseBinary i
  | .var _ =>
    match ← Op.definition? (← load i) with
    | some d => expand d i
    | none => return false
  | _ => return false

/-! ## The laws -/

/-- Works a law at a position, and tells whether it applied. Where a law has several forms, the next
one is tried on what the one before has left. -/
def apply (law : Law) (i : Nat) : Work Bool := do
  if ← fits (i + 1) then
    match law with
    | .identityOr => identity .disj .fls i
    | .identityAnd => identity .conj .tru i
    | .idempotentOr => idempotent .disj i
    | .idempotentAnd => idempotent .conj i
    | .commutative => commutative i <||> negation i
    | .associative =>
      associative i <||> distribute i <||> factor i <||> deMorganExpand i <||> deMorganFactor i <||>
        doubleNegation i
    | .complement => complement i
    | .domination => domination i
    | .absorptionOr => absorption .disj .conj .tru i
    | .absorptionAnd => absorption .conj .disj .fls i
    | .substitution => substitution i
  else return false

end Work

/-- Works a law in place: whether it applied, and the state that is left. -/
def State.applyBy {m : Type → Type} [Monad m] (c : Counting m) (s : State) (law : Law) (i : Nat) :
    m (Bool × State) :=
  (Work.apply law i).runBy c s

end LawProof
