import LawProof.Definition
import LawProof.Formula

/-!
# Bindings

The table that goes with a working formula. It holds every variable in use with its number of
occurrences, those inside the definitions of synthetic variables included, and what each synthetic
variable stands for. Entries are kept in the order of their ids, so equal tables are equal lists.
-/

namespace LawProof

structure Binding where
  count : Nat
  definition : Option Definition
deriving DecidableEq, Repr

structure Bindings where
  entries : List (Var × Binding)
  /-- Where the search for an unused synthetic id starts. -/
  next : Nat
deriving DecidableEq, Repr

namespace Bindings

def empty : Bindings := ⟨[], maxVariables⟩

/-! ## Entries -/

def lookup (v : Var) : List (Var × Binding) → Option Binding
  | [] => none
  | (w, b) :: rest => if w = v then some b else lookup v rest

/-- Puts an entry in its place, over the one that was there. -/
def insert (v : Var) (b : Binding) : List (Var × Binding) → List (Var × Binding)
  | [] => [(v, b)]
  | (w, c) :: rest =>
    if w = v then (v, b) :: rest
    else if v.id < w.id then (v, b) :: (w, c) :: rest
    else (w, c) :: insert v b rest

def erase (v : Var) (entries : List (Var × Binding)) : List (Var × Binding) :=
  entries.filter (fun e => e.1 ≠ v)

def get? (t : Bindings) (v : Var) : Option Binding := lookup v t.entries

def contains (t : Bindings) (v : Var) : Bool := (t.get? v).isSome

def put (t : Bindings) (v : Var) (b : Binding) : Bindings :=
  { t with entries := insert v b t.entries }

def remove (t : Bindings) (v : Var) : Bindings :=
  { t with entries := erase v t.entries }

/-- What a synthetic variable in the table stands for. -/
def definition? (t : Bindings) (v : Var) : Option Definition := (t.get? v).bind (·.definition)

/-- The occurrences of a symbol: none unless it is a variable in the table. -/
def count (t : Bindings) (s : Symbol) : Nat :=
  match s.var? with
  | none => 0
  | some v => ((t.get? v).map (·.count)).getD 0

/-- The counts of all variables in the table, in the order of their ids. -/
def counts (t : Bindings) : List (Var × Nat) := t.entries.map fun e => (e.1, e.2.count)

/-- No chain of definitions, each used in the one before, is longer than this unless it runs in a
circle. -/
def chainBound (t : Bindings) : Nat := t.entries.length + 1

/-! ## Counting occurrences -/

/-- Counts one more occurrence of a symbol and of what it stands for, `depth` definitions deep. -/
def retainWithin : Nat → Symbol → Bindings → Bindings
  | 0, _, t => t
  | depth + 1, .var v, t =>
    match t.get? v with
    | none => t.put v ⟨1, none⟩
    | some b =>
      let t := t.put v { b with count := b.count + 1 }
      match b.definition with
      | none => t
      | some d => d.operands.foldl (fun t s => retainWithin depth s t) t
  | _ + 1, _, t => t

/-- One more occurrence of a symbol. -/
def retain (t : Bindings) (s : Symbol) : Bindings := retainWithin t.chainBound s t

/-- One occurrence of a variable less; the entry goes with the last one. -/
def dropOne (t : Bindings) (v : Var) (b : Binding) : Bindings :=
  if b.count ≤ 1 then t.remove v else t.put v { b with count := b.count - 1 }

/-- Counts one occurrence less of a symbol and of what it stands for, `depth` definitions deep. -/
def releaseWithin : Nat → Symbol → Bindings → Bindings
  | 0, _, t => t
  | depth + 1, .var v, t =>
    match t.get? v with
    | none => t
    | some b =>
      let t := t.dropOne v b
      match b.definition with
      | none => t
      | some d => d.operands.foldl (fun t s => releaseWithin depth s t) t
  | _ + 1, _, t => t

/-- One occurrence of a symbol less. -/
def release (t : Bindings) (s : Symbol) : Bindings := releaseWithin t.chainBound s t

/-- One occurrence of a symbol less, where what it stood for has moved back into the formula. -/
def expand (t : Bindings) (s : Symbol) : Bindings :=
  match s.var? with
  | none => t
  | some v =>
    match t.get? v with
    | none => t
    | some b => t.dropOne v b

/-- The table of a formula as it was written. -/
def ofBody (body : List Symbol) : Bindings := body.foldl retain empty

def ofFormula (f : Formula) : Bindings := ofBody f.body

/-! ## New synthetic variables -/

/-- The least id from `next` on that is not in the table. -/
def freshId (t : Bindings) : Nat :=
  t.entries.foldl (fun id e => if e.1.id = id then id + 1 else id) t.next

/-- Sets an unused synthetic variable aside. -/
def fresh (t : Bindings) : Var × Bindings := (⟨t.freshId⟩, { t with next := t.freshId + 1 })

/-- Enters a new synthetic variable with one occurrence. The operands keep their counts, since their
occurrences are now inside the new variable. -/
def define (t : Bindings) (d : Definition) : Var × Bindings :=
  let (v, t) := t.fresh
  (v, t.put v ⟨1, some d⟩)

/-! ## Checks -/

/-- Every definition speaks only of constants and of variables in the table with smaller ids, and no
synthetic variable is without one. -/
def isWellFounded (t : Bindings) : Bool :=
  t.entries.all fun (v, b) =>
    match b.definition with
    | none => !v.isSynthetic
    | some d => d.operands.all fun
      | .var w => decide (w.id < v.id) && t.contains w
      | s => s.isConstant

/-- A symbol's variable and all that it stands for, `depth` definitions deep, each as often as it
occurs. -/
def occurrencesWithin (t : Bindings) : Nat → Symbol → List Var
  | 0, _ => []
  | depth + 1, .var v =>
    v :: match t.definition? v with
      | none => []
      | some d => d.operands.flatMap (occurrencesWithin t depth)
  | _ + 1, _ => []

/-- Every occurrence of a variable in a body, directly or through definitions. -/
def occurrences (t : Bindings) (body : List Symbol) : List Var :=
  body.flatMap (t.occurrencesWithin t.chainBound)

/-- Adds one to the count of a variable in an ordered list of counts. -/
def tally (v : Var) : List (Var × Nat) → List (Var × Nat)
  | [] => [(v, 1)]
  | (w, n) :: rest =>
    if w = v then (w, n + 1) :: rest
    else if v.id < w.id then (v, 1) :: (w, n) :: rest
    else (w, n) :: tally v rest

/-- The counts in the table are those of the body, counted afresh through the definitions. -/
def isConsistentWith (t : Bindings) (body : List Symbol) : Bool :=
  t.counts == (t.occurrences body).foldl (fun counts v => tally v counts) []

/-! ## Values -/

/-- The value of a symbol, read through at most `depth` definitions. -/
def valueWithin (t : Bindings) (bits : Nat) : Nat → Symbol → Option Bool
  | 0, _ => none
  | _ + 1, .fls => some false
  | _ + 1, .tru => some true
  | depth + 1, .var v =>
    match v.bit? with
    | some bit => some (bits.testBit bit)
    | none =>
      match t.definition? v with
      | none => none
      | some (.neg a) => (valueWithin t bits depth a).map (!·)
      | some (.disj a b) =>
        (valueWithin t bits depth a).bind fun x =>
          (valueWithin t bits depth b).map fun y => x || y
      | some (.conj a b) =>
        (valueWithin t bits depth a).bind fun x =>
          (valueWithin t bits depth b).map fun y => x && y
  | _ + 1, _ => none

/-- The value of a body whose synthetic variables are read through their definitions. -/
def evaluate (t : Bindings) (body : List Symbol) (bits : Nat) : Option Bool :=
  Body.value? (fun v => t.valueWithin bits t.chainBound (.var v)) body

end Bindings

end LawProof
