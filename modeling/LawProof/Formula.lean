import LawProof.Body
import LawProof.Goal

/-!
# Formulas

A formula is written on a tape of fixed capacity: its body fills the cells below `stop`, the end
marker stands at `stop`, and the cells behind it are the room into which the laws can grow the body.
Those cells may hold anything and are never read as part of the formula.
-/

namespace LawProof

structure Formula where
  cells : List Symbol
  stop : Nat
  /-- How many input variables the formula was built with. -/
  vars : Nat
  stop_lt : stop < cells.length
deriving DecidableEq, Repr

namespace Formula

/-- The slack of a formula when none is asked for. -/
def defaultSlack : Nat := 7

def body (f : Formula) : List Symbol := f.cells.take f.stop

def capacity (f : Formula) : Nat := f.cells.length

/-- How many symbols the body can still grow by. -/
def slack (f : Formula) : Nat := f.capacity - f.stop - 1

def hasRoom (f : Formula) (growth : Nat) : Bool := decide (f.stop + growth < f.capacity)

/-! ## Building -/

/-- The body at the start of a fresh tape with `slack` free cells. -/
def ofParts (body : List Symbol) (slack vars : Nat) : Formula where
  cells := body ++ List.replicate (slack + 1) .stop
  stop := body.length
  vars := vars
  stop_lt := by simp

/-- The first symbol, from the left, that no written formula may hold. -/
def forbidden? : Nat → List Symbol → Option FormulaError
  | _, [] => none
  | position, .stop :: _ => some (.extraTerminator position)
  | position, .var v :: rest =>
    if v.isSynthetic then some (.syntheticInput (v.id - maxVariables))
    else forbidden? (position + 1) rest
  | position, _ :: rest => forbidden? (position + 1) rest

/-- A formula with the given body, if the slack and the body will do. -/
def ofBody (body : List Symbol) (slack : Nat) : Except FormulaError Formula :=
  if slack < minSlack then .error (.insufficientSlack slack)
  else
    match forbidden? 0 body with
    | some e => .error e
    | none =>
      match Body.checkSyntax body with
      | .error e => .error e
      | .ok () =>
        match Body.countVariables body with
        | .error e => .error e
        | .ok vars => .ok (ofParts body slack vars)

/-- A formula from symbols that end with the marker and use as many variables as declared. -/
def ofSymbols (symbols : List Symbol) (declared slack : Nat) : Except FormulaError Formula :=
  if symbols.getLast? = some .stop then
    match ofBody symbols.dropLast slack with
    | .error e => .error e
    | .ok f =>
      if f.vars = declared then .ok f else .error (.variableCount declared f.vars)
  else .error .missingTerminator

/-! ## The tape -/

def get? (f : Formula) (i : Nat) : Option Symbol := f.cells[i]?

/-- What a cell holds; behind the tape there is nothing but markers. -/
def cell (f : Formula) (i : Nat) : Symbol := (f.get? i).getD .stop

def set (f : Formula) (i : Nat) (s : Symbol) : Formula where
  cells := f.cells.set i s
  stop := f.stop
  vars := f.vars
  stop_lt := by simpa using f.stop_lt

/-- Exchanges two cells. -/
def swap (f : Formula) (i j : Nat) : Formula :=
  match f.get? i, f.get? j with
  | some a, some b => (f.set i b).set j a
  | _, _ => f

/-- Moves the cells from `src` up to and including the end marker so that they start at `dst`. Every
cell that is not written over keeps its symbol. A move from behind the marker, or one that would run
off the tape, changes nothing. -/
def shift (f : Formula) (src dst : Nat) : Formula :=
  if h : src ≤ f.stop ∧ dst + (f.stop - src) < f.capacity then
    { cells := f.cells.take dst ++ (f.cells.drop src).take (f.stop + 1 - src) ++
        f.cells.drop (dst + (f.stop + 1 - src))
      stop := dst + (f.stop - src)
      vars := f.vars
      stop_lt := by
        have := f.stop_lt
        simp only [capacity] at h
        simp only [List.length_append, List.length_take, List.length_drop]
        omega }
  else f

/-- Writes symbols over the cells from `i` on. -/
def write (f : Formula) (i : Nat) (symbols : List Symbol) : Formula where
  cells := f.cells.take i ++ symbols ++ f.cells.drop (i + symbols.length)
  stop := f.stop
  vars := f.vars
  stop_lt := by
    have := f.stop_lt
    simp only [List.length_append, List.length_take, List.length_drop]
    omega

/-- Puts `symbols` in the place of the `width` symbols from `i` on: one move of what follows them,
then one write. -/
def splice (f : Formula) (i width : Nat) (symbols : List Symbol) : Formula :=
  (f.shift (i + width) (i + symbols.length)).write i symbols

/-! ## Meaning and text -/

/-- Formulas are the same when their bodies are, whatever the tapes. -/
def same (f g : Formula) : Bool := f.body == g.body

/-- A key that the same formulas share. -/
def key (f : Formula) : UInt64 := hash (f.body.map Symbol.code)

/-- The body is nothing but the goal's constant. -/
def isGoal (f : Formula) (goal : Goal) : Bool := f.body == [goal.symbol]

/-- Whether the formula holds under an assignment; a body without a value does not. -/
def holds (f : Formula) (bits : Nat) : Bool := Body.evaluate f.body bits == some true

def text (f : Formula) : String := "[" ++ " ".intercalate (f.body.map Symbol.text) ++ "]"

/-- The codes of the symbols, as in `\x7b2, 6, 1, 6\x7d`. -/
def codes (f : Formula) : String :=
  "\x7b" ++ ", ".intercalate (f.body.map fun s => toString s.code) ++ "\x7d"

end Formula

end LawProof
