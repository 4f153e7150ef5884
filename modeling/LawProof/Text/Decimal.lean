/-!
# Decimal numbers

Reading numbers written with ASCII digits. A sign may stand in front; nothing else may.
-/

namespace LawProof.Text

/-- The value of the digits, read after `acc`. -/
def digitsFrom? : Nat → List Char → Option Nat
  | acc, [] => some acc
  | acc, c :: cs => if c.isDigit then digitsFrom? (10 * acc + (c.toNat - 48)) cs else none

/-- The value of a text of one or more digits. -/
def digits? (cs : List Char) : Option Nat :=
  if cs.isEmpty then none else digitsFrom? 0 cs

/-- A number below `bound`, with an optional `+` in front. -/
def natural? (bound : Nat) (cs : List Char) : Option Nat :=
  (match cs with
    | '+' :: rest => digits? rest
    | _ => digits? cs).filter (· < bound)

/-- A number from `-bound` up to `bound - 1`, with an optional sign in front. -/
def integer? (bound : Nat) (cs : List Char) : Option Int :=
  (match cs with
    | '-' :: rest => (digits? rest).map (fun n => -(n : Int))
    | '+' :: rest => (digits? rest).map (fun n => (n : Int))
    | _ => (digits? cs).map (fun n => (n : Int))).filter
      (fun i => -(bound : Int) ≤ i && i < (bound : Int))

/-- Positions, lengths and indices are below this. -/
def wordBound : Nat := Nat.pow 2 64

end LawProof.Text
