import LawProof.Formula
import LawProof.Text.Decimal

/-!
# Reading formulas

The text of a formula is its symbols in prefix order. Blanks, commas and square brackets may stand
anywhere between symbols and mean nothing.
-/

namespace LawProof

namespace Formula

/-- The characters that separate symbols. -/
def isFiller (c : Char) : Bool := Text.isBlank c || c == ',' || c == '[' || c == ']'

/-- The symbols that are written with one character. -/
def ofChar? : Char → Option Symbol
  | '-' => some .neg
  | '+' => some .disj
  | '*' => some .conj
  | 'F' => some .fls
  | 'T' => some .tru
  | _ => none

/-- Reads the index behind an `x` or an `s` that stands at `offset`. -/
def readVariable (letter : Char) (digits : List Char) (offset : Nat) : Except FormulaError Symbol :=
  match (Text.digits? digits).filter (· < Nat.pow 2 32) with
  | none => .error (.unknownToken (String.ofList (letter :: digits)) offset)
  | some index =>
    if letter = 's' then .error (.syntheticInput index)
    else if maxVariables ≤ index then .error (.variableOutOfRange index)
    else .ok (.x index)

/-- The symbols of a text; `offset` counts the bytes before it. -/
def tokens (offset : Nat) (cs : List Char) : Except FormulaError (List Symbol) :=
  match cs with
  | [] => .ok []
  | c :: rest =>
    if isFiller c then tokens (offset + c.utf8Size) rest
    else
      match ofChar? c with
      | some s => (tokens (offset + c.utf8Size) rest).map (s :: ·)
      | none =>
        if c = 'x' ∨ c = 's' then
          let digits := rest.takeWhile Char.isDigit
          match readVariable c digits offset with
          | .error e => .error e
          | .ok s =>
            (tokens (offset + 1 + digits.length) (rest.drop digits.length)).map (s :: ·)
        else .error (.unknownToken (String.singleton c) offset)
termination_by cs.length
decreasing_by all_goals simp_all; try omega

/-- Reads a formula onto a tape with `slack` free cells. -/
def parse (text : String) (slack : Nat) : Except FormulaError Formula :=
  match tokens 0 text.toList with
  | .error e => .error e
  | .ok [] => .error .empty
  | .ok body => ofBody body slack

end Formula

end LawProof
