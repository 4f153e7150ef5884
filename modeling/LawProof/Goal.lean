import LawProof.Name
import LawProof.Symbol
import LawProof.Text.Blank

/-!
# Goals

The constant that a proof has to reach.
-/

namespace LawProof

inductive Goal where
  | tautology
  | contradiction
deriving DecidableEq, Repr

namespace Goal

def value : Goal → Bool
  | .tautology => true
  | .contradiction => false

/-- The one symbol that a finished proof leaves. -/
def symbol (g : Goal) : Symbol := .constant g.value

def text : Goal → String
  | .tautology => "tautology"
  | .contradiction => "contradiction"

/-- Reads a goal by name, in any case. -/
def read (name : String) : Except NameError Goal :=
  match String.ofList (Text.lower name.toList) with
  | "tautology" | "taut" | "true" | "t" => .ok .tautology
  | "contradiction" | "contra" | "false" | "f" => .ok .contradiction
  | _ => .error (.goal name)

end Goal

end LawProof
