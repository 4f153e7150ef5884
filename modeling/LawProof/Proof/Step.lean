import LawProof.Law

/-!
# Proofs

A proof is a list of steps, each a law applied at a position. Its text is `law@position, …`.
-/

namespace LawProof

structure Step where
  law : Law
  position : Nat
deriving DecidableEq, Repr

abbrev Proof := List Step

/-- Why a text is not a proof step. -/
inductive StepError where
  | missingSeparator (text : String)
  | unknownLaw (cause : NameError)
  | invalidPosition (text : String)
deriving DecidableEq, Repr

namespace StepError

def message : StepError → String
  | .missingSeparator text => s!"proof step '{text}' is not of the form law@position"
  | .unknownLaw cause => cause.message
  | .invalidPosition text => s!"invalid position '{text}' in proof step"

end StepError

namespace Step

def text (s : Step) : String := s.law.name ++ "@" ++ toString s.position

/-- Reads `law@position`, the law by index or by name. -/
def read (cs : List Char) : Except StepError Step :=
  let cs := Text.trim cs
  match cs.dropWhile (· ≠ '@') with
  | [] => .error (.missingSeparator (String.ofList cs))
  | _ :: position =>
    match Law.read (cs.takeWhile (· ≠ '@')) with
    | .error e => .error (.unknownLaw e)
    | .ok law =>
      match Text.natural? Text.wordBound (Text.trim position) with
      | none => .error (.invalidPosition (String.ofList position))
      | some n => .ok ⟨law, n⟩

end Step

namespace Proof

def text (p : Proof) : String := ", ".intercalate (p.map Step.text)

/-- Steps as pairs of numbers, as in `\x7b\x7b6, 0\x7d\x7d`. -/
def codes (p : Proof) : String :=
  let pair (s : Step) := "\x7b" ++ toString s.law.index ++ ", " ++ toString s.position ++ "\x7d"
  "\x7b" ++ ", ".intercalate (p.map pair) ++ "\x7d"

/-- Steps in words, as in `complement law at 0`. -/
def describe (p : Proof) : String :=
  ", ".intercalate (p.map fun s => s.law.description ++ " at " ++ toString s.position)

/-- What separates the steps of a proof. -/
def isSeparator (c : Char) : Bool := c == ',' || Text.isBlank c

/-- Reads all steps of a list of texts, or reports the first that is none. -/
def readAll : List (List Char) → Except StepError Proof
  | [] => .ok []
  | t :: rest =>
    match Step.read t with
    | .error e => .error e
    | .ok s => (readAll rest).map (s :: ·)

/-- Reads steps separated by commas and blanks. -/
def read (text : String) : Except StepError Proof := readAll (Text.fields isSeparator text.toList)

end Proof

end LawProof
