import LawProof.Name
import LawProof.Text.Blank
import LawProof.Text.Decimal

/-!
# Laws

The eleven laws of Boolean algebra that a proof step can use, in the order of their indices.
-/

namespace LawProof

inductive Law where
  /-- Or with false: `+ a F = a`. -/
  | identityOr
  /-- And with true: `* a T = a`. -/
  | identityAnd
  /-- Or with itself: `+ a a = a`. -/
  | idempotentOr
  /-- And with itself: `* a a = a`. -/
  | idempotentAnd
  /-- Operands change places, or a negated constant is worked out. -/
  | commutative
  /-- Associativity, distributivity, De Morgan and double negation. -/
  | associative
  /-- With its negation: `+ a - a = T` and `* a - a = F`. -/
  | complement
  /-- With the stronger constant: `+ a T = T` and `* a F = F`. -/
  | domination
  /-- Or with a part of itself: `+ a * a b = a`. -/
  | absorptionOr
  /-- And with more than itself: `* a + a b = a`. -/
  | absorptionAnd
  /-- A part of the formula gets a synthetic variable as its name, or the name is spelled out. -/
  | substitution
deriving DecidableEq, Repr

namespace Law

def all : List Law :=
  [.identityOr, .identityAnd, .idempotentOr, .idempotentAnd, .commutative, .associative,
    .complement, .domination, .absorptionOr, .absorptionAnd, .substitution]

def index : Law → Nat
  | .identityOr => 0
  | .identityAnd => 1
  | .idempotentOr => 2
  | .idempotentAnd => 3
  | .commutative => 4
  | .associative => 5
  | .complement => 6
  | .domination => 7
  | .absorptionOr => 8
  | .absorptionAnd => 9
  | .substitution => 10

def ofIndex? : Nat → Option Law
  | 0 => some .identityOr
  | 1 => some .identityAnd
  | 2 => some .idempotentOr
  | 3 => some .idempotentAnd
  | 4 => some .commutative
  | 5 => some .associative
  | 6 => some .complement
  | 7 => some .domination
  | 8 => some .absorptionOr
  | 9 => some .absorptionAnd
  | 10 => some .substitution
  | _ => none

theorem ofIndex?_index (law : Law) : ofIndex? law.index = some law := by cases law <;> rfl

theorem index_lt (law : Law) : law.index < lawCount := by cases law <;> decide

def name : Law → String
  | .identityOr => "identity-or"
  | .identityAnd => "identity-and"
  | .idempotentOr => "idempotent-or"
  | .idempotentAnd => "idempotent-and"
  | .commutative => "commutative"
  | .associative => "associative"
  | .complement => "complement"
  | .domination => "domination"
  | .absorptionOr => "absorption-or"
  | .absorptionAnd => "absorption-and"
  | .substitution => "substitution"

/-- The long name used in reports. -/
def description : Law → String
  | .identityOr => "identity law in OR form"
  | .identityAnd => "identity law in AND form"
  | .idempotentOr => "idempotent law in OR form"
  | .idempotentAnd => "idempotent law in AND form"
  | .commutative => "commutative law or negation"
  | .associative => "associative law, distributive law, De Morgan's law or double negation"
  | .complement => "complement law"
  | .domination => "domination law"
  | .absorptionOr => "absorption law in OR form"
  | .absorptionAnd => "absorption law in AND form"
  | .substitution => "substitution"

/-- The laws by name; some names are for one of the equations a law stands for. -/
def ofName? (name : String) : Option Law :=
  match name with
  | "identity-or" => some .identityOr
  | "identity-and" => some .identityAnd
  | "idempotent-or" => some .idempotentOr
  | "idempotent-and" => some .idempotentAnd
  | "commutative" | "negation" => some .commutative
  | "associative" | "distributive" | "de-morgan" | "double-negation" => some .associative
  | "complement" => some .complement
  | "domination" => some .domination
  | "absorption-or" => some .absorptionOr
  | "absorption-and" => some .absorptionAnd
  | "substitution" => some .substitution
  | _ => none

/-- Lower case, with `_` for `-`: how a name is compared. -/
def plainName (cs : List Char) : List Char :=
  (Text.lower cs).map fun c => if c = '_' then '-' else c

/-- Reads a law by index or by name. -/
def read (cs : List Char) : Except NameError Law :=
  let cs := Text.trim cs
  match Text.natural? Text.wordBound cs with
  | some index =>
    match ofIndex? index with
    | some law => .ok law
    | none => .error (.lawIndex index)
  | none =>
    match ofName? (String.ofList (plainName cs)) with
    | some law => .ok law
    | none => .error (.law (String.ofList cs))

end Law

end LawProof
