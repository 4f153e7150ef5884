import LawProof.Text.Rounded

/-!
# Spans of time

How long something took, to the nanosecond, and how that is written in a summary.
-/

namespace LawProof

/-- A span of time in nanoseconds. -/
structure Span where
  nanos : Nat
deriving DecidableEq, Repr

namespace Span

def zero : Span := ⟨0⟩

/-- The units in nanoseconds. -/
def second : Nat := 1000000000

@[inherit_doc second]
def milli : Nat := 1000000

@[inherit_doc second]
def micro : Nat := 1000

def ofSeconds (s : Nat) : Span := ⟨s * second⟩

def ofMillis (ms : Nat) : Span := ⟨ms * milli⟩

/-- The span in seconds, whole seconds and the rest converted apart. -/
def toSeconds (s : Span) : Float :=
  (s.nanos / second).toUInt64.toFloat + (s.nanos % second).toUInt64.toFloat / 1e9

/-- Two decimals of the largest unit that the span fills at least once. The unit is chosen before
rounding, so `999.999` milliseconds become `1000.00ms`. -/
def text (s : Span) : String :=
  let n := s.nanos
  if second ≤ n then Text.fixed n second 2 ++ "s"
  else if milli ≤ n then Text.fixed n milli 2 ++ "ms"
  else if micro ≤ n then Text.fixed n micro 2 ++ "µs"
  else Text.fixed n 1 2 ++ "ns"

end Span

end LawProof
