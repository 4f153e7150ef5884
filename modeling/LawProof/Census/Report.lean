import LawProof.Census.Histogram
import LawProof.Search.Result

/-!
# The report of a census

What is known of each formula that matches the goal, counted by the length of its proof and by the
laws and positions of the steps.
-/

namespace LawProof

/-- A formula that matches the goal, with its proof if one was found. -/
structure Entry where
  formula : Formula
  proof? : Option Proof

structure Report where
  symbols : Nat
  goal : Goal
  maxLength : Nat
  /-- How many formulas there are, matching or not. -/
  valid : Nat
  entries : List Entry
  lengths : Histogram
  laws : Histogram
  positions : Histogram
  /-- The first entry whose proof is the longest. -/
  longest? : Option Nat

namespace Report

def new (symbols : Nat) (goal : Goal) (maxLength positions : Nat) : Report where
  symbols := symbols
  goal := goal
  maxLength := maxLength
  valid := 0
  entries := []
  lengths := .new (maxLength + 1)
  laws := .new lawCount
  positions := .new positions
  longest? := none

def longestEntry? (r : Report) : Option Entry := r.longest?.bind (r.entries[·]?)

def longestProof? (r : Report) : Option (Entry × Proof) :=
  r.longestEntry?.bind fun entry => entry.proof?.map fun p => (entry, p)

def maxProofLength (r : Report) : Nat := (r.longestProof?.map fun (_, p) => p.length).getD 0

/-- Counts the proof of the entry with the given index. -/
def count (r : Report) (index : Nat) (p : Proof) : Report :=
  { r with
    lengths := r.lengths.add p.length index
    laws := p.foldl (fun h step => h.add step.law.index index) r.laws
    positions := p.foldl (fun h step => h.add step.position index) r.positions
    longest? := if r.maxProofLength < p.length then some index else r.longest? }

/-- Adds the next formula that matches the goal. -/
def record (r : Report) (f : Formula) (outcome : Outcome) : Report :=
  let proof? := outcome.proof?
  let counted := match proof? with
    | some p => r.count r.entries.length p
    | none => r
  { counted with entries := r.entries ++ [⟨f, proof?⟩] }

/-- The formulas for which no proof was found. -/
def holdouts (r : Report) : List Formula :=
  (r.entries.filter fun entry => entry.proof?.isNone).map Entry.formula

/-! ## Text -/

def plural (r : Report) : String :=
  match r.goal with
  | .tautology => "tautologies"
  | .contradiction => "contradictions"

/-- One bin: what it counts, then the entries in it. -/
def binText (counted announced : String) (bin : List Nat) : String :=
  if bin.isEmpty then "\t" ++ counted ++ "\n\n"
  else
    "\t" ++ counted ++ announced ++ "\n" ++
    "\t" ++ String.join (bin.map fun index => s!"#{index}, ") ++ "\n\n"

def rankingText (items : List String) : String := ", ".intercalate items ++ "\n"

def formulasText : String := " in the minimal proofs of the following Boolean formulas:"

def summaryText (r : Report) : String :=
  s!"There are {r.valid} Boolean formulas with {r.symbols} symbols " ++
    "and with valid syntax and variable labeling.\n\n" ++
  s!"There are {r.entries.length} {r.plural} with {r.symbols} symbols.\n\n"

def longestText (r : Report) : String :=
  (match r.longestProof? with
    | some (entry, p) =>
      "Boolean formula with the longest proof: " ++
        entry.formula.codes ++ " = " ++ entry.formula.text ++ "\n" ++
      "Longest proof: " ++ p.codes ++ " = [" ++ p.describe ++ "]\n"
    | none => "Boolean formula with the longest proof: (none)\n") ++
  s!"Max proof length = {r.maxProofLength}\n\n"

def lengthsText (r : Report) : String :=
  "Proof Length Histogram:\n\n" ++
  String.join ((List.range' 1 r.maxLength).map fun length =>
    let bin := r.lengths.bin length
    binText s!"{bin.length} {r.plural} have a minimal proof length of {length}" ":" bin) ++
  "Most common to least common minimal proof lengths (with non-zero frequency):\n" ++
  rankingText (r.lengths.ranking.map toString) ++ "\n"

def lawsText (r : Report) : String :=
  "Histogram of Boolean Algebra Law Occurrences:\n\n" ++
  String.join (Law.all.map fun law =>
    let bin := r.laws.bin law.index
    binText s!"The {law.name} law occurred {bin.length} times" formulasText bin) ++
  "Most common to least common Boolean algebra laws (with non-zero frequency):\n" ++
  rankingText ((r.laws.ranking.filterMap Law.ofIndex?).map Law.name) ++ "\n"

def positionsText (r : Report) : String :=
  "Histogram of Proof Steps per Boolean Formula Index:\n\n" ++
  String.join ((List.range r.positions.bins.length).map fun position =>
    let bin := r.positions.bin position
    binText s!"{bin.length} proof steps occurred at Boolean formula index {position}"
      formulasText bin) ++
  "Most common to least common Boolean formula indices (with non-zero frequency):\n" ++
  rankingText (r.positions.ranking.map toString)

def holdoutsText (r : Report) : String :=
  let formulas := r.holdouts
  if formulas.isEmpty then ""
  else
    s!"\n{formulas.length} holdouts have a minimal proof length exceeding {r.maxLength}:\n" ++
    String.join (formulas.zipIdx.map fun (f, i) => s!"{i}: {f.codes} = {f.text}\n")

def text (r : Report) : String :=
  r.summaryText ++ r.longestText ++ r.lengthsText ++ r.lawsText ++ r.positionsText ++
    r.holdoutsText

end Report

end LawProof
