import LawProof.Text.Decimal

/-!
# The words of the command line

Which commands there are, and which arguments and options each of them takes.
-/

namespace LawProof.CommandLine

inductive Opt where
  | verbose
  | help
  | version
  | goal
  | prove
  | maxLength
  | algorithm
  | workers
  | timeout
  | slack
  | positionLimit
deriving DecidableEq, Repr

namespace Opt

def long : Opt → String
  | .verbose => "verbose"
  | .help => "help"
  | .version => "version"
  | .goal => "goal"
  | .prove => "prove"
  | .maxLength => "max-length"
  | .algorithm => "algorithm"
  | .workers => "workers"
  | .timeout => "timeout"
  | .slack => "slack"
  | .positionLimit => "position-limit"

def short? : Opt → Option Char
  | .verbose => some 'v'
  | .help => some 'h'
  | .version => some 'V'
  | .maxLength => some 'm'
  | .workers => some 'j'
  | _ => none

/-- Whether the option is followed by a value; the others are switches. -/
def takesValue : Opt → Bool
  | .verbose | .help | .version | .prove => false
  | _ => true

/-- The options that every command with a search takes. -/
def search : List Opt := [.maxLength, .algorithm, .workers, .timeout, .slack, .positionLimit]

end Opt

inductive Argument where
  | formula
  | proof
  | symbols
  | clauses
deriving DecidableEq, Repr

namespace Argument

/-- Formulas and clauses often start with a minus sign. -/
def allowsHyphen : Argument → Bool
  | .formula | .clauses => true
  | .proof | .symbols => false

def accepts (a : Argument) (value : List Char) : Bool :=
  match a with
  | .symbols => (Text.natural? Text.wordBound value).isSome
  | _ => true

end Argument

/-- The options and the arguments that may stand in one part of the command line. -/
structure Form where
  options : List Opt
  arguments : List Argument
deriving Repr

namespace Form

def long? (form : Form) (name : List Char) : Option Opt :=
  form.options.find? fun o => o.long.toList == name

def short? (form : Form) (letter : Char) : Option Opt :=
  form.options.find? fun o => o.short? == some letter

end Form

inductive Verb where
  | classify
  | prove
  | check
  | census
  | cnf
deriving DecidableEq, Repr

namespace Verb

def all : List Verb := [.classify, .prove, .check, .census, .cnf]

def name : Verb → String
  | .classify => "classify"
  | .prove => "prove"
  | .check => "check"
  | .census => "census"
  | .cnf => "cnf"

def ofName? (name : List Char) : Option Verb := all.find? fun v => v.name.toList == name

def arguments : Verb → List Argument
  | .classify | .prove => [.formula]
  | .check => [.formula, .proof]
  | .census => [.symbols]
  | .cnf => [.clauses]

def options : Verb → List Opt
  | .classify => [.goal]
  | .check => [.goal, .slack]
  | .prove | .census => .goal :: Opt.search
  | .cnf => .prove :: .goal :: Opt.search

/-- What may follow the name of the command. -/
def form (v : Verb) : Form := ⟨.verbose :: .help :: v.options, v.arguments⟩

end Verb

/-- What may stand in front of the name of a command. -/
def Form.top : Form := ⟨[.verbose, .help, .version], []⟩

/-- How one word of the command line looks. -/
inductive Word where
  | long (name : List Char) (value? : Option (List Char))
  | short (letters : List Char)
  | plain

namespace Word

/-- Cuts at the first equals sign. -/
def cut (cs : List Char) : List Char × Option (List Char) :=
  match cs.dropWhile (· != '=') with
  | [] => (cs, none)
  | _ :: value => (cs.takeWhile (· != '='), some value)

/-- One hyphen starts a group of letters, two start a name; hyphens alone are plain. -/
def read : List Char → Word
  | ['-', '-'] => .plain
  | '-' :: '-' :: cs => let (name, value?) := cut cs; .long name value?
  | ['-'] => .plain
  | '-' :: cs => .short cs
  | _ => .plain

end Word

/-- Ends the options: all that follows are arguments. -/
def escape : List Char := ['-', '-']

end LawProof.CommandLine
