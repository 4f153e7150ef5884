import LawProof.CommandLine.Grammar
import LawProof.Search.Config

/-!
# Requests

The command line is read word by word. Reading stops at the first word that does not fit, and also
at a switch that asks for the help text or for the version.
-/

namespace LawProof.CommandLine

/-- Why there is nothing to run. -/
inductive Stop where
  | usage
  | help
  | version
deriving DecidableEq, Repr

/-- What the options ask for. -/
structure Settings where
  config : Config := {}
  pool : PoolConfig := {}
  goal? : Option Goal := none
  prove : Bool := false
deriving DecidableEq, Repr

namespace Settings

def goalNamed? (name : List Char) : Option Goal :=
  [Goal.tautology, .contradiction].find? fun g => g.text.toList == name

def algorithmNamed? (name : List Char) : Option Algorithm :=
  [Algorithm.enumerative, .parallel].find? fun a => a.text.toList == name

def number? (value : List Char) : Option Nat := Text.natural? Text.wordBound value

/-- Gives an option its value. -/
def set? (s : Settings) (o : Opt) (value : List Char) : Option Settings :=
  match o with
  | .goal => (goalNamed? value).map fun g => { s with goal? := some g }
  | .algorithm =>
    (algorithmNamed? value).map fun a => { s with config := { s.config with algorithm := a } }
  | .maxLength => (number? value).map fun n => { s with config := { s.config with maxLength := n } }
  | .slack => (number? value).map fun n => { s with config := { s.config with slack := n } }
  | .positionLimit =>
    (number? value).map fun n => { s with config := { s.config with positionLimit := some n } }
  | .timeout =>
    (number? value).map fun n =>
      { s with config := { s.config with timeout := some (.ofSeconds n) } }
  | .workers => (number? value).map fun n => { s with pool := s.pool.withWorkers n }
  | .verbose | .help | .version | .prove => none

/-- Turns a switch on. -/
def switch (s : Settings) (o : Opt) : Except Stop Settings :=
  match o with
  | .verbose => .ok { s with config := { s.config with verbose := true } }
  | .prove => .ok { s with prove := true }
  | .help => .error .help
  | .version => .error .version
  | _ => .error .usage

end Settings

/-! ## Reading -/

/-- How far one part of the command line has been read. -/
structure Reading where
  settings : Settings
  /-- The options given so far: none may be given twice. -/
  given : List Opt := []
  /-- The option whose value comes next. -/
  awaited? : Option Opt := none
  /-- The arguments so far. -/
  arguments : List (List Char) := []

namespace Reading

def setOption (r : Reading) (o : Opt) (value : List Char) : Except Stop Reading :=
  if r.given.contains o then .error .usage
  else
    match r.settings.set? o value with
    | none => .error .usage
    | some settings => .ok { r with settings, given := o :: r.given, awaited? := none }

def switchOn (r : Reading) (o : Opt) : Except Stop Reading :=
  if r.given.contains o then .error .usage
  else
    match r.settings.switch o with
    | .error e => .error e
    | .ok settings => .ok { r with settings, given := o :: r.given }

def nextArgument? (form : Form) (r : Reading) : Option Argument :=
  form.arguments[r.arguments.length]?

/-- Takes a word as the value that is awaited, or else as the next argument. -/
def value (form : Form) (r : Reading) (cs : List Char) : Except Stop Reading :=
  match r.awaited? with
  | some o => r.setOption o cs
  | none =>
    match r.nextArgument? form with
    | none => .error .usage
    | some a =>
      if a.accepts cs then .ok { r with arguments := r.arguments ++ [cs] } else .error .usage

/-- Takes a group of letters. What follows the letter of an option with a value is that value. -/
def letters (form : Form) : Reading → List Char → Except Stop Reading
  | r, [] => .ok r
  | r, c :: rest =>
    match form.short? c with
    | none => .error .usage
    | some o =>
      if o.takesValue then
        match rest with
        | [] => .ok { r with awaited? := some o }
        | '=' :: cs => r.setOption o cs
        | cs => r.setOption o cs
      else
        match r.switchOn o with
        | .error e => .error e
        | .ok r => letters form r rest

def named (r : Reading) (o : Opt) (value? : Option (List Char)) : Except Stop Reading :=
  match o.takesValue, value? with
  | true, some cs => r.setOption o cs
  | true, none => .ok { r with awaited? := some o }
  | false, some _ => .error .usage
  | false, none => r.switchOn o

/-- Takes one word. Where an argument may start with a hyphen, a word is that argument unless the
name, or every one of the letters, is known. -/
def word (form : Form) (r : Reading) (cs : List Char) : Except Stop Reading :=
  let hyphen := (r.nextArgument? form).any Argument.allowsHyphen
  match Word.read cs with
  | .plain => r.value form cs
  | .long name value? =>
    match form.long? name with
    | some o => if r.awaited?.isSome then .error .usage else r.named o value?
    | none => if hyphen then r.value form cs else .error .usage
  | .short letters =>
    if hyphen && letters.any (fun c => (form.short? c).isNone) then r.value form cs
    else if r.awaited?.isSome then .error .usage
    else r.letters form letters

def values (form : Form) : Reading → List (List Char) → Except Stop Reading
  | r, [] => .ok r
  | r, cs :: rest =>
    match r.value form cs with
    | .error e => .error e
    | .ok r => values form r rest

def words (form : Form) : Reading → List (List Char) → Except Stop Reading
  | r, [] => if r.awaited?.isSome then .error .usage else .ok r
  | r, cs :: rest =>
    if cs = escape then if r.awaited?.isSome then .error .usage else r.values form rest
    else
      match r.word form cs with
      | .error e => .error e
      | .ok r => words form r rest

end Reading

/-! ## Requests -/

inductive Command where
  | classify (formula : String)
  | prove (formula : String)
  | check (formula proof : String)
  | census (symbols : Nat)
  | cnf (clauses : String)
deriving DecidableEq, Repr

structure Request where
  command : Command
  settings : Settings
deriving DecidableEq, Repr

namespace Request

def command? : Verb → List (List Char) → Option Command
  | .classify, [f] => some (.classify (String.ofList f))
  | .prove, [f] => some (.prove (String.ofList f))
  | .check, [f, p] => some (.check (String.ofList f) (String.ofList p))
  | .census, [n] => (Settings.number? n).map .census
  | .cnf, [cs] => some (.cnf (String.ofList cs))
  | _, _ => none

/-- Reads what follows the name of a command. -/
def readVerb (v : Verb) (settings : Settings) (rest : List (List Char)) : Except Stop Request :=
  match Reading.words v.form { settings } rest with
  | .error e => .error e
  | .ok r =>
    match command? v r.arguments with
    | none => .error .usage
    | some command => .ok ⟨command, r.settings⟩

/-- The word that asks for help, with or without the name of a command. -/
def helpWord : List Char := "help".toList

def readHelp : List (List Char) → Stop
  | [] => .help
  | [name] => if name = helpWord ∨ (Verb.ofName? name).isSome then .help else .usage
  | _ => .usage

/-- Reads switches up to the name of a command, and then the rest. -/
def readTop : Reading → List (List Char) → Except Stop Request
  | _, [] => .error .usage
  | r, cs :: rest =>
    match Verb.ofName? cs with
    | some v => readVerb v r.settings rest
    | none =>
      if cs = helpWord then .error (readHelp rest)
      else if cs = escape then .error .usage
      else
        match r.word .top cs with
        | .error e => .error e
        | .ok r => readTop r rest

def read (args : List String) : Except Stop Request :=
  readTop { settings := {} } (args.map String.toList)

end Request

end LawProof.CommandLine
