import TermLogic.Argument
import TermLogic.Formula.Parser

/-!
# Command line

Decides a formula, or an argument if premises are given, and prints the verdict.

* `CommandLine.Settings`: what the arguments ask for.
* `CommandLine.read`: the settings that a list of arguments spells. Arguments take effect from left
  to right, so that a fault stands before a later request for the version and behind an earlier one.
* `CommandLine.prepare`: the argument and configuration that settings describe, or why there are
  none.
* `CommandLine.run`: the whole program, from arguments to what it prints.
-/

namespace TermLogic.CommandLine

/-- The options that take a value. -/
inductive ValueOption where
  /-- `-p`, `--premise`: a premise; may be given several times. -/
  | premise
  /-- `-c`, `--conclusion`: the conclusion, in place of the formula. -/
  | conclusion
  /-- `--max-iterations`: the bound on rounds. -/
  | bound
deriving DecidableEq

/-- What the arguments ask for. -/
structure Settings where
  /-- The texts of the premises, in order. -/
  premises : List String := []
  /-- The text of the conclusion, given by its option. -/
  conclusion : Option String := none
  /-- The text of the formula, given on its own. -/
  formula : Option String := none
  /-- The bound on rounds. -/
  bound : Option Nat := none
  /-- Whether to print the trace. -/
  trace : Bool := false
deriving DecidableEq

/-- Why the reading of arguments stops early. -/
inductive Stop where
  /-- The arguments are not understood. -/
  | usage
  /-- The version is asked for. -/
  | version
deriving DecidableEq

/-! ### Values

A value that cannot be read, or is given twice, ends the reading at once; nothing that comes later
could put it right. -/

/-- One more than the greatest bound that can be given: the number of words of 64 bits. -/
def boundLimit : Nat := 0x10000000000000000

/-- The number that a non-empty string of ASCII digits spells. -/
def readDigits? (digits : List Char) : Option Nat :=
  if digits.isEmpty || !digits.all Char.isDigit then none
  else some (digits.foldl (fun n c => 10 * n + (c.toNat - '0'.toNat)) 0)

/-- Reads a bound: digits, perhaps behind a plus sign, for a number below the limit. -/
def readBound? (text : String) : Option Nat :=
  let digits :=
    match text.toList with
    | '+' :: digits => digits
    | digits => digits
  (readDigits? digits).filter (· < boundLimit)

/-- Takes the value of an option. All but premises can be given once only. -/
def Settings.take (s : Settings) (value : String) : ValueOption → Except Stop Settings
  | .premise => .ok { s with premises := s.premises ++ [value] }
  | .conclusion =>
    match s.conclusion with
    | none => .ok { s with conclusion := some value }
    | some _ => .error .usage
  | .bound =>
    match s.bound, readBound? value with
    | none, some bound => .ok { s with bound := some bound }
    | _, _ => .error .usage

/-- Takes the formula, which can be given once only. -/
def Settings.takeFormula (s : Settings) (text : String) : Except Stop Settings :=
  match s.formula with
  | none => .ok { s with formula := some text }
  | some _ => .error .usage

/-- Takes the request for the trace, which can be made once only. -/
def Settings.takeTrace (s : Settings) : Except Stop Settings :=
  if s.trace then .error .usage else .ok { s with trace := true }

/-! ### Arguments

Arguments are read one at a time. An option that takes the next argument as its value is carried
along until that comes. -/

/-- Where the reading of arguments stands. -/
structure Progress where
  /-- The settings so far. -/
  settings : Settings := {}
  /-- The option whose value comes next. -/
  awaiting : Option ValueOption := none
  /-- Whether all that follows is formulas, whatever it begins with. -/
  literal : Bool := false

/-- The option with a value that a letter stands for. -/
def ValueOption.ofLetter? : Char → Option ValueOption
  | 'p' => some .premise
  | 'c' => some .conclusion
  | _ => none

/-- The option with a value that a word stands for. -/
def ValueOption.ofWord? : String → Option ValueOption
  | "premise" => some .premise
  | "conclusion" => some .conclusion
  | "max-iterations" => some .bound
  | _ => none

/-- Reads the letters of an argument that begins with one dash. An option with a value takes the
rest of the argument, less one equals sign, or else the next argument. -/
def readLetters (s : Settings) : List Char → Except Stop Progress
  | [] => .ok { settings := s }
  | 't' :: rest => do
    let s ← s.takeTrace
    readLetters s rest
  | 'V' :: _ => .error .version
  | letter :: rest =>
    match ValueOption.ofLetter? letter, rest with
    | none, _ => .error .usage
    | some option, [] => .ok { settings := s, awaiting := some option }
    | some option, '=' :: value => do
      let s ← s.take (String.ofList value) option
      return { settings := s }
    | some option, value => do
      let s ← s.take (String.ofList value) option
      return { settings := s }

/-- Reads the word behind two dashes, with the value behind its equals sign if there is one. -/
def readWord (s : Settings) (word : String) (value : Option String) : Except Stop Progress :=
  match ValueOption.ofWord? word, value with
  | some option, some value => do
    let s ← s.take value option
    return { settings := s }
  | some option, none => .ok { settings := s, awaiting := some option }
  | none, some _ => .error .usage
  | none, none =>
    match word with
    | "trace" => do
      let s ← s.takeTrace
      return { settings := s }
    | "version" => .error .version
    | _ => .error .usage

/-- Reads one argument. -/
def Progress.next (p : Progress) (text : String) : Except Stop Progress :=
  match p.literal, p.awaiting, text.toList with
  | true, _, _ => do
    let s ← p.settings.takeFormula text
    return { p with settings := s }
  | false, some _, '-' :: _ :: _ => .error .usage
  | false, some option, _ => do
    let s ← p.settings.take text option
    return { settings := s }
  | false, none, ['-', '-'] => .ok { p with literal := true }
  | false, none, '-' :: '-' :: rest =>
    let word := rest.takeWhile (· ≠ '=')
    let value := (rest.drop word.length).tail?
    readWord p.settings (String.ofList word) (value.map String.ofList)
  | false, none, '-' :: letter :: rest => readLetters p.settings (letter :: rest)
  | false, none, _ => do
    let s ← p.settings.takeFormula text
    return { p with settings := s }

/-- Reads all arguments, and the bound from the environment if no argument gives it. The conclusion
cannot be given both ways. -/
def read (arguments : List String) (environment : Option String) : Except Stop Settings := do
  let p ← arguments.foldlM Progress.next {}
  let s := p.settings
  if p.awaiting.isSome || (s.conclusion.isSome && s.formula.isSome) then .error .usage
  else
    match s.bound, environment with
    | none, some text =>
      match readBound? text with
      | some bound => .ok { s with bound := some bound }
      | none => .error .usage
    | _, _ => .ok s

/-! ### The program

What the program prints, and the code it exits with, is a function of its arguments and of one
environment variable. -/

/-- What the program prints, and the code it exits with. -/
structure Exit where
  /-- The exit code: 0 for a verdict, 1 for a refused request, 2 for arguments not understood. -/
  code : Nat
  /-- What goes to the standard output. -/
  output : String
  /-- What goes to the standard error output. -/
  message : String
deriving DecidableEq

/-- Why a request that was understood is refused. -/
inductive Refusal where
  /-- A premise is not a formula. -/
  | premise (text : String) (fault : SyntaxError)
  /-- The conclusion is not a formula. -/
  | conclusion (text : String) (fault : SyntaxError)
  /-- There is no conclusion. -/
  | noConclusion
  /-- The configuration is refused. -/
  | config (fault : ConfigError)
deriving DecidableEq

/-- A text that is not a formula, and why. -/
def Refusal.describeFault (role text : String) (fault : SyntaxError) : String :=
  "invalid " ++ role ++ " " ++ Text.quoted text.toList ++ "\n\nCaused by:\n    " ++ fault.message

/-- The message shown for a refused request. -/
def Refusal.message : Refusal → String
  | premise text fault => describeFault "premise" text fault
  | conclusion text fault => describeFault "formula" text fault
  | noConclusion => "a formula or --conclusion is required"
  | config fault => fault.message

/-- The premises of the settings. -/
def Settings.readPremises (s : Settings) : Except Refusal (List Formula) :=
  s.premises.mapM fun text => (Formula.parse text).mapError (.premise text)

/-- The conclusion of the settings. -/
def Settings.readConclusion (s : Settings) : Except Refusal Formula :=
  match s.conclusion.or s.formula with
  | some text => (Formula.parse text).mapError (.conclusion text)
  | none => .error .noConclusion

/-- The configuration of the settings. -/
def Settings.readConfig (s : Settings) : Except Refusal Config :=
  (Config.ofBound (s.bound.getD Config.defaultBound)).mapError .config

/-- The argument and the configuration that settings describe. Premises are looked at first, then
the conclusion, then the bound. -/
def prepare (s : Settings) : Except Refusal (Argument × Config) := do
  let premises ← s.readPremises
  let conclusion ← s.readConclusion
  let config ← s.readConfig
  return (⟨premises, conclusion⟩, config)

/-- The lines that show an argument: numbered premises and the conclusion behind a turnstile, or the
conclusion alone if there are no premises. -/
def showArgument (argument : Argument) : List String :=
  (argument.premises.mapIdx fun i premise => (i + 1).repr ++ ". " ++ premise.render) ++
    [if argument.premises.isEmpty then argument.conclusion.render
      else "|- " ++ argument.conclusion.render]

/-- The line that shows a verdict. -/
def showOutcome (config : Config) : Outcome → String
  | .closed => "valid"
  | .saturated branch => "not valid (branch b" ++ branch.repr ++ " stays open)"
  | .exhausted active =>
    "not valid (bound of " ++ config.bound.repr ++ " rounds exhausted with " ++ active.repr ++
      " open)"

/-- All that is printed for an argument. -/
def report (config : Config) (argument : Argument) (trace : Bool) : String :=
  let report := argument.run config (if trace then some .empty else none)
  String.join ((showArgument argument).map (· ++ "\n")) ++
    (report.tableau.trace.map Trace.render).getD "" ++ showOutcome config report.outcome ++ "\n"

/-- The name and version that the program prints when asked. -/
def version : String := "subatomic 0.1.0\n"

/-- What is printed when the arguments are not understood. -/
def usage : String :=
  "usage: subatomic [-t] [-p PREMISE]... [--max-iterations N] (FORMULA | -c CONCLUSION)\n"

/-- The program: what it prints for its arguments and the value of the environment variable that
gives the bound. -/
def run (arguments : List String) (environment : Option String) : Exit :=
  match read arguments environment with
  | .error .usage => ⟨2, "", usage⟩
  | .error .version => ⟨0, version, ""⟩
  | .ok settings =>
    match prepare settings with
    | .error refusal => ⟨1, "", "Error: " ++ refusal.message ++ "\n"⟩
    | .ok (argument, config) => ⟨0, report config argument settings.trace, ""⟩

end TermLogic.CommandLine
