import BytecodeFlow.CommandLine.Flag
import BytecodeFlow.Exploration.Explore
import BytecodeFlow.Text.Basic

namespace BytecodeFlow.Text

/-- The next row of a distance table: the distances of the prefixes of `t` to a text that ends in `x`,
from those to the same text without it. `corner` is the new distance to the left. -/
def distanceRow [BEq α] (x : α) (corner : Nat) : List Nat → List α → List Nat
  | diagonal :: above :: row, y :: t =>
    let cell :=
      if x == y then diagonal else min (min (above + 1) (corner + 1)) (diagonal + 1)
    corner :: distanceRow x cell (above :: row) t
  | _, _ => [corner]

def distance [BEq α] (s t : List α) : Nat :=
  let first := List.range (t.length + 1)
  let rows := s.foldl (fun row x => distanceRow x (row.headD 0 + 1) row t) first
  rows.getLastD 0

end BytecodeFlow.Text

namespace BytecodeFlow.CommandLine

structure Display where
  verbose : Bool := false
  json : Bool := false
  deriving DecidableEq, Repr

structure AnalyzeRequest where
  files : List String
  options : Exploration.Options
  failOnFindings : Bool
  display : Display

structure GraphRequest where
  file : String
  selector : String

inductive Command
  | help
  | version
  | analyze (request : AnalyzeRequest)
  | graph (request : GraphRequest)

inductive UsageError
  | flag (cause : FlagError)
  | unknownCommand (name : String)
  | tooFewOperands (received : Nat)
  | operandCount (received : Nat)
  | noMethod

def programName : String := "jflow"

def commandNames : List String := ["analyze", "graph", "completion"]

def resembles (name command : String) : Bool :=
  let name := Text.lower name
  Text.distance (Text.Utf8.encode name) (Text.Utf8.encode command) ≤ 2 ||
    name.toList.isPrefixOf command.toList

def suggestions (name : String) : String :=
  match commandNames.filter (resembles name) with
  | [] => ""
  | names => "\n\nDid you mean this?\n" ++ String.join (names.map fun n => "\t" ++ n ++ "\n")

def UsageError.message : UsageError → String
  | flag e => e.message
  | unknownCommand name =>
    "unknown command " ++ Text.Quoted.write name ++ " for " ++ Text.Quoted.write programName ++
      suggestions name
  | tooFewOperands n => "requires at least 1 arg(s), only received " ++ toString n
  | operandCount n => "accepts 1 arg(s), received " ++ toString n
  | noMethod => "required flag(s) \"method\" not set"

def helpFlag : Flag := { name := "help", short := some 'h' }

def commonFlags : List Flag :=
  [{ name := "verbose", short := some 'v' }, { name := "json" }, { name := "profile" }]

def analyzeFlags : List Flag :=
  helpFlag :: commonFlags ++
    [{ name := "workers", kind := .number }, { name := "cutoff", kind := .number },
     { name := "exhaustive" }, { name := "declared-locals" }, { name := "fail-on-findings" }]

def graphFlags : List Flag :=
  helpFlag :: commonFlags ++ [{ name := "method", short := some 'm', kind := .text }]

def rootFlags : List Flag := helpFlag :: commonFlags ++ [{ name := "version" }]

def readArguments (flags : List Flag) (args : List String) : Except UsageError Arguments :=
  (Arguments.read flags args).mapError .flag

def analyzeCommand (args : List String) : Except UsageError Command := do
  let a ← readArguments analyzeFlags args
  if a.switch "help" then return .help
  else if a.operands.isEmpty then .error (.tooFewOperands 0)
  else return .analyze {
    files := a.operands
    options := {
      cutoff := a.number "cutoff" Exploration.defaultCutoff
      exhaustive := a.switch "exhaustive"
      declaredLocals := a.switch "declared-locals" }
    failOnFindings := a.switch "fail-on-findings"
    display := ⟨a.switch "verbose", a.switch "json"⟩ }

def graphCommand (args : List String) : Except UsageError Command := do
  let a ← readArguments graphFlags args
  if a.switch "help" then return .help
  else match a.operands with
    | [file] => if a.isSet "method" then return .graph ⟨file, a.text "method"⟩ else .error .noMethod
    | operands => .error (.operandCount operands.length)

def rootCommand (args : List String) : Except UsageError Command := do
  let a ← readArguments rootFlags args
  if a.switch "help" then return .help
  else if a.switch "version" then return .version
  else return .help

/-- The command that a call asks for. Its name is the first argument that is neither a flag nor the
value of one. -/
def Command.parse (args : List String) : Except UsageError Command :=
  match operandsOf commonFlags args with
  | [] => rootCommand args
  | name :: _ =>
    let rest := removeOperand commonFlags name args
    if name = "analyze" then analyzeCommand rest
    else if name = "graph" then graphCommand rest
    else if name = "help" ∨ name = "completion" then .ok .help
    else .error (.unknownCommand name)

end BytecodeFlow.CommandLine
