import BytecodeFlow.Analysis
import BytecodeFlow.Loading

namespace BytecodeFlow

/-- What the report on a method should say. Node lists are compared exactly; the fallback only if it
is given. `error` is part of the message of an expected error, empty if none is expected. Each of
`dependencies`, a node with its context, must be among those found. -/
structure Expectation where
  noContext : List Int := []
  dead : List Int := []
  notCovered : List Int := []
  fallback : Option Bool := none
  error : String := ""
  dependencies : List String := []
  deriving DecidableEq, Repr

namespace Expectation

def keyOf (r : Report) : String := r.className ++ "." ++ r.method

def compareNodes (key what : String) (want : List Int) (got : Finding) : List String :=
  if want = got.nodes.map Int.ofNat then []
  else [key ++ ": " ++ what ++ " nodes " ++ bracketed got.nodes ++ ", want " ++
    bracketed want]

def compareFallback (key : String) (want : Option Bool) (got : Bool) : List String :=
  match want with
  | some b =>
    if b = got then []
    else [key ++ ": fallback " ++ toString got ++ ", want " ++ toString b]
  | none => []

def compareDependencies (key : String) (want : List String) (got : List Dependency) : List String :=
  let labels := got.map Dependency.label
  (want.filter (!labels.contains ·)).map fun w =>
    key ++ ": missing dependency " ++ w ++ ", got " ++ bracketed labels

def compareError (key : String) (want : String) (got : Option MethodError) : List String :=
  let expected := match got with
    | some e => want != "" && Text.contains want.toList e.message.toList
    | none => false
  if expected then []
  else [key ++ ": error " ++ (got.map MethodError.message).getD "<nil>" ++
    ", want error containing " ++ Text.Quoted.write want]

def compare (e : Expectation) (r : Report) : List String :=
  let key := keyOf r
  if e.error ≠ "" ∨ r.error.isSome then compareError key e.error r.error
  else
    compareNodes key "no-context" e.noContext r.noContext ++
    compareNodes key "dead" e.dead r.dead ++
    compareNodes key "not-covered" e.notCovered r.notCovered ++
    compareFallback key e.fallback r.stats.fallback ++
    compareDependencies key e.dependencies r.dependencies

def describe (r : Report) : String :=
  match r.error with
  | some e => e.message
  | none =>
    "no-context " ++ bracketed r.noContext.nodes ++ ", dead " ++ bracketed r.dead.nodes ++
      ", not-covered " ++ bracketed r.notCovered.nodes

def review (expected : List (String × Expectation)) (r : Report) : List String :=
  match expected.find? (·.1 == keyOf r) with
  | some (_, e) => e.compare r
  | none =>
    if r.error.isSome || r.hasFindings then
      [keyOf r ++ ": unexpected findings: " ++ describe r]
    else []

def missing (expected : List (String × Expectation)) (reports : List Report) : List String :=
  let keys := (expected.map Prod.fst).filter fun k => !(reports.map keyOf).contains k
  keys.mergeSort fun a b => a ≤ b

structure Verdict where
  message : String
  details : List String

def Verdict.success (v : Verdict) : Bool := v.details.isEmpty

def validate (expected : List (String × Expectation)) (reports : List Report) : Verdict :=
  let details := reports.flatMap (review expected) ++
    (missing expected reports).map ("Expected method not analyzed: " ++ ·)
  { message :=
      if details.isEmpty then "All " ++ toString reports.length ++ " methods matched"
      else "Test failed: " ++ toString details.length ++ " mismatches"
    details }

end Expectation

structure Configuration where
  name : String
  options : Exploration.Options
  methods : List (String × Expectation)

structure Fixture where
  name : String
  description : String
  archive : Archive
  configurations : List Configuration

open Yaml.Node (valueOf)

def Expectation.ofNode (n : Yaml.Node) : Except Yaml.Error Expectation := do
  let entries ← n.entries
  let numbers (key : String) := do (← (valueOf entries key).items).mapM Yaml.Node.integer
  return {
    noContext := ← numbers "no_context"
    dead := ← numbers "dead"
    notCovered := ← numbers "not_covered"
    fallback := ← (valueOf entries "fallback").truth?
    error := ← (valueOf entries "error").text
    dependencies := ← (← (valueOf entries "dependencies").items).mapM Yaml.Node.text }

def Configuration.ofNode (n : Yaml.Node) : Except Yaml.Error Configuration := do
  let entries ← n.entries
  return {
    name := ← (valueOf entries "name").text
    options := {
      cutoff := ← (valueOf entries "cutoff").integer
      exhaustive := ← (valueOf entries "exhaustive").truth
      declaredLocals := ← (valueOf entries "declared_locals").truth }
    methods := ← (← (valueOf entries "methods").entries).mapM fun (k, v) =>
      return (k, ← Expectation.ofNode v) }

namespace Fixture

inductive Error
  | noExpectations (name : String)
  | yaml (cause : Yaml.Error)
  | noConfigurations
  | loading (cause : Loading.FileError)
  | analysis (cause : Analysis.Incomplete)

def Error.message : Error → String
  | noExpectations name => name ++ ": missing " ++ Loading.expectedFile
  | yaml _ => "yaml"
  | noConfigurations => "test case has no configurations"
  | loading e => e.message
  | analysis e => e.message

def isFixture (file : String) : Bool := Loading.extension file == ".txtar"

def ofFile (file text : String) : Except Error Fixture := do
  let archive := Archive.parse text
  -- of several members with expectations the last one counts
  match archive.files.reverse.find? (·.name == Loading.expectedFile) with
  | none => .error (.noExpectations file)
  | some member =>
    let configurations ← (do
      let entries ← (← Yaml.parse member.data).entries
      (← (valueOf entries "configurations").items).mapM Configuration.ofNode).mapError .yaml
    return {
      name := String.ofList (file.toList.take (file.length - (Loading.extension file).length))
      description := Text.trim archive.comment
      archive
      configurations }

structure Trial where
  name : String
  verdict : Expectation.Verdict

structure Outcome where
  fixture : Fixture
  trials : List Trial

def Outcome.failures (o : Outcome) : List Trial := o.trials.filter (!·.verdict.success)

def Outcome.success (o : Outcome) : Bool := o.failures.isEmpty

def Trial.render (t : Trial) : String :=
  "[" ++ t.name ++ "] " ++ t.verdict.message ++ ":\n  " ++ "\n  ".intercalate t.verdict.details

def Outcome.message (o : Outcome) : String :=
  let total := toString o.trials.length
  if o.success then "All " ++ total ++ " configurations passed"
  else toString o.failures.length ++ "/" ++ total ++ " configurations failed:\n" ++
    "\n".intercalate (o.failures.map Trial.render)

def trial (f : Fixture) (c : Configuration) : Except Error Trial := do
  let classes ← (Loading.archiveClasses f.archive f.name).mapError .loading
  let summary := Analysis.classes c.options false classes
  match summary.incomplete with
  | some e => .error (.analysis e)
  | none => return ⟨c.name, Expectation.validate c.methods summary.reports⟩

def run (f : Fixture) : Except Error Outcome := do
  if f.configurations.isEmpty then .error .noConfigurations
  else return ⟨f, ← f.configurations.mapM f.trial⟩

def runAll (files : List (String × String)) : Except Error (List Outcome) := do
  let fixtures := (files.filter fun (name, _) => isFixture name).mergeSort fun a b => a.1 ≤ b.1
  (← fixtures.mapM fun (name, text) => ofFile name text).mapM run

end Fixture

end BytecodeFlow
