import BytecodeFlow.Analysis
import BytecodeFlow.CommandLine.Command
import BytecodeFlow.Graph
import BytecodeFlow.Loading
import BytecodeFlow.Report

namespace BytecodeFlow.CommandLine

open Text (Json)

inductive Answer
  | text (s : String)
  | reports (display : Display) (reports : List Report)

structure Outcome where
  answer : Answer := .text ""
  code : Nat := 0
  message : String := ""

def findingsCode : Nat := 1

def errorCode : Nat := 2

def Outcome.failed (message : String) : Outcome := { code := errorCode, message }

structure Occasion where
  color : Bool := false
  duration : Int := 0
  timestamp : String := ""

def version : String := "dev"

def versionText : String :=
  programName ++ " version " ++ version ++ "\n  commit: unknown\n  built:  unknown\n"

def countBy (p : Report → Bool) (reports : List Report) : Nat := (reports.filter p).length

def errorCount (reports : List Report) : Nat := countBy (·.error.isSome) reports

def findingsCount (reports : List Report) : Nat :=
  countBy (fun r => r.error.isNone && r.hasFindings) reports

def document (o : Occasion) (reports : List Report) : Json :=
  let count (n : Nat) : Json := .number n
  .object [
    ("reports", .array (reports.map Report.document)),
    ("stats", .object [
      ("methods", count reports.length),
      ("with_findings", count (findingsCount reports)),
      ("errors", count (errorCount reports)),
      ("cut_off", count (countBy (·.stats.cutOff) reports)),
      ("fallback", count (countBy (·.stats.fallback) reports)),
      ("analysis_duration", .number o.duration)]),
    ("version", .string version),
    ("timestamp", .string o.timestamp)]

def Answer.render (o : Occasion) : Answer → String
  | text s => s
  | reports d rs =>
    if d.json then (document o rs).render "" ++ "\n" else Report.text ⟨o.color, d.verbose⟩ rs

def analyze (read : String → Except Unreadable String) (r : AnalyzeRequest) : Outcome :=
  match Loading.load read r.files with
  | .error e => .failed e.message
  | .ok classes =>
    let summary := Analysis.classes r.options false classes
    match summary.incomplete with
    | some e => .failed ("analyze: " ++ e.message)
    | none =>
      let code :=
        if 0 < errorCount summary.reports then errorCode
        else if r.failOnFindings && 0 < findingsCount summary.reports then findingsCode
        else 0
      { answer := .reports r.display summary.reports, code }

def graph (read : String → Except Unreadable String) (r : GraphRequest) : Outcome :=
  match Loading.load read [r.file] with
  | .error e => .failed e.message
  | .ok classes =>
    match (Loading.Selector.parse r.selector).find classes with
    | .error e => .failed e.message
    | .ok m =>
      match Graph.build m with
      | .error e => .failed ("build graph: " ++ e.message m)
      | .ok g => { answer := .text (g.dot ++ "\n") }

def Command.run (read : String → Except Unreadable String) : Command → Outcome
  | help => {}
  | version => { answer := .text versionText }
  | analyze r => CommandLine.analyze read r
  | graph r => CommandLine.graph read r

def Command.files : Command → List String
  | analyze r => r.files
  | graph r => [r.file]
  | _ => []

def run (read : String → Except Unreadable String) (args : List String) : Outcome :=
  match Command.parse args with
  | .error e => .failed e.message
  | .ok c => c.run read

end BytecodeFlow.CommandLine
