import BytecodeFlow.ClassFile
import BytecodeFlow.Exploration.Explore
import BytecodeFlow.Report

namespace BytecodeFlow.Analysis

open Exploration (Options Result)

inductive Error
  | cancelled
  | method (cause : MethodError)
  deriving DecidableEq, Repr

def accident? : Failure → Option String
  | .crash s => some s
  | .noMember => some Failure.noMember.message
  | .slotLimit => some Failure.slotLimit.message
  | .nodeRange i n => some (Failure.nodeRange i n).message
  | _ => none

structure Outcome (σ : Type) where
  report : Except Error Report
  seen : σ
  log : List Event

def reportOf (g : Graph) (r : Result) (dependencies : List Dependency) : Report := {
  className := g.method.className
  method := g.method.key
  nodes := g.size
  noContext := g.finding r.noContext
  dead := g.finding r.dead
  notCovered := g.finding r.notCovered
  dependencies
  stats := r.stats }

def findingEvent (kind : FindingKind) (m : Method) (f : Finding) : List Event :=
  if f.isEmpty then [] else [.finding kind m f.nodes f.lines]

def reportEvents (m : Method) (r : Report) : List Event :=
  .analyzed m r.nodes r.stats ::
    findingEvent .nullDereference m r.noContext ++ findingEvent .deadCode m r.dead ++
    findingEvent .notCovered m r.notCovered

def method (o : Options) (v : Visitor σ) (init : σ) (m : Method) : Outcome σ :=
  let failed (cause : MethodError.Cause) : Except Error Report := .error (.method ⟨m, cause⟩)
  match Graph.build m with
  | .error e => ⟨failed (.graph e), init, []⟩
  | .ok g =>
    let (result, p) := o.explore g v init
    let log := p.log.reverse
    match result with
    | .ok r =>
      let report := reportOf g r (v.dependencies p.seen)
      ⟨.ok report, p.seen, log ++ reportEvents m report⟩
    | .error .cancelled => ⟨.error .cancelled, p.seen, log⟩
    | .error e =>
      match accident? e with
      | some s => ⟨failed (.confined s), p.seen, log ++ [.crashed m s]⟩
      | none => ⟨failed (.failure e), p.seen, log⟩

inductive Incomplete
  | noMethods
  | cancelled
  deriving DecidableEq, Repr

def Incomplete.message : Incomplete → String
  | noMethods => "no methods provided"
  | cancelled => Failure.cancelled.message

structure Summary where
  reports : List Report
  incomplete : Option Incomplete
  log : List Event

def collect (o : Options) (cancelled : Bool) (m : Method) : Option Report × List Event :=
  if cancelled then (none, [])
  else
    let r := method o (.collector cancelled) [] m
    match r.report with
    | .ok report => (some report, r.log)
    | .error .cancelled => (none, r.log)
    | .error (.method e) =>
      (some { className := m.className, method := m.key, error := some e },
        r.log ++ [.failed m e.reason])

def classes (o : Options) (cancelled : Bool) (cs : List Class) : Summary :=
  match cs.flatMap Class.methods with
  | [] => ⟨[], some .noMethods, []⟩
  | methods =>
    let outcomes := methods.map (collect o cancelled)
    let reports := outcomes.filterMap Prod.fst
    let failed := (reports.filter (·.error.isSome)).length
    ⟨reports, if cancelled then some .cancelled else none,
      outcomes.flatMap Prod.snd ++ [.completed reports.length failed]⟩

end BytecodeFlow.Analysis
