import BytecodeFlow.Dependency
import BytecodeFlow.Event
import BytecodeFlow.Graph
import BytecodeFlow.Text.Quoted

namespace BytecodeFlow

structure Finding where
  nodes : List Nat := []
  lines : List Int := []
  deriving DecidableEq, Repr

def Finding.isEmpty (f : Finding) : Bool := f.nodes.isEmpty

def Graph.finding (g : Graph) (set : NodeSet) : Finding := ⟨set.toList, (g.lines set.toList).toList⟩

/-- Why a method could not be analyzed. `confined` is an accident that was kept from spreading to
other methods. -/
inductive MethodError.Cause
  | graph (cause : Graph.Error)
  | failure (cause : Failure)
  | confined (message : String)
  deriving DecidableEq, Repr

structure MethodError where
  method : Method
  cause : MethodError.Cause
  deriving DecidableEq, Repr

namespace MethodError

def reason (e : MethodError) : String :=
  match e.cause with
  | .graph g => g.message e.method
  | .failure f => f.message
  | .confined s => "frame fault: " ++ s

def message (e : MethodError) : String := "analyze " ++ e.method.render ++ ": " ++ e.reason

def isFault (e : MethodError) : Bool :=
  match e.cause with
  | .failure (.fault _) => true
  | .confined _ => true
  | _ => false

end MethodError

/-- The outcome for one method. With an error, only the names are told. -/
structure Report where
  className : String
  method : String
  nodes : Nat := 0
  noContext : Finding := {}
  dead : Finding := {}
  notCovered : Finding := {}
  dependencies : List Dependency := []
  stats : Stats := {}
  error : Option MethodError := none
  deriving DecidableEq, Repr

def Report.hasFindings (r : Report) : Bool :=
  !r.noContext.isEmpty || !r.dead.isEmpty || !r.notCovered.isEmpty

open Text (Json)

def optionalMember (key : String) (absent : Bool) (value : Json) : List (String × Json) :=
  if absent then [] else [(key, value)]

def Member.document (m : Member) : Json :=
  .object [("Owner", .string m.owner), ("Name", .string m.name),
    ("Descriptor", .string m.descriptor)]

def Dependency.document (d : Dependency) : Json :=
  .object ([("node", .number d.node), ("offset", .number d.offset), ("line", .number d.line),
      ("op", .string d.op.name)] ++
    (d.member.map fun m => ("member", m.document)).toList ++
    optionalMember "class" (d.className == "") (.string d.className) ++
    optionalMember "context" (d.context == "") (.string d.context))

def Finding.document (f : Finding) : Json :=
  .object (optionalMember "nodes" f.nodes.isEmpty (.array (f.nodes.map fun n : Nat => .number n)) ++
    optionalMember "lines" f.lines.isEmpty (.array (f.lines.map .number)))

def Stats.document (s : Stats) : Json :=
  .object [("reuse", .number s.reuse), ("copy", .number s.copy),
    ("excCopy", .number s.handlerCopy), ("maxQueue", .number s.maxQueue),
    ("steps", .number s.steps), ("fallback", .bool s.fallback), ("cutOff", .bool s.cutOff)]

def Report.document (r : Report) : Json :=
  .object ([("class", .string r.className), ("method", .string r.method),
      ("nodes", .number r.nodes), ("noContext", r.noContext.document), ("dead", r.dead.document),
      ("notCovered", r.notCovered.document)] ++
    optionalMember "dependencies" r.dependencies.isEmpty
      (.array (r.dependencies.map Dependency.document)) ++
    [("stats", r.stats.document)] ++
    (r.error.map fun e => ("error", .string e.message)).toList)

namespace Report

inductive Paint
  | bold
  | red
  | yellow
  | magenta
  | cyan
  deriving DecidableEq, Repr

def Paint.code : Paint → String
  | .bold => "1"
  | .red => "31"
  | .yellow => "33"
  | .magenta => "35"
  | .cyan => "36"

structure Style where
  color : Bool := false
  verbose : Bool := false

def Style.paint (s : Style) (p : Paint) (text : String) : String :=
  if s.color then "\x1b[" ++ p.code ++ "m" ++ text ++ "\x1b[0m" else text

def joined [ToString α] (xs : List α) : String := ",".intercalate (xs.map toString)

def findingLine (label : String) (f : Finding) : String :=
  if f.isEmpty then ""
  else "    " ++ label ++ ": nodes " ++ joined f.nodes ++
    (if f.lines.isEmpty then "" else " lines " ++ joined f.lines) ++ "\n"

def dependencyLine (s : Style) (d : Dependency) : String :=
  let target := match d.member with
    | some m => m.render
    | none => d.className
  "    " ++ s.paint .cyan "uses" ++ " [" ++ toString d.node ++ "] " ++ d.op.name ++ " " ++ target ++
    (if d.context = "" then "" else " on " ++ d.context) ++ "\n"

def body (s : Style) (r : Report) : String :=
  match r.error with
  | some e => "    " ++ s.paint .red "error:" ++ " " ++ e.reason ++ "\n"
  | none =>
    findingLine (s.paint .red "null dereference") r.noContext ++
      findingLine (s.paint .yellow "dead code") r.dead ++
      findingLine (s.paint .magenta "not covered") r.notCovered ++
      if s.verbose then String.join (r.dependencies.map (dependencyLine s)) else ""

def worthTelling (s : Style) (r : Report) : Bool :=
  r.error.isSome || r.hasFindings || (s.verbose && !r.dependencies.isEmpty)

def textFrom (s : Style) (shown : String) : List Report → String
  | [] => ""
  | r :: rest =>
    if worthTelling s r then
      (if r.className = shown then "" else s.paint .bold r.className ++ "\n") ++
        "  " ++ r.method ++ "\n" ++ body s r ++ textFrom s r.className rest
    else textFrom s shown rest

def text (s : Style) (reports : List Report) : String := textFrom s "" reports

end Report

end BytecodeFlow
