import BytecodeFlow.Frame
import BytecodeFlow.Successors

namespace BytecodeFlow

structure Mark where
  node : Int
  succs : Int
  deriving DecidableEq, Repr

structure Trace where
  marks : List Mark := []
  deriving DecidableEq, Repr

namespace Trace

def add (t : Trace) (node succs : Int) : Trace := ⟨⟨node, succs⟩ :: t.marks⟩

def length (t : Trace) : Nat := t.marks.length

def nodes (t : Trace) : List Int := t.marks.reverse.map Mark.node

def renderMark (m : Mark) : String :=
  toString m.node ++ if 1 < m.succs then "/" ++ toString m.succs else ""

def render (t : Trace) : String := "[" ++ " ".intercalate (t.marks.reverse.map renderMark) ++ "]"

end Trace

/-- Counts of the last pass. `reuse` are paths continued in place, `copy` and `handlerCopy` those
copied for further successors and for handlers. -/
structure Stats where
  reuse : Nat := 0
  copy : Nat := 0
  handlerCopy : Nat := 0
  maxQueue : Nat := 0
  steps : Nat := 0
  fallback : Bool := false
  cutOff : Bool := false
  deriving DecidableEq, Repr

def Stats.copies (s : Stats) : Nat := s.copy + s.handlerCopy

def Stats.render (s : Stats) : String :=
  "reuse=" ++ toString s.reuse ++ " copy=" ++ toString s.copy ++
    " excCopy=" ++ toString s.handlerCopy ++ " maxQueue=" ++ toString s.maxQueue ++
    " steps=" ++ toString s.steps ++ " fallback=" ++ toString s.fallback ++
    " cutOff=" ++ toString s.cutOff

inductive Level
  | debug
  | info
  | warn
  | error
  deriving DecidableEq, Repr

def Level.name : Level → String
  | .debug => "DEBUG"
  | .info => "INFO"
  | .warn => "WARN"
  | .error => "ERROR"

inductive FindingKind
  | nullDereference
  | deadCode
  | notCovered
  deriving DecidableEq, Repr

inductive Event
  | fastDone (method : Method) (stats : Stats)
  | fallback (method : Method) (live accounted : Nat)
  | exhaustiveDone (method : Method) (stats : Stats)
  | cutOff (method : Method) (cutoff : Nat)
  | nullReceiver (method : Method) (node : Nat) (cause : Int)
  | decided (method : Method) (node unavailable : Nat) (cause : Int) (dead : Bool) (trace : Trace)
  | crashed (method : Method) (message : String)
  | analyzed (method : Method) (nodes : Nat) (stats : Stats)
  | finding (kind : FindingKind) (method : Method) (nodes : List Nat) (lines : List Int)
  | failed (method : Method) (message : String)
  | completed (methods failed : Nat)
  deriving DecidableEq, Repr

namespace Event

def level : Event → Level
  | cutOff _ _ => .warn
  | crashed _ _ => .error
  | failed _ _ => .error
  | finding .notCovered _ _ _ => .warn
  | finding _ _ _ _ => .info
  | _ => .debug

def title : Event → String
  | fastDone _ _ => "fast pass done"
  | fallback _ _ _ => "falling back to exhaustive pass"
  | exhaustiveDone _ _ => "exhaustive pass done"
  | cutOff _ _ => "exhaustive exploration cut off"
  | nullReceiver _ _ _ => "path cut at null receiver"
  | decided _ _ _ _ _ _ => "branch decided by frame"
  | crashed _ _ => "method analysis panicked"
  | analyzed _ _ _ => "method analyzed"
  | finding .nullDereference _ _ _ => "guaranteed null dereference"
  | finding .deadCode _ _ _ => "guaranteed dead code"
  | finding .notCovered _ _ _ => "instructions not covered"
  | failed _ _ => "method analysis failed"
  | completed _ _ => "analysis completed"

def details : Event → List (String × String)
  | fastDone m s => [("method", m.render), ("stats", s.render)]
  | fallback m live accounted =>
    [("method", m.render), ("live", toString live), ("accounted", toString accounted)]
  | exhaustiveDone m s => [("method", m.render), ("stats", s.render)]
  | cutOff m n => [("method", m.render), ("cutoff", toString n)]
  | nullReceiver m node cause =>
    [("method", m.render), ("node", toString node), ("cause", toString cause)]
  | decided m node unavailable cause dead trace =>
    [("method", m.render), ("node", toString node),
     ("unavailable", bracketed [unavailable]), ("cause", toString cause),
     ("dead", toString dead), ("trace", trace.render)]
  | crashed m s => [("method", m.render), ("panic", s)]
  | analyzed m n s => [("method", m.render), ("nodes", toString n), ("stats", s.render)]
  | finding _ m nodes lines =>
    [("class", m.className), ("method", m.render), ("nodes", bracketed nodes),
     ("lines", bracketed lines)]
  | failed m s => [("method", m.render), ("error", s)]
  | completed n k => [("methods", toString n), ("failed", toString k)]

def render (e : Event) : String :=
  e.level.name ++ " " ++ e.title ++
    String.join (e.details.map fun (k, v) => " " ++ k ++ "=" ++ v)

end Event

end BytecodeFlow
