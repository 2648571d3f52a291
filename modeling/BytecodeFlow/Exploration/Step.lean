import BytecodeFlow.Dependency
import BytecodeFlow.Effect
import BytecodeFlow.Event
import BytecodeFlow.Frame
import BytecodeFlow.Graph
import BytecodeFlow.History

namespace BytecodeFlow

/-- The nodes that have been covered, those reached with a null receiver only, and those that no
path can reach because of what frames decide. -/
structure Ledger where
  covered : NodeSet := ∅
  noContext : NodeSet := ∅
  dead : NodeSet := ∅

namespace Ledger

def accounted (l : Ledger) : Nat := l.covered.size + l.dead.size

def cover (g : Graph) (n : Node) (l : Ledger) : Ledger :=
  let same := n.sameLine.diff g.dead
  { covered := l.covered.union same
    noContext := l.noContext.diff same
    dead := l.dead.diff same }

def knownDead (g : Graph) (l : Ledger) : NodeSet := g.dead.union l.dead

def addDead (g : Graph) (set : NodeSet) (l : Ledger) : Ledger :=
  { l with dead := l.dead.union ((set.diff g.dead).diff l.covered) }

/-- Whether a node runs before another on every path, by the straight run that leads there. -/
def precedes (g : Graph) (cause : Int) (node : Nat) : Bool :=
  (g.predecessorRun node).any fun r => (r : Int) == cause

/-- Records that a path ended at a node, whose receiver is null because of `cause`, and tells whether
this is so on every path. Then what only follows that node is dead. -/
def cut (g : Graph) (node : Nat) (cause : Int) (l : Ledger) : Bool × Ledger :=
  let l := { l with noContext := l.noContext.insert node }
  if precedes g cause node then
    (true, l.addDead g ((g.successorClosure node (l.knownDead g)).erase node))
  else (false, l)

def onlyReachedFrom (g : Graph) (target source : Nat) (dead : NodeSet) : Bool :=
  (g.preds target).all fun p => p == source || dead.contains p

/-- Records that a branch at a node never goes to `unavailable` because of `cause`, and tells whether
this is so on every path. Then what is only reached through that branch is dead. -/
def prune (g : Graph) (node unavailable : Nat) (cause : Int) (l : Ledger) : Bool × Ledger :=
  if precedes g cause node then
    let dead := l.knownDead g
    let dead :=
      if !l.covered.contains unavailable && onlyReachedFrom g unavailable node dead then
        g.successorClosure unavailable dead
      else dead
    (true, l.addDead g dead)
  else (false, l)

def unaccounted (g : Graph) (l : Ledger) : NodeSet :=
  (((NodeSet.below g.size).diff g.dead).diff l.covered).diff l.dead

def closeOff (g : Graph) (l : Ledger) : Ledger :=
  { l with dead := l.dead.union ((l.unaccounted g).diff l.noContext) }

end Ledger

namespace Exploration

structure Setting (σ : Type) where
  graph : Graph
  visitor : Visitor σ
  declaredLocals : Bool := false

namespace Setting

def method (s : Setting σ) : Method := s.graph.method

def effects (s : Setting σ) : Effect.Context := ⟨s.method.code, s.declaredLocals⟩

def live (s : Setting σ) : Nat := s.graph.size - s.graph.dead.size

end Setting

structure Progress (σ : Type) where
  ledger : Ledger := {}
  stats : Stats := {}
  seen : σ
  log : List Event := []

/-- Computations that a failure ends without undoing the progress made. -/
abbrev Run (σ : Type) := EStateM Failure (Progress σ)

namespace Run

def record (e : Event) : Run σ Unit := modify fun p => { p with log := e :: p.log }

def count (f : Stats → Stats) : Run σ Unit := modify fun p => { p with stats := f p.stats }

def ofExcept (r : Except Failure α) : Run σ α :=
  match r with
  | .ok a => pure a
  | .error e => throw e

def settle (f : Ledger → α × Ledger) : Run σ α :=
  modifyGet fun p => ((f p.ledger).1, { p with ledger := (f p.ledger).2 })

end Run

structure Path where
  node : Nat
  frame : Frame
  trace : Trace := {}

/-- How a step ends: at a null receiver, proven to be so on all paths or not, or with the successors
to go on to. `unproven` tells of a branch decided on this path that other paths might take. -/
inductive Step
  | cut (proven : Bool)
  | advance (targets : List Nat) (frame : Frame) (trace : Trace) (unproven : Bool)

def present (s : Setting σ) (site : Site) (f : Frame) : Run σ (Option Int) := do
  match Receiver.type? site f with
  | .error (.nullReceiver _ cause) => return some cause
  | .error e => throw e
  | .ok _ =>
    let verdict ← modifyGet fun p =>
      let (verdict, seen) := s.visitor.visit site f p.seen
      (verdict, { p with seen })
    match verdict with
    | .error (.nullReceiver _ cause) => return some cause
    | .error e => throw e
    | .ok () => return none

def advance (s : Setting σ) (n : Node) (p : Path) : Run σ Step := do
  let succs ← Run.ofExcept (Effect.orFault (n.successors s.graph.size p.frame))
  let frame ← Run.ofExcept (Effect.apply s.effects p.node n.instr p.frame)
  let trace := p.trace.add p.node succs.targets.length
  match succs with
  | .all targets => return .advance targets frame trace false
  | .decided remaining unavailable cause =>
    let proven ← Run.settle (Ledger.prune s.graph p.node unavailable cause)
    Run.record (.decided s.method p.node unavailable cause proven trace)
    return .advance [remaining] frame trace (!proven)

def step (s : Setting σ) (n : Node) (p : Path) : Run σ Step := do
  if (← get).ledger.covered.contains p.node then advance s n p
  else
    match ← present s ⟨p.node, n.instr, n.line⟩ p.frame with
    | some cause =>
      let proven ← Run.settle (Ledger.cut s.graph p.node cause)
      Run.record (.nullReceiver s.method p.node cause)
      return .cut proven
    | none =>
      modify fun q => { q with ledger := q.ledger.cover s.graph n }
      advance s n p

def handlerFrame (f : Frame) (node : Nat) (h : Handler) : Frame :=
  let caught := if h.catchType = "" then throwableClass else h.catchType
  { f with stack := [⟨.nonNullObject caught, node⟩] }

def handlersOf (n : Node) : List Handler := if n.throws then n.handlers else []

def Path.handled (p : Path) (h : Handler) : Path :=
  ⟨h.entry, handlerFrame p.frame p.node h, p.trace⟩

def nodeOf (s : Setting σ) (i : Nat) : Run σ Node :=
  match s.graph.nodes[i]? with
  | some n => pure n
  | none => throw (.nodeRange i s.graph.size)

def finished (s : Setting σ) (p : Progress σ) : Bool := s.live ≤ p.ledger.accounted

def checkCancelled (s : Setting σ) : Run σ Unit := do
  if s.visitor.cancelled (← get).seen then throw .cancelled

def enter (h : History Nat) (entry thrower : Nat) : Bool × History Nat :=
  -- what led to the thrower is recorded before the thrower itself
  let (grew, h) := h.addAll entry thrower
  let (new, h) := h.add entry thrower
  (new || grew, h)

end Exploration

end BytecodeFlow
