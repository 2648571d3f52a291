import BytecodeFlow.Exploration.Step
import BytecodeFlow.OrderedSet

/-!
The exploration of a method. In the fast pass all paths share one history. If that leaves live nodes
unsettled, the exhaustive pass follows: each path has a history of its own, and the history of a path
that ran to its end is merged into that of the path resumed next.
-/

namespace BytecodeFlow.Exploration

namespace Fast

structure State where
  current : Path
  waiting : List Path
  history : History Nat

def queueHandlers (p : Path) (handlers : List Handler) (waiting : List Path) (h : History Nat) :
    Run σ (List Path × History Nat) :=
  match handlers with
  | [] => pure (waiting, h)
  | hd :: rest => do
    match enter h hd.entry p.node with
    | (true, h) =>
      Run.count fun s => { s with handlerCopy := s.handlerCopy + 1 }
      queueHandlers p rest (waiting ++ [p.handled hd]) h
    | (false, h) => queueHandlers p rest waiting h

def queueTargets (source : Nat) (frame : Frame) (trace : Trace) (targets : List Nat)
    (waiting : List Path) (h : History Nat) : List Path × History Nat :=
  -- from the last target on, so that the first one ends up in front
  targets.foldr (fun t (waiting, h) =>
    match h.addAll t source with
    | (true, h) => (⟨t, frame, trace⟩ :: waiting, h)
    | (false, h) => (waiting, h)) (waiting, h)

def countTargets (n : Nat) (s : Stats) : Stats :=
  { s with reuse := s.reuse + min n 1, copy := s.copy + (n - 1) }

def turn (s : Setting σ) (st : State) : Run σ (Option State) := do
  checkCancelled s
  Run.count fun s => { s with steps := s.steps + 1 }
  let p := st.current
  let n ← nodeOf s p.node
  let (waiting, h) ← queueHandlers p (handlersOf n) st.waiting st.history
  let (waiting, h) ← match ← step s n p with
    | .cut _ => pure (waiting, h)
    | .advance targets frame trace _ => do
      Run.count (countTargets targets.length)
      pure (queueTargets p.node frame trace targets waiting (h.add p.node p.node).2)
  match waiting with
  | [] => return none
  | next :: rest =>
    Run.count fun s => { s with maxQueue := max s.maxQueue waiting.length }
    return some ⟨next, rest, h⟩

def loop (s : Setting σ) : (fuel : Nat) → State → Run σ Unit
  | 0, _ => throw .unbounded
  | fuel + 1, st => do
    if finished s (← get) then return
    match ← turn s st with
    | none => return
    | some st => loop s fuel st

/-- More than the turns that can be taken: each turn but the first is due to an element of the
history. -/
def fuel (g : Graph) : Nat := g.size * g.size + 2

def run (s : Setting σ) (start : Frame) : Run σ Unit := do
  Run.count fun _ => {}
  loop s (fuel s.graph) ⟨⟨0, start, {}⟩, [], .empty s.graph.size⟩

end Fast

namespace Exhaustive

/-- A path with its history. `revisits` tells whether the history has the node at the node itself, which
is asked often. -/
structure Thread where
  path : Path
  history : History Nat
  revisits : Bool
  revisits_eq : revisits = history.contains path.node path.node

def Thread.of (path : Path) (history : History Nat) : Thread :=
  ⟨path, history, history.contains path.node path.node, rfl⟩

structure State where
  current : Thread
  waiting : List Thread

def handlerThreads (t : Thread) (handlers : List Handler) : List Thread :=
  handlers.filterMap fun hd =>
    match enter t.history.copy hd.entry t.path.node with
    | (true, h) => some (.of (t.path.handled hd) h)
    | (false, _) => none

def queueLast (waiting : List Thread) : List Thread → List Thread
  | [] => waiting
  | ts => waiting ++ ts

def branch (source : Nat) (frame : Frame) (trace : Trace) (h : History Nat) (target : Nat) :
    Option Thread :=
  match h.addAll target source with
  | (true, h) => some (.of ⟨target, frame, trace⟩ h)
  | (false, _) => none

/-- The threads of successors, in their order. The first goes on with the history itself, the others
with copies. -/
def branches (source : Nat) (frame : Frame) (trace : Trace) (h : History Nat) :
    List Nat → List Thread
  | [] => []
  | t :: ts =>
    (branch source frame trace h t).toList ++ ts.filterMap (branch source frame trace h.copy)

def markIf (b : Bool) (h : History Nat) : History Nat := if b then h.mark else h

/-- The thread to resume after one that cannot share its history: the first that enters a node not
covered, else one that enters a node not on its own history, else the first. -/
def bestIndex (covered : NodeSet) (waiting : List Thread) : Nat :=
  let table := covered.table
  match waiting.findIdx? fun t => !table.getD t.path.node false with
  | some i => i
  | none => (waiting.findIdx? fun t => !t.revisits).getD 0

/-- Resumes a waiting thread; none if there is none. `ended` is the history of a thread that ran to
its end. -/
def resume (covered : NodeSet) (waiting : List Thread) (ended : Option (History Nat)) :
    Option State :=
  match ended, waiting with
  | _, [] => none
  | some h, t :: rest => some ⟨.of t.path (t.history.merge h), rest⟩
  | none, waiting =>
    let i := bestIndex covered waiting
    waiting[i]?.map (⟨·, waiting.eraseIdx i⟩)

def turn (s : Setting σ) (st : State) : Run σ (Option State) := do
  checkCancelled s
  Run.count fun s => { s with steps := s.steps + 1 }
  let t := st.current
  let n ← nodeOf s t.path.node
  let handlers := handlersOf n
  Run.count fun s => { s with handlerCopy := s.handlerCopy + handlers.length }
  let waiting := queueLast st.waiting (handlerThreads t handlers)
  let (next, h) ← match ← step s n t.path with
    | .cut proven => pure ([], markIf (!proven) t.history)
    | .advance targets frame trace unproven => do
      Run.count (Fast.countTargets targets.length)
      let h := markIf unproven (t.history.add t.path.node t.path.node).2
      pure (branches t.path.node frame trace h targets, h)
  let waiting := next ++ waiting
  if waiting.isEmpty then
    -- every path has ended, and what none of them reached is dead
    modify fun p => { p with ledger := p.ledger.closeOff s.graph }
    return none
  else
    Run.count fun s => { s with maxQueue := max s.maxQueue waiting.length }
    let ended := if next.isEmpty && !h.unmergeable then some h else none
    return resume (← get).ledger.covered waiting ended

def loop (s : Setting σ) (cutoff : Nat) : (fuel : Nat) → State → Run σ Unit
  | 0, _ => throw .unbounded
  | fuel + 1, st => do
    let p ← get
    if finished s p then return
    if cutoff < p.stats.copies then
      Run.count fun s => { s with cutOff := true }
      Run.record (.cutOff s.method cutoff)
    else
      match ← turn s st with
      | none => return
      | some st => loop s cutoff fuel st

def width (n : Node) : Nat := n.handlers.length + (n.flow.length - 1)

/-- More than the turns that can be taken: each history, and there is one more than copies, can grow
once for each pair of nodes. -/
def fuel (g : Graph) (cutoff : Nat) : Nat :=
  let widest := (g.nodes.toList.map width).foldl max 0
  (1 + cutoff + widest) * (g.size * g.size + 1) + 1

def run (s : Setting σ) (cutoff : Nat) (start : Frame) : Run σ Unit := do
  Run.count fun _ => {}
  loop s cutoff (fuel s.graph cutoff) ⟨.of ⟨0, start, {}⟩ (.empty s.graph.size), []⟩

end Exhaustive

def defaultCutoff : Nat := 0x8000

structure Options where
  cutoff : Int := 0
  exhaustive : Bool := false
  declaredLocals : Bool := false
  deriving DecidableEq, Repr

def Options.bound (o : Options) : Nat := if o.cutoff ≤ 0 then defaultCutoff else o.cutoff.toNat

/-- The nodes by what became of them: shown to the visitor, only reached with a null receiver,
unreachable, or left open when the exploration was cut off. -/
structure Result where
  covered : NodeSet
  noContext : NodeSet
  dead : NodeSet
  notCovered : NodeSet
  stats : Stats

def result (g : Graph) (l : Ledger) (stats : Stats) : Result :=
  let noContext := l.noContext.diff l.covered
  let dead := (l.knownDead g).diff noContext
  { covered := l.covered
    noContext
    dead
    notCovered := (((NodeSet.below g.size).diff l.covered).diff dead).diff noContext
    stats }

def runFast (s : Setting σ) (start : Frame) : Run σ Unit := do
  Fast.run s start
  Run.record (.fastDone s.method (← get).stats)

def runExhaustive (s : Setting σ) (cutoff : Nat) (fallback : Bool) (start : Frame) : Run σ Unit := do
  Run.record (.fallback s.method s.live (← get).ledger.accounted)
  Exhaustive.run s cutoff start
  Run.count fun stats => { stats with fallback }
  Run.record (.exhaustiveDone s.method (← get).stats)

def explore (s : Setting σ) (o : Options) : Run σ Result := do
  let start ← Run.ofExcept s.method.startFrame
  if o.exhaustive then runExhaustive s o.bound false start
  else
    runFast s start
    if !finished s (← get) then runExhaustive s o.bound true start
  let p ← get
  return result s.graph p.ledger p.stats

def Options.explore (o : Options) (g : Graph) (v : Visitor σ) (init : σ) :
    Except Failure Result × Progress σ :=
  match Exploration.explore ⟨g, v, o.declaredLocals⟩ o ⟨{}, {}, init, []⟩ with
  | .ok r p => (.ok r, p)
  | .error e p => (.error e, p)

end BytecodeFlow.Exploration
