import BytecodeFlow.Method
import BytecodeFlow.OrderedSet

/-!
The flow graph of a method: one node for each instruction, with the edges that control may take. A
compiler that duplicates a block, as for `finally`, gives its copies one line number and the same
opcodes; such copies are twins.
-/

namespace BytecodeFlow

/-- The instructions that an entry of the line table speaks of, by node and opcode. -/
structure LineRun where
  entry : LineEntry
  members : List (Nat × Opcode)

namespace LineRun

def nodes (r : LineRun) : List Nat := r.members.map Prod.fst

def opcodes (r : LineRun) : List Opcode := r.members.map Prod.snd

def membersBetween (c : Code) (first last : Int) : List (Nat × Opcode) :=
  (c.instructions.zipIdx.filter fun (i, _) => first ≤ i.offset && i.offset < last).map
    fun (i, n) => (n, i.op)

/-- The runs of a sorted line table. A run ends where a later entry starts, or with the code. -/
def ofEntries (c : Code) : List LineEntry → List LineRun
  | [] => []
  | e :: later =>
    let last := match later.find? (e.start < ·.start) with
      | some next => next.start
      | none => c.length
    ⟨e, membersBetween c e.start last⟩ :: ofEntries c later

def matching (r s : LineRun) : Bool :=
  r.entry.line == s.entry.line && r.entry.start != s.entry.start && r.opcodes == s.opcodes

end LineRun

def Code.twins (c : Code) : List (Nat × Nat) :=
  let runs := LineRun.ofEntries c c.sortedLines
  runs.flatMap fun r => (runs.filter r.matching).flatMap fun s => r.nodes.zip s.nodes

def NodeSet.below (n : Nat) : NodeSet :=
  ⟨List.range n, List.pairwise_lt_range.imp Nat.compare_eq_lt.2⟩

theorem NodeSet.mem_below {n i : Nat} : i ∈ below n ↔ i < n := List.mem_range

/-- The set of numbers as unsigned 32-bit words. -/
def NodeSet.ofNumbers (xs : List Int) : NodeSet := .ofList (xs.map fun x => (x % 0x100000000).toNat)

theorem OrderedSet.size_filter_add [Ord α] (p : α → Bool) (s : OrderedSet α) :
    (s.filter p).size + (s.filter (!p ·)).size = s.size := by
  simp only [size, filter]
  induction s.toList with
  | nil => rfl
  | cons a as ih => cases h : p a <;> simp [h] <;> omega

/-- The nodes of `outside` that no walk along `next` from a node of the worklist leads to, where all
nodes that are not outside have been walked from or are on the worklist. -/
def unreached (next : Nat → List Nat) (outside : NodeSet) : (work : List Nat) → NodeSet
  | [] => outside
  | n :: work =>
    let found := outside.filter (next n).contains
    unreached next (outside.filter (!(next n).contains ·)) (found.toList ++ work)
termination_by work => outside.size + work.length
decreasing_by
  have := OrderedSet.size_filter_add (next n).contains outside
  simp only [OrderedSet.size, List.length_append, List.length_cons] at *
  omega

structure Handler where
  entry : Nat
  catchType : String
  deriving DecidableEq, Repr

/-- An instruction with its edges. `flow` are the successors by control flow, `succs` these and then
the entries of handlers, `sameLine` the nodes with its place in copies of its source construct. -/
structure Node where
  instr : Instruction
  line : Int
  flow : List Nat
  handlers : List Handler
  succs : List Nat
  preds : List Nat
  sameLine : NodeSet

def Node.throws (n : Node) : Bool := n.instr.op.throws

/-- The flow graph of a method. No walk from node 0 leads to a node of `dead`. -/
structure Graph where
  method : Method
  nodes : Array Node
  dead : NodeSet

namespace Graph

inductive Error
  | defect (cause : Method.Defect)
  | fallsOff (index : Nat) (instr : Instruction)
  | target (instr : Instruction) (offset : Int)
  | handler (number : Nat) (offset : Int)
  deriving DecidableEq, Repr

def Error.text : Error → String
  | defect d => d.message
  | fallsOff i instr =>
    "instruction " ++ toString i ++ " (" ++ instr.render ++ ") falls off the end of the code"
  | target instr offset =>
    "instruction at " ++ toString instr.offset ++ " (" ++ instr.render ++
      "): no instruction at target offset " ++ toString offset
  | handler i offset =>
    "handler " ++ toString i ++ ": no instruction at offset " ++ toString offset

def Error.message (m : Method) (e : Error) : String := "method " ++ m.render ++ ": " ++ e.text

def nodeAt? (c : Code) (offset : Int) : Option Nat := c.instructions.findIdx? (·.offset == offset)

def nextNode (c : Code) (i : Nat) (instr : Instruction) : Except Error Nat :=
  if i + 1 < c.instructions.length then .ok (i + 1) else .error (.fallsOff i instr)

def targetNode (c : Code) (instr : Instruction) (offset : Int) : Except Error Nat :=
  match nodeAt? c offset with
  | some n => .ok n
  | none => .error (.target instr offset)

/-- The successors of an instruction by control flow: the next one before a target, the default of a
switch before its cases, each node once. A subroutine call also falls through, to where it returns. -/
def flowOf (c : Code) (instr : Instruction) (i : Nat) : Except Error (List Nat) :=
  match instr.op.flow with
  | .leave => .ok []
  | .throw => .ok []
  | .ret => .ok []
  | .goto => return [← targetNode c instr instr.target]
  | .branch => both
  | .jsr => both
  | .switch => return firsts (← instr.targets.mapM (targetNode c instr))
  | .next => return [← nextNode c i instr]
where
  both : Except Error (List Nat) := do
    let next ← nextNode c i instr
    return firsts [next, ← targetNode c instr instr.target]

def entryOf (c : Code) (p : Protection) (number : Nat) : Except Error (Protection × Nat) :=
  match nodeAt? c p.entry with
  | some n => .ok (p, n)
  | none => .error (.handler number p.entry)

structure Wiring where
  code : Code
  flow : List (List Nat)
  handlers : List (Protection × Nat)

def wire (c : Code) : Except Error Wiring := do
  let flow ← c.instructions.zipIdx.mapM fun (instr, i) => flowOf c instr i
  let handlers ← c.handlers.zipIdx.mapM fun (p, k) => entryOf c p k
  return ⟨c, flow, handlers⟩

namespace Wiring

def flowEdges (w : Wiring) : List (Nat × Nat) :=
  w.flow.zipIdx.flatMap fun (targets, i) => targets.map (i, ·)

def handlerEdges (w : Wiring) : List (Nat × Nat) :=
  w.handlers.flatMap fun (p, entry) =>
    (w.code.instructions.zipIdx.filter fun (instr, _) => p.covers instr.offset).map
      fun (_, i) => (i, entry)

def edges (w : Wiring) : List (Nat × Nat) := w.flowEdges ++ w.handlerEdges

def handlersOf (w : Wiring) (instr : Instruction) : List Handler :=
  (w.handlers.filter fun (p, _) => p.covers instr.offset).map fun (p, entry) => ⟨entry, p.catchType⟩

def nodes (w : Wiring) (edges twins : List (Nat × Nat)) : List Node :=
  (w.code.instructions.zip w.flow).zipIdx.map fun ((instr, flow), i) => {
    instr
    line := w.code.lineAt instr.offset
    flow
    handlers := w.handlersOf instr
    succs := firsts ((edges.filter (·.1 == i)).map Prod.snd)
    preds := firsts ((edges.filter (·.2 == i)).map Prod.fst)
    sameLine := .ofList (i :: (twins.filter (·.1 == i)).map Prod.snd) }

end Wiring

def succsIn (nodes : Array Node) (i : Nat) : List Nat := (nodes[i]?.map Node.succs).getD []

def ofWiring (m : Method) (w : Wiring) : Graph :=
  let nodes := (w.nodes w.edges w.code.twins).toArray
  { method := m
    nodes
    dead := unreached (succsIn nodes) ((NodeSet.below nodes.size).erase 0) [0] }

def build (m : Method) : Except Error Graph :=
  match m.defect? with
  | some d => .error (.defect d)
  | none => return ofWiring m (← wire m.code)

def size (g : Graph) : Nat := g.nodes.size

def succs (g : Graph) (i : Nat) : List Nat := succsIn g.nodes i

def preds (g : Graph) (i : Nat) : List Nat := (g.nodes[i]?.map Node.preds).getD []

def node? (g : Graph) (i : Int) : Option Node :=
  match i with
  | .ofNat n => g.nodes[n]?
  | .negSucc _ => none

def renderNode (i : Nat) (n : Node) : String :=
  "[" ++ toString i ++ "] " ++ n.instr.render ++ " (p=" ++ toString n.preds.length ++
    ",s=" ++ toString n.succs.length ++ ",l#=" ++ toString n.line ++ ")"

def lines (g : Graph) (nodes : List Nat) : OrderedSet Int :=
  .ofList ((nodes.filterMap fun i => g.nodes[i]?.map Node.line).filter (0 ≤ ·))

def linesOf? (g : Graph) (numbers : List Int) : Option (OrderedSet Int) :=
  if numbers.all fun n => 0 ≤ n && n < g.size then some (g.lines (numbers.map Int.toNat)) else none

def runFrom (g : Graph) (left : List Nat) (n : Nat) : List Nat :=
  match g.preds n with
  | [p] => if p ∈ left then p :: runFrom g (left.erase p) p else []
  | _ => []
termination_by left.length
decreasing_by
  rename_i h
  have := List.length_erase_of_mem h
  have := List.length_pos_of_mem h
  omega

/-- The straight run of nodes that execute before a node: its only predecessor, the only predecessor
of that one, and so on, until a node has none or several or would occur twice. -/
def predecessorRun (g : Graph) (n : Nat) : List Nat := g.runFrom ((List.range g.size).erase n) n

def closedBy (g : Graph) (set : NodeSet) (n s : Nat) : Bool :=
  (g.succs n).contains s && (g.preds s).all set.contains

/-- Grows a set by the successors of worklist nodes whose predecessors are all in it; `outside` are
the nodes that it does not hold. -/
def grow (g : Graph) (outside set : NodeSet) : (work : List Nat) → NodeSet
  | [] => set
  | n :: work =>
    let ready := outside.filter (g.closedBy set n)
    grow g (outside.filter (!g.closedBy set n ·)) (set.union ready) (ready.toList ++ work)
termination_by work => outside.size + work.length
decreasing_by
  have := OrderedSet.size_filter_add (g.closedBy set n) outside
  simp only [OrderedSet.size, List.length_append, List.length_cons] at *
  omega

/-- Adds a node to a set, and then every successor whose predecessors are all in the set. -/
def successorClosure (g : Graph) (start : Nat) (set : NodeSet) : NodeSet :=
  let set := set.insert start
  g.grow ((NodeSet.below g.size).diff set) set [start]

def closureFrom? (g : Graph) (start : Int) (set : NodeSet) : Option NodeSet :=
  if 0 ≤ start ∧ start < g.size then some (g.successorClosure start.toNat set) else none

namespace Dot

def attributes (attrs : List (String × String)) : String :=
  if attrs.isEmpty then ""
  else "[" ++ ",".intercalate (attrs.map fun (k, v) => k ++ "=" ++ Text.Quoted.write v) ++ "]"

def name (i : Nat) : String := "n" ++ toString (i + 1)

def label (i : Nat) (n : Node) : String :=
  let text := "[" ++ toString i ++ "] @" ++ toString n.instr.offset ++ " " ++ n.instr.render
  if 0 ≤ n.line then text ++ "\nline " ++ toString n.line else text

def nodeLine (dead : Bool) (i : Nat) (n : Node) : String :=
  let attrs :=
    if dead then
      [("fillcolor", "lightgrey"), ("label", label i n), ("shape", "box"), ("style", "filled")]
    else [("label", label i n), ("shape", "box")]
  "\t" ++ name i ++ attributes attrs ++ ";\n"

def edgeLine (i target : Nat) (attrs : List (String × String)) : String :=
  "\t" ++ name i ++ "->" ++ name target ++ attributes attrs ++ ";\n"

def edgeLines (i : Nat) (n : Node) : List String :=
  let style := ("style", "dashed")
  n.flow.map (edgeLine i · []) ++
    (n.handlers.filter fun h => !n.flow.contains h.entry).map fun h =>
      edgeLine i h.entry (if h.catchType = "" then [style] else [("label", h.catchType), style])

def listed (g : Graph) : List (Node × Nat) :=
  g.nodes.toList.zipIdx.mergeSort fun a b => toString a.2 ≤ toString b.2

end Dot

def dot (g : Graph) : String :=
  let nodes := Dot.listed g
  "digraph  \x7b\n\tlabel=" ++ Text.Quoted.write g.method.render ++ ";\n" ++
    String.join (nodes.map fun (n, i) => Dot.nodeLine (g.dead.contains i) i n) ++
    String.join (nodes.flatMap fun (n, i) => Dot.edgeLines i n) ++
    "\t\n\x7d\n"

end Graph

end BytecodeFlow
