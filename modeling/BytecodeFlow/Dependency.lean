import BytecodeFlow.BlockSort
import BytecodeFlow.Frame

namespace BytecodeFlow

structure Site where
  index : Int
  instr : Instruction
  line : Int := -1

namespace Receiver

def depth? (instr : Instruction) : Except Failure (Option Nat) :=
  match instr.operation with
  | .getField => .ok (some 0)
  | .arrayLength => .ok (some 0)
  | .putField => .ok (some 1)
  | .arrayLoad _ => .ok (some 1)
  | .arrayStore => .ok (some 2)
  | .invoke .virtual => invoked
  | .invoke .special => invoked
  | .invoke .interface => invoked
  | _ => .ok none
where
  invoked : Except Failure (Option Nat) :=
    match instr.member with
    | none => .error .noMember
    | some m =>
      match Descriptor.method m.descriptor with
      | .ok s => .ok (some s.params.length)
      | .error e => .error (.receiver e)

def type? (site : Site) (f : Frame) : Except Failure (Option ValueType) := do
  match ← depth? site.instr with
  | none => return none
  | some d =>
    match f.peek d with
    | .error e => .error (.fault e)
    | .ok e =>
      if e.type.isNull then .error (.nullReceiver site.index e.producer)
      else return some e.type

end Receiver

/-- A use of a member or class. The context is the class of the receiver, or the owner of a static
member; it is empty if there is neither. -/
structure Dependency where
  node : Int
  offset : Int
  line : Int
  op : Opcode
  member : Option Member := none
  className : String := ""
  context : String := ""
  deriving DecidableEq, Repr

namespace Dependency

def memberOf (instr : Instruction) : Option Member :=
  if instr.operation = .invoke .dynamic then none else instr.member

def classOf (instr : Instruction) : String :=
  match memberOf instr, instr.constant with
  | some m, _ => m.owner
  -- a class that is loaded as a constant
  | none, some (.class name) => if instr.className = "" then name else instr.className
  | none, _ => instr.className

def contextOf (instr : Instruction) (receiver : Option ValueType) : String :=
  match receiver, memberOf instr with
  | some t, _ => t.initialized.name
  | none, some m => m.owner
  | none, none => ""

def ofSite? (site : Site) (f : Frame) : Except Failure (Option Dependency) := do
  let receiver ← Receiver.type? site f
  let d : Dependency := {
    node := site.index
    offset := site.instr.offset
    line := site.line
    op := site.instr.op
    member := memberOf site.instr
    className := classOf site.instr
    context := contextOf site.instr receiver }
  return if d.className = "" ∧ d.context = "" then none else some d

def before (d e : Dependency) : Bool := word (d.node - e.node) < 0

/-- The dependencies by node; those of one node keep their order. Differences of nodes that are not
negative are exact, and then every stable sort gives this list; others may come round, and which
nodes are compared matters. -/
def sorted (ds : List Dependency) : List Dependency :=
  if ds.all (0 ≤ ·.node) then ds.mergeSort (fun d e => d.node ≤ e.node)
  else BlockSort.sort before ds

def label (d : Dependency) : String := toString d.node ++ ":" ++ d.context

end Dependency

/-- An observer with a state of type `σ`. `visit` may refuse an instruction: with `nullReceiver` the
path ends there, and with any other failure the whole exploration. -/
structure Visitor (σ : Type) where
  visit : Site → Frame → σ → Except Failure Unit × σ
  cancelled : σ → Bool
  dependencies : σ → List Dependency := fun _ => []

namespace Visitor

def accepting (cancelled : Bool) : Visitor Unit where
  visit _ _ s := (.ok (), s)
  cancelled _ := cancelled

def collector (cancelled : Bool) : Visitor (List Dependency) where
  visit site f found :=
    match Dependency.ofSite? site f with
    | .error e => (.error e, found)
    | .ok none => (.ok (), found)
    | .ok (some d) => (.ok (), found ++ [d])
  cancelled _ := cancelled
  dependencies := Dependency.sorted

end Visitor

end BytecodeFlow
