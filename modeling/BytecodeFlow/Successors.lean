import BytecodeFlow.Frame
import BytecodeFlow.Graph

namespace BytecodeFlow

/-- The successors of a node in a frame. A null test of a value that the frame knows to be null or
not is decided: one target remains, and `cause` is the node that produced the value. -/
inductive Successors
  | all (targets : List Nat)
  | decided (remaining unavailable : Nat) (cause : Int)
  deriving DecidableEq, Repr

def Successors.targets : Successors → List Nat
  | all targets => targets
  | decided remaining _ _ => [remaining]

def bracketed [ToString α] (xs : List α) : String :=
  "[" ++ " ".intercalate (xs.map toString) ++ "]"

def Successors.decisionMessage (node unavailable : Nat) (cause : Int) : String :=
  "node " ++ toString node ++ ": branch targets " ++ bracketed [unavailable] ++
    " unavailable, value produced by node " ++ toString cause

namespace Node

def nullness (t : ValueType) : Option Bool :=
  if t.isNull then some true else if t.isNonNull then some false else none

def testNull (jumpsOnNull : Bool) (next target : Nat) (f : Frame) : Except Fault Successors := do
  let top ← f.peek 0
  match nullness top.type with
  | none => return .all [next, target]
  | some isNull =>
    if isNull = jumpsOnNull then return .decided target next top.producer
    else return .decided next target top.producer

def returnNode (slot : Int) (nodes : Nat) (f : Frame) : Except Fault Nat := do
  let e ← f.getLocal slot
  match e.type with
  | .returnAddress t =>
    if 0 ≤ t ∧ t < nodes then return t.toNat else .error (.returnAddress slot t)
  | t => .error (.notReturnAddress slot t)

/-- The successors of a node of a graph with so many nodes. `f` is the frame before the instruction.
A subroutine call goes to the subroutine only. -/
def successors (n : Node) (nodes : Nat) (f : Frame) : Except Fault Successors :=
  match n.instr.operation with
  | .branch (.null jumpsOnNull) =>
    match n.flow with
    | [next, target] => testNull jumpsOnNull next target f
    | flow => .ok (.all flow)
  | .jsr _ => .ok (.all n.flow.getLast?.toList)
  | .ret => return .all [← returnNode n.instr.index nodes f]
  | _ => .ok (.all n.flow)

end Node

namespace Method

def receiver? (m : Method) : Option ValueType :=
  if m.static then none
  else if m.isConstructor then some (.uninitialized m.className noNode)
  else some (.nonNullObject m.className)

def slotsOf (t : ValueType) : List ValueType :=
  if t.size = 2 then [t, .top] else [t]

def startFrame (m : Method) : Except Failure Frame :=
  match Descriptor.method m.descriptor with
  | .error e => .error (.signature m e)
  | .ok signature =>
    let held := (m.receiver?.toList ++ signature.params).flatMap slotsOf
    if m.code.maxLocals < held.length then .error (.parameterSlots m held.length)
    else if Frame.slotLimit < m.code.maxLocals then .error .slotLimit
    else
      let free := m.code.maxLocals.toNat - held.length
      .ok ⟨(held ++ List.replicate free ValueType.top).map (⟨·, noNode⟩), []⟩

end Method

end BytecodeFlow
