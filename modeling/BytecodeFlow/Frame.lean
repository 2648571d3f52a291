import BytecodeFlow.Descriptor
import BytecodeFlow.Method
import BytecodeFlow.Opcode

namespace BytecodeFlow

/-- A value type and the node that produced the value, or `noNode` for a value that no instruction
of the method did. -/
structure Entry where
  type : ValueType
  producer : Int
  deriving DecidableEq, Repr

inductive Fault
  | emptyStack
  | depth (depth : Int) (entries : Nat)
  | slot (slot : Int) (slots : Nat)
  | unsupported (node : Int) (op : Opcode)
  | notReturnAddress (slot : Int) (held : ValueType)
  | returnAddress (slot : Int) (target : Int)
  deriving DecidableEq, Repr

def Fault.message : Fault → String
  | emptyStack => "pop from empty stack"
  | depth d n =>
    "peek at depth " ++ toString d ++ " of stack with " ++ toString n ++ " entries"
  | slot i n => "local " ++ toString i ++ " out of range [0, " ++ toString n ++ ")"
  | unsupported n op => "node " ++ toString n ++ ": unsupported opcode " ++ op.name
  | notReturnAddress i t =>
    "ret " ++ toString i ++ ": local holds " ++ t.render ++ ", not a return address"
  | returnAddress i t =>
    "ret " ++ toString i ++ ": return address " ++ toString t ++ " out of range"

structure Frame where
  locals : List Entry
  stack : List Entry
  deriving DecidableEq, Repr

namespace Frame

def blank (maxLocals : Nat) : Frame := ⟨List.replicate maxLocals ⟨.top, noNode⟩, []⟩

/-- The most local slots that memory can hold. -/
def slotLimit : Nat := 0x200000000000

def blank? (maxLocals : Int) : Option Frame :=
  if 0 ≤ maxLocals ∧ maxLocals ≤ slotLimit then some (blank maxLocals.toNat) else none

def push (f : Frame) (e : Entry) : Frame := { f with stack := e :: f.stack }

def pop (f : Frame) : Except Fault (Entry × Frame) :=
  match f.stack with
  | [] => .error .emptyStack
  | e :: rest => .ok (e, { f with stack := rest })

def discard (f : Frame) (n : Nat) : Frame := { f with stack := f.stack.drop n }

def popMany (f : Frame) (n : Nat) : Except Fault Frame :=
  if n ≤ f.stack.length then .ok (f.discard n) else .error .emptyStack

def peek (f : Frame) (depth : Int) : Except Fault Entry :=
  match depth with
  | .ofNat n =>
    match f.stack[n]? with
    | some e => .ok e
    | none => .error (.depth n f.stack.length)
  | .negSucc n => .error (.depth (.negSucc n) f.stack.length)

def setProducer (f : Frame) (depth producer : Int) : Except Fault Frame := do
  let e ← f.peek depth
  return { f with stack := f.stack.set depth.toNat { e with producer } }

def clearStack (f : Frame) : Frame := { f with stack := [] }

def getLocal (f : Frame) (slot : Int) : Except Fault Entry :=
  match slot with
  | .ofNat n =>
    match f.locals[n]? with
    | some e => .ok e
    | none => .error (.slot n f.locals.length)
  | .negSucc n => .error (.slot (.negSucc n) f.locals.length)

def setLocal (f : Frame) (slot : Int) (e : Entry) : Except Fault Frame :=
  if 0 ≤ slot ∧ slot < f.locals.length then
    .ok { f with locals := f.locals.set slot.toNat e }
  else .error (.slot slot f.locals.length)

def retype (old new : ValueType) (e : Entry) : Entry :=
  if e.type = old then { e with type := new } else e

def replace (f : Frame) (old new : ValueType) : Frame :=
  ⟨f.locals.map (retype old new), f.stack.map (retype old new)⟩

def renderEntry (e : Entry) : String := e.type.render ++ "<" ++ toString e.producer

def render (f : Frame) : String :=
  let locals := f.locals.zipIdx.map fun (e, i) => " " ++ toString i ++ "=" ++ renderEntry e
  let stack := f.stack.reverse.map fun e => " " ++ renderEntry e
  "locals:" ++ String.join locals ++ " stack:" ++ String.join stack

end Frame

inductive ConstantFault
  | missing
  | unknown (tag : UInt8)
  deriving DecidableEq, Repr

def ConstantFault.message : ConstantFault → String
  | missing => "ldc without constant"
  | unknown tag => "unknown constant kind " ++ toString tag.toNat

inductive Failure
  | fault (cause : Fault)
  /-- The receiver of `node` is null, which `producer` produced. -/
  | nullReceiver (node producer : Int)
  | receiver (cause : Descriptor.Error)
  | member (instr : Instruction) (cause : Descriptor.Error)
  | constant (node : Int) (cause : ConstantFault)
  | noMember
  | signature (method : Method) (cause : Descriptor.Error)
  | parameterSlots (method : Method) (need : Nat)
  | slotLimit
  | nodeRange (node : Int) (nodes : Nat)
  | cancelled
  | visitor (message : String)
  | crash (message : String)
  | unbounded
  deriving DecidableEq, Repr

def Failure.message : Failure → String
  | fault f => "frame fault: " ++ f.message
  | nullReceiver n p =>
    "node " ++ toString n ++ ": receiver is null, produced by node " ++ toString p
  | receiver e => e.message
  | member i e => i.render ++ ": " ++ e.message
  | constant n e => "node " ++ toString n ++ ": " ++ e.message
  | noMember => "runtime error: invalid memory address or nil pointer dereference"
  | signature m e => "method " ++ m.render ++ ": " ++ e.message
  | parameterSlots m need =>
    "method " ++ m.render ++ ": " ++ toString need ++ " parameter slots exceed max locals " ++
      toString m.code.maxLocals
  | slotLimit => "runtime error: makeslice: len out of range"
  | nodeRange i n => "cflow: node " ++ toString i ++ " out of range [0, " ++ toString n ++ ")"
  | cancelled => "context canceled"
  | visitor s => s
  | crash s => s
  | unbounded => "step bound exceeded"

end BytecodeFlow
