import BytecodeFlow.ValueType

/-!
What an instruction does, apart from its operands. Opcodes that differ only in a value the analysis
does not follow (which number a constant pushes, which arithmetic is done) are one operation here.
-/

namespace BytecodeFlow

inductive Numeric
  | int
  | long
  | float
  | double
  deriving DecidableEq, Repr

def Numeric.type : Numeric → ValueType
  | .int => .int
  | .long => .long
  | .float => .float
  | .double => .double

inductive Category
  | number (k : Numeric)
  | reference
  deriving DecidableEq, Repr

def Category.slots : Category → Nat
  | .number .long => 2
  | .number .double => 2
  | _ => 1

/-- The three encodings of a constant load: a short index, a long one, and a two-word value. -/
inductive ConstantForm
  | short
  | long
  | pair
  deriving DecidableEq, Repr

inductive Shuffle
  | pop
  | pop2
  | dup
  | dupX1
  | dupX2
  | dup2
  | dup2X1
  | dup2X2
  | swap
  deriving DecidableEq, Repr

inductive Test
  | zero
  | pair
  | null (jumpsOnNull : Bool)
  deriving DecidableEq, Repr

inductive SwitchForm
  | table
  | lookup
  deriving DecidableEq, Repr

inductive Invocation
  | virtual
  | special
  | static
  | interface
  | dynamic
  deriving DecidableEq, Repr

/-- An operation of the machine. A load or store names its slot if the opcode fixes it, and a binary
operation says whether it divides. -/
inductive Operation
  | nop
  | pushNull
  | push (k : Numeric)
  | immediate (long : Bool)
  | constant (form : ConstantForm)
  | load (c : Category) (slot : Option (Fin 4))
  | store (c : Category) (slot : Option (Fin 4))
  | arrayLoad (c : Category)
  | arrayStore
  | shuffle (s : Shuffle)
  | unary (k : Numeric)
  | binary (k : Numeric) (divides : Bool)
  | increment
  | branch (t : Test)
  | goto (long : Bool)
  | jsr (long : Bool)
  | ret
  | switch (form : SwitchForm)
  | returnValue
  | returnVoid
  | getStatic
  | putStatic
  | getField
  | putField
  | invoke (i : Invocation)
  | new
  | newArray
  | newObjectArray
  | newMultiArray
  | arrayLength
  | throw
  | checkCast
  | instanceOf
  | monitor
  | wide
  | undefined
  deriving DecidableEq, Repr

inductive Flow
  | next
  | goto
  | branch
  | switch
  | jsr
  | ret
  | leave
  | throw
  deriving DecidableEq, Repr

def Flow.name : Flow → String
  | .next => "next"
  | .goto => "goto"
  | .branch => "branch"
  | .switch => "switch"
  | .jsr => "jsr"
  | .ret => "ret"
  | .leave => "return"
  | .throw => "throw"

namespace Operation

def flow : Operation → Flow
  | .goto _ => .goto
  | .branch _ => .branch
  | .switch _ => .switch
  | .jsr _ => .jsr
  | .ret => .ret
  | .returnValue => .leave
  | .returnVoid => .leave
  | .throw => .throw
  | _ => .next

def throws : Operation → Bool
  | .constant form => form != .pair
  | .arrayLoad _ => true
  | .arrayStore => true
  | .binary .int divides => divides
  | .binary .long divides => divides
  | .returnValue => true
  | .returnVoid => true
  | .getStatic => true
  | .putStatic => true
  | .getField => true
  | .putField => true
  | .invoke _ => true
  | .new => true
  | .newArray => true
  | .newObjectArray => true
  | .newMultiArray => true
  | .arrayLength => true
  | .throw => true
  | .checkCast => true
  | .instanceOf => true
  | .monitor => true
  | _ => false

def implicitSlot? : Operation → Option Nat
  | .load _ slot => slot.map Fin.val
  | .store _ slot => slot.map Fin.val
  | _ => none

def isLoad : Operation → Bool
  | .load _ _ => true
  | _ => false

def isStore : Operation → Bool
  | .store _ _ => true
  | _ => false

def baseLength : Operation → Nat
  | .immediate long => if long then 3 else 2
  | .constant form => if form = .short then 2 else 3
  | .load _ slot => if slot.isSome then 1 else 2
  | .store _ slot => if slot.isSome then 1 else 2
  | .ret => 2
  | .newArray => 2
  | .increment => 3
  | .getStatic => 3
  | .putStatic => 3
  | .getField => 3
  | .putField => 3
  | .invoke i => if i = .interface ∨ i = .dynamic then 5 else 3
  | .new => 3
  | .newObjectArray => 3
  | .checkCast => 3
  | .instanceOf => 3
  | .goto long => if long then 5 else 3
  | .jsr long => if long then 5 else 3
  | .branch _ => 3
  | .newMultiArray => 4
  | .switch _ => 0
  | _ => 1

end Operation

end BytecodeFlow
