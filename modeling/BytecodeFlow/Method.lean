import BytecodeFlow.Instruction

namespace BytecodeFlow

/-- An entry of the exception table: the handler at `entry` protects the offsets from `first` up to
`last`, which is not among them. An empty catch type catches everything. -/
structure Protection where
  first : Int
  last : Int
  entry : Int
  catchType : String
  deriving DecidableEq, Repr

def Protection.covers (p : Protection) (offset : Int) : Bool := p.first ≤ offset && offset < p.last

structure LineEntry where
  start : Int
  line : Int
  deriving DecidableEq, Repr

structure LocalVariable where
  slot : Int
  name : String
  descriptor : String
  start : Int
  length : Int
  deriving DecidableEq, Repr

def LocalVariable.covers (v : LocalVariable) (offset : Int) : Bool :=
  v.start ≤ offset && offset < word (v.start + v.length)

structure Code where
  instructions : List Instruction := []
  handlers : List Protection := []
  lines : List LineEntry := []
  locals : List LocalVariable := []
  maxStack : Int := 0
  maxLocals : Int := 0
  deriving DecidableEq, Repr

structure Method where
  className : String
  name : String
  descriptor : String
  static : Bool
  code : Code
  deriving DecidableEq, Repr

def constructorName : String := "<init>"

namespace Code

def length (c : Code) : Int := (c.instructions.getLast?.map Instruction.endOffset).getD 0

/-- The line table by start offset; entries with one start keep their order. -/
def sortedLines (c : Code) : List LineEntry := c.lines.mergeSort fun a b => a.start ≤ b.start

/-- The line at an offset: of the entries that start at or before it, the first with the greatest
start; -1 if there is none. -/
def lineAt (c : Code) (offset : Int) : Int :=
  (c.lines.foldl (fun best e => if e.start ≤ offset ∧ best.start < e.start then e else best)
    ⟨-1, -1⟩).line

def localAt? (c : Code) (slot offset : Int) : Option LocalVariable :=
  c.locals.find? fun v => v.slot == slot && v.covers offset

end Code

namespace Method

def isConstructor (m : Method) : Bool := m.name == constructorName

def render (m : Method) : String := m.className ++ "." ++ m.name ++ m.descriptor

def key (m : Method) : String := m.name ++ m.descriptor

inductive Defect
  | noCode
  | opcode (index : Nat) (op : Opcode)
  | offset (index : Nat) (offset : Int)
  | operand (index : Nat) (op : Opcode) (cause : Instruction.MissingOperand)
  | emptyRange (index : Nat) (first last : Int)
  deriving DecidableEq, Repr

def Defect.message : Defect → String
  | noCode => "no code"
  | opcode i op => "instruction " ++ toString i ++ ": invalid opcode " ++ toString op.code.toNat
  | offset i n => "instruction " ++ toString i ++ ": offset " ++ toString n ++ " not increasing"
  | operand i op cause =>
    "instruction " ++ toString i ++ " (" ++ op.name ++ "): " ++ cause.message
  | emptyRange i a b =>
    "handler " ++ toString i ++ ": empty range [" ++ toString a ++ ", " ++ toString b ++ ")"

/-- The first defect of instructions from number `i` on, after one at offset `prev`. -/
def instructionDefect? : (i : Nat) → (prev : Int) → List Instruction → Option Defect
  | _, _, [] => none
  | i, prev, ins :: rest =>
    if !ins.op.valid || ins.operation = .wide then some (.opcode i ins.op)
    else if ins.offset ≤ prev then some (.offset i ins.offset)
    else match ins.missingOperand? with
      | some cause => some (.operand i ins.op cause)
      | none => instructionDefect? (i + 1) ins.offset rest

def handlerDefect? : (i : Nat) → List Protection → Option Defect
  | _, [] => none
  | i, p :: rest =>
    if p.last ≤ p.first then some (.emptyRange i p.first p.last) else handlerDefect? (i + 1) rest

def defect? (m : Method) : Option Defect :=
  if m.code.instructions.isEmpty then some .noCode
  else (instructionDefect? 0 (-1) m.code.instructions).or (handlerDefect? 0 m.code.handlers)

def defectMessage (m : Method) (d : Defect) : String := "method " ++ m.render ++ ": " ++ d.message

end Method

end BytecodeFlow
