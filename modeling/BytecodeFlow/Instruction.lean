import BytecodeFlow.Opcode
import BytecodeFlow.Text.Quoted

namespace BytecodeFlow

/-- The signed 64-bit word of an integer. Offsets, slots and node numbers are such words: a sum that
leaves the range comes round at the other end. -/
def word (n : Int) : Int := n.bmod 0x10000000000000000

def shortWord (n : Int) : Int := n.bmod 0x100000000

theorem word_eq_self {n : Int} (h : -0x8000000000000000 ≤ n) (h' : n < 0x8000000000000000) :
    word n = n := by
  unfold word
  exact Int.bmod_eq_of_le (by omega) (by omega)

/-- A constant as it is written. A string is bytes, which need not be text; `other` holds a tag that
names no constant. -/
inductive Constant
  | int (numeral : String)
  | long (numeral : String)
  | float (numeral : String)
  | double (numeral : String)
  | string (bytes : List UInt8)
  | class (name : String)
  | methodType (descriptor : String)
  | methodHandle (reference : String)
  | other (tag : UInt8) (text : String)
  deriving DecidableEq, Repr

namespace Constant

def tag : Constant → UInt8
  | int _ => 0
  | long _ => 1
  | float _ => 2
  | double _ => 3
  | string _ => 4
  | .class _ => 5
  | methodType _ => 6
  | methodHandle _ => 7
  | other t _ => t

def ofTag (tag : UInt8) (text : String) : Constant :=
  match tag with
  | 0 => int text
  | 1 => long text
  | 2 => float text
  | 3 => double text
  | 4 => string (Text.Utf8.encode text)
  | 5 => .class text
  | 6 => methodType text
  | 7 => methodHandle text
  | t => other t text

def value : Constant → List UInt8
  | int s => Text.Utf8.encode s
  | long s => Text.Utf8.encode s
  | float s => Text.Utf8.encode s
  | double s => Text.Utf8.encode s
  | string b => b
  | .class s => Text.Utf8.encode s
  | methodType s => Text.Utf8.encode s
  | methodHandle s => Text.Utf8.encode s
  | other _ s => Text.Utf8.encode s

def render : Constant → String
  | int s => s
  | long s => s
  | float s => s
  | double s => s
  | string b => Text.Quoted.writeBytes b
  | .class s => "class " ++ s
  | methodType s => "methodtype " ++ s
  | methodHandle s => "methodhandle " ++ s
  | other _ s => s

end Constant

structure Member where
  owner : String
  name : String
  descriptor : String
  deriving DecidableEq, Repr

def Member.render (m : Member) : String :=
  if m.owner = "" then m.name ++ m.descriptor
  else if m.descriptor.toList.head? = some '(' then m.owner ++ "." ++ m.name ++ m.descriptor
  else m.owner ++ "." ++ m.name ++ ":" ++ m.descriptor

structure SwitchCase where
  key : Int
  target : Int
  deriving DecidableEq, Repr

structure ArrayType where
  code : UInt8
  deriving DecidableEq, Repr

namespace ArrayType

def table : List (UInt8 × String × String) :=
  [(4, "boolean", "[Z"), (5, "char", "[C"), (6, "float", "[F"), (7, "double", "[D"),
   (8, "byte", "[B"), (9, "short", "[S"), (10, "int", "[I"), (11, "long", "[J")]

def name (a : ArrayType) : String :=
  match table.find? (·.1 == a.code) with
  | some (_, name, _) => name
  | none => "atype(" ++ toString a.code.toNat ++ ")"

def descriptor (a : ArrayType) : String :=
  match table.find? (·.1 == a.code) with
  | some (_, _, descriptor) => descriptor
  | none => ""

def valid (a : ArrayType) : Bool := table.any (·.1 == a.code)

def ofName? (s : String) : Option ArrayType :=
  (table.find? (·.2.1 == s)).map fun (code, _) => ⟨code⟩

end ArrayType

/-- An instruction. `target` is where a jump goes, and the default of a switch. -/
structure Instruction where
  offset : Int
  op : Opcode
  wide : Bool := false
  index : Int := 0
  increment : Int := 0
  target : Int := 0
  cases : List SwitchCase := []
  constant : Option Constant := none
  member : Option Member := none
  className : String := ""
  dims : Int := 0
  arrayType : ArrayType := ⟨0⟩
  deriving DecidableEq, Repr

namespace Instruction

def operation (i : Instruction) : Operation := i.op.operation

def switchPadding (offset : Int) : Int := Int.tmod (4 - Int.tmod (word (offset + 1)) 4) 4

def length (i : Instruction) : Int :=
  match i.operation with
  | .switch .table => 1 + switchPadding i.offset + 12 + 4 * i.cases.length
  | .switch .lookup => 1 + switchPadding i.offset + 8 + 8 * i.cases.length
  | .increment => if i.wide then 6 else 3
  | op => if i.wide then 4 else op.baseLength

def endOffset (i : Instruction) : Int := word (i.offset + i.length)

def targets (i : Instruction) : List Int :=
  match i.op.flow with
  | .goto => [i.target]
  | .branch => [i.target]
  | .jsr => [i.target]
  | .switch => i.target :: i.cases.map SwitchCase.target
  | _ => []

def localIndex (i : Instruction) : Int :=
  match i.operation.implicitSlot? with
  | some n => n
  | none => i.index

inductive MissingOperand
  | member
  | constant
  | className
  | arrayType (code : ArrayType)
  deriving DecidableEq, Repr

def MissingOperand.message : MissingOperand → String
  | .member => "missing member reference"
  | .constant => "missing constant"
  | .className => "missing class"
  | .arrayType a => "invalid array type " ++ a.name

def missingOperand? (i : Instruction) : Option MissingOperand :=
  let member := if i.member.isNone then some .member else none
  let className := if i.className = "" then some .className else none
  match i.operation with
  | .getStatic => member
  | .putStatic => member
  | .getField => member
  | .putField => member
  | .invoke _ => member
  | .constant _ => if i.constant.isNone then some .constant else none
  | .new => className
  | .newObjectArray => className
  | .checkCast => className
  | .instanceOf => className
  | .newMultiArray => className
  | .newArray => if i.arrayType.valid then none else some (.arrayType i.arrayType)
  | _ => none

def renderCase (c : SwitchCase) : String := " " ++ toString c.key ++ ":@" ++ toString c.target

def renderOperand (i : Instruction) : String :=
  match i.member, i.constant with
  | some m, _ => " " ++ m.render
  | none, some c => " " ++ c.render
  | none, none =>
    match i.operation with
    | .newMultiArray => " " ++ i.className ++ " " ++ toString i.dims
    | op =>
      if i.className ≠ "" then " " ++ i.className
      else if op = .newArray then " " ++ i.arrayType.name
      else ""

def render (i : Instruction) : String :=
  let slot := if i.operation.implicitSlot?.isSome then "" else " " ++ toString i.index
  let target := " @" ++ toString i.target
  i.op.name ++ match i.operation with
    | .increment => " " ++ toString i.index ++ " " ++ toString i.increment
    | .ret => slot
    | .load _ _ => slot
    | .store _ _ => slot
    | .switch _ => String.join (i.cases.map renderCase) ++ " default:@" ++ toString i.target
    | .goto _ => target
    | .branch _ => target
    | .jsr _ => target
    | _ => i.renderOperand

end Instruction

end BytecodeFlow
