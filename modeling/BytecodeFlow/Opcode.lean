import BytecodeFlow.Operation

namespace BytecodeFlow

/-- An opcode is one byte, whether or not the machine defines it. -/
structure Opcode where
  code : UInt8
  deriving DecidableEq, Repr

namespace Opcode

def names : Array String := #[
   "nop", "aconst_null", "iconst_m1", "iconst_0", "iconst_1", "iconst_2", "iconst_3", "iconst_4",
   "iconst_5", "lconst_0", "lconst_1", "fconst_0", "fconst_1", "fconst_2", "dconst_0",
   "dconst_1", "bipush", "sipush", "ldc", "ldc_w", "ldc2_w", "iload", "lload", "fload", "dload",
   "aload", "iload_0", "iload_1", "iload_2", "iload_3", "lload_0", "lload_1", "lload_2",
   "lload_3", "fload_0", "fload_1", "fload_2", "fload_3", "dload_0", "dload_1", "dload_2",
   "dload_3", "aload_0", "aload_1", "aload_2", "aload_3", "iaload", "laload", "faload", "daload",
   "aaload", "baload", "caload", "saload", "istore", "lstore", "fstore", "dstore", "astore",
   "istore_0", "istore_1", "istore_2", "istore_3", "lstore_0", "lstore_1", "lstore_2",
   "lstore_3", "fstore_0", "fstore_1", "fstore_2", "fstore_3", "dstore_0", "dstore_1",
   "dstore_2", "dstore_3", "astore_0", "astore_1", "astore_2", "astore_3", "iastore", "lastore",
   "fastore", "dastore", "aastore", "bastore", "castore", "sastore", "pop", "pop2", "dup",
   "dup_x1", "dup_x2", "dup2", "dup2_x1", "dup2_x2", "swap", "iadd", "ladd", "fadd", "dadd",
   "isub", "lsub", "fsub", "dsub", "imul", "lmul", "fmul", "dmul", "idiv", "ldiv", "fdiv",
   "ddiv", "irem", "lrem", "frem", "drem", "ineg", "lneg", "fneg", "dneg", "ishl", "lshl",
   "ishr", "lshr", "iushr", "lushr", "iand", "land", "ior", "lor", "ixor", "lxor", "iinc", "i2l",
   "i2f", "i2d", "l2i", "l2f", "l2d", "f2i", "f2l", "f2d", "d2i", "d2l", "d2f", "i2b", "i2c",
   "i2s", "lcmp", "fcmpl", "fcmpg", "dcmpl", "dcmpg", "ifeq", "ifne", "iflt", "ifge", "ifgt",
   "ifle", "if_icmpeq", "if_icmpne", "if_icmplt", "if_icmpge", "if_icmpgt", "if_icmple",
   "if_acmpeq", "if_acmpne", "goto", "jsr", "ret", "tableswitch", "lookupswitch", "ireturn",
   "lreturn", "freturn", "dreturn", "areturn", "return", "getstatic", "putstatic", "getfield",
   "putfield", "invokevirtual", "invokespecial", "invokestatic", "invokeinterface",
   "invokedynamic", "new", "newarray", "anewarray", "arraylength", "athrow", "checkcast",
   "instanceof", "monitorenter", "monitorexit", "wide", "multianewarray", "ifnull", "ifnonnull",
   "goto_w", "jsr_w"]

def name (op : Opcode) : String :=
  match names[op.code.toNat]? with
  | some s => s
  | none => "opcode(" ++ toString op.code.toNat ++ ")"

def valid (op : Opcode) : Bool := op.code.toNat < names.size

def ofName? (s : String) : Option Opcode := (names.findIdx? (· == s)).map fun i => ⟨i.toUInt8⟩

def numericAt (i : Nat) : Numeric :=
  match i % 4 with
  | 0 => .int
  | 1 => .long
  | 2 => .float
  | _ => .double

def categoryAt (i : Nat) : Category := if i < 4 then .number (numericAt i) else .reference

def elementAt (i : Nat) : Category := if i ≤ 4 then categoryAt i else .number .int

def slotAt (i : Nat) : Option (Fin 4) := some (Fin.ofNat 4 i)

def shuffleAt : Nat → Shuffle
  | 0 => .pop
  | 1 => .pop2
  | 2 => .dup
  | 3 => .dupX1
  | 4 => .dupX2
  | 5 => .dup2
  | 6 => .dup2X1
  | 7 => .dup2X2
  | _ => .swap

def conversionAt : Nat → Numeric
  | 0 => .long
  | 1 => .float
  | 2 => .double
  | 3 => .int
  | 4 => .float
  | 5 => .double
  | 6 => .int
  | 7 => .long
  | 8 => .double
  | 9 => .int
  | 10 => .long
  | 11 => .float
  | _ => .int

def invocationAt : Nat → Invocation
  | 0 => .virtual
  | 1 => .special
  | 2 => .static
  | 3 => .interface
  | _ => .dynamic

def operationAt (c : Nat) : Operation :=
  if c = 0 then .nop
  else if c = 1 then .pushNull
  else if c ≤ 8 then .push .int
  else if c ≤ 10 then .push .long
  else if c ≤ 13 then .push .float
  else if c ≤ 15 then .push .double
  else if c ≤ 17 then .immediate (c == 17)
  else if c = 18 then .constant .short
  else if c = 19 then .constant .long
  else if c = 20 then .constant .pair
  else if c ≤ 25 then .load (categoryAt (c - 21)) none
  else if c ≤ 45 then .load (categoryAt ((c - 26) / 4)) (slotAt (c - 26))
  else if c ≤ 53 then .arrayLoad (elementAt (c - 46))
  else if c ≤ 58 then .store (categoryAt (c - 54)) none
  else if c ≤ 78 then .store (categoryAt ((c - 59) / 4)) (slotAt (c - 59))
  else if c ≤ 86 then .arrayStore
  else if c ≤ 95 then .shuffle (shuffleAt (c - 87))
  else if c ≤ 107 then .binary (numericAt (c - 96)) false
  else if c ≤ 115 then .binary (numericAt (c - 108)) true
  else if c ≤ 119 then .unary (numericAt (c - 116))
  else if c ≤ 131 then .binary (if c % 2 = 0 then .int else .long) false
  else if c = 132 then .increment
  else if c ≤ 147 then .unary (conversionAt (c - 133))
  else if c ≤ 152 then .binary .int false
  else if c ≤ 158 then .branch .zero
  else if c ≤ 166 then .branch .pair
  else if c = 167 then .goto false
  else if c = 168 then .jsr false
  else if c = 169 then .ret
  else if c = 170 then .switch .table
  else if c = 171 then .switch .lookup
  else if c ≤ 176 then .returnValue
  else if c = 177 then .returnVoid
  else if c = 178 then .getStatic
  else if c = 179 then .putStatic
  else if c = 180 then .getField
  else if c = 181 then .putField
  else if c ≤ 186 then .invoke (invocationAt (c - 182))
  else if c = 187 then .new
  else if c = 188 then .newArray
  else if c = 189 then .newObjectArray
  else if c = 190 then .arrayLength
  else if c = 191 then .throw
  else if c = 192 then .checkCast
  else if c = 193 then .instanceOf
  else if c ≤ 195 then .monitor
  else if c = 196 then .wide
  else if c = 197 then .newMultiArray
  else if c = 198 then .branch (.null true)
  else if c = 199 then .branch (.null false)
  else if c = 200 then .goto true
  else if c = 201 then .jsr true
  else .undefined

def operation (op : Opcode) : Operation := operationAt op.code.toNat

def flow (op : Opcode) : Flow := op.operation.flow

def throws (op : Opcode) : Bool := op.operation.throws

end Opcode

end BytecodeFlow
