import BytecodeFlow.Assembly.Operand
import BytecodeFlow.Method

namespace BytecodeFlow.Assembly

/-- How many characters of a line stand before its comment. A comment starts with two slashes, or
with a semicolon at the start of a word, outside of string literals. -/
def commentStart (quoted : Bool) (prev : Option Char) (n : Nat) : List Char → Nat
  | [] => n
  | c :: cs =>
    if quoted then
      if c = '\\' then
        match cs with
        | [] => n + 1
        | d :: ds => commentStart true (some d) (n + 2) ds
      else commentStart (c != '"') (some c) (n + 1) cs
    else if c = '"' then commentStart true (some c) (n + 1) cs
    else if c = ';' ∧ (prev = none ∨ prev = some ' ' ∨ prev = some '\t') then n
    else if c = '/' ∧ cs.head? = some '/' then n
    else commentStart false (some c) (n + 1) cs

def content (line : String) : List Char :=
  let cs := line.toList
  Text.trimChars (cs.take (commentStart false none 0 cs))

def isLabelChar (c : Char) : Bool := c.isAlphanum || c == '_' || c == '$'

def label? (cs : List Char) : Option (String × List Char) :=
  match cs.takeWhile isLabelChar, cs.dropWhile isLabelChar with
  | c :: name, ':' :: rest =>
    if c.isDigit then none else some (String.ofList (c :: name), Text.trimChars rest)
  | _, _ => none

theorem length_trimChars_le (cs : List Char) : (Text.trimChars cs).length ≤ cs.length := by
  unfold Text.trimChars
  have h₁ := Text.length_dropWhile_le Text.isBlank cs
  have h₂ := Text.length_dropWhile_le Text.isBlank (cs.dropWhile Text.isBlank).reverse
  simp only [List.length_reverse] at *
  omega

theorem length_of_label? {cs rest : List Char} {name : String} (h : label? cs = some (name, rest)) :
    rest.length < cs.length := by
  unfold label? at h
  split at h
  · rename_i after _ hd
    have h₁ := Text.length_dropWhile_le isLabelChar cs
    have h₂ := length_trimChars_le after
    rw [hd, List.length_cons] at h₁
    split at h
    · simp at h
    · simp only [Option.some.injEq, Prod.mk.injEq] at h
      rw [← h.2]
      omega
  · simp at h

def splitLabels (cs : List Char) : List String × List Char :=
  match h : label? cs with
  | none => ([], cs)
  | some (name, rest) =>
    have := length_of_label? h
    let (names, rest) := splitLabels rest
    (name :: names, rest)
termination_by cs.length

structure Draft where
  instr : Instruction
  target : Option String := none
  caseTargets : List String := []
  use : Option (Int × Nat) := none

def tableCases (key : Int) : List String → List (SwitchCase × String)
  | [] => []
  | label :: rest => (⟨shortWord key, 0⟩, label) :: tableCases (key + 1) rest

def lookupCase (text : String) : Except OperandError (SwitchCase × String) :=
  match Text.cutAt (· == ':') text.toList with
  | none => .error (.malformedCase text)
  | some (key, label) =>
    match Text.Integer.readDecimal 32 (String.ofList key) with
    | .error e => .error (.number e)
    | .ok n => .ok (⟨n, 0⟩, String.ofList label)

def switchOperands (instr : Instruction) (args : List String)
    (cases : List String → Except OperandError (List (SwitchCase × String))) :
    Except OperandError Draft :=
  match args.reverse with
  | label :: word :: rest =>
    if word = "default" then do
      let cs ← cases rest.reverse
      return { instr := { instr with cases := cs.map Prod.fst }
               target := some label
               caseTargets := cs.map Prod.snd }
    else .error .noDefault
  | _ => .error .noDefault

def orNumber (r : Except Text.ReadError α) : Except OperandError α := r.mapError .number

def wrongCount (args : List String) (want : Nat) : Except OperandError Draft :=
  .error (.count want args.length)

def slotOperand (instr : Instruction) (args : List String) (slots : Nat) (implicit : Option Nat) :
    Except OperandError Draft :=
  match implicit, args with
  | some n, [] => .ok { instr, use := some (n, slots) }
  | some _, _ => wrongCount args 0
  | none, [slot] => do
    let slot ← orNumber (Text.Integer.readCount slot)
    return { instr := { instr with index := slot, wide := 0xff < slot }
             use := some (slot, slots) }
  | none, _ => wrongCount args 1

def jumpOperand (instr : Instruction) (args : List String) : Except OperandError Draft :=
  match args with
  | [label] => .ok { instr, target := some label }
  | _ => wrongCount args 1

def classOperand (instr : Instruction) (args : List String) : Except OperandError Draft :=
  match args with
  | [name] => .ok { instr := { instr with className := name } }
  | _ => wrongCount args 1

def fieldOperand (instr : Instruction) (args : List String) : Except OperandError Draft :=
  match args with
  | [path, descriptor] =>
    match fieldOperand? path.toList with
    | some (owner, name) => .ok { instr := { instr with member := some ⟨owner, name, descriptor⟩ } }
    | none => .error (.malformedField path)
  | _ => wrongCount args 2

def methodOperand (instr : Instruction) (i : Invocation) (path : String) :
    Except OperandError Draft :=
  match methodOperand? path.toList with
  | some m =>
    -- only a dynamic call site has no owner
    if m.owner = "" ↔ i = .dynamic then .ok { instr := { instr with member := some m } }
    else .error (.malformedMethod path)
  | none => .error (.malformedMethod path)

def operands (instr : Instruction) (rest : String) : Except OperandError Draft :=
  let args := Text.fields rest
  match instr.operation with
  | .constant form =>
    match constantOperand (form = .pair) rest with
    | .ok c => .ok { instr := { instr with constant := some c } }
    | .error e => .error (.constant e)
  | .immediate _ =>
    match args with
    | [n] => do
      let n ← orNumber (Text.Integer.readDecimal 16 n)
      return { instr := { instr with constant := some (.int (toString n)) } }
    | _ => wrongCount args 1
  | .increment =>
    match args with
    | [slot, amount] => do
      let slot ← orNumber (Text.Integer.readCount slot)
      let amount ← orNumber (Text.Integer.readCount amount)
      let wide := 0xff < slot || amount < -128 || 127 < amount
      return { instr := { instr with index := slot, increment := amount, wide }
               use := some (slot, 1) }
    | _ => wrongCount args 2
  | .load c slot => slotOperand instr args c.slots (slot.map Fin.val)
  | .store c slot => slotOperand instr args c.slots (slot.map Fin.val)
  | .ret => slotOperand instr args 1 none
  | .goto _ => jumpOperand instr args
  | .branch _ => jumpOperand instr args
  | .jsr _ => jumpOperand instr args
  | .switch .table =>
    match args with
    | [] => .error .noLowKey
    | low :: args => do
      let low ← orNumber (Text.Integer.readDecimal 32 low)
      switchOperands instr args fun labels => .ok (tableCases low labels)
  | .switch .lookup => switchOperands instr args (·.mapM lookupCase)
  | .getStatic => fieldOperand instr args
  | .putStatic => fieldOperand instr args
  | .getField => fieldOperand instr args
  | .putField => fieldOperand instr args
  | .invoke i =>
    match args with
    | [path] => methodOperand instr i path
    | [path, _] =>
      -- the number of slots that the arguments take; it follows from the descriptor
      if i = .interface then methodOperand instr i path else .error (.malformedOperands rest)
    | _ => .error (.malformedOperands rest)
  | .new => classOperand instr args
  | .newObjectArray => classOperand instr args
  | .checkCast => classOperand instr args
  | .instanceOf => classOperand instr args
  | .newMultiArray =>
    match args with
    | [name, dims] =>
      match Text.Integer.readCount dims with
      | .ok n =>
        if 1 ≤ n ∧ n ≤ name.toList.count '[' then
          .ok { instr := { instr with className := name, dims := n } }
        else .error (.dimensions dims)
      | .error _ => .error (.dimensions dims)
    | _ => wrongCount args 2
  | .newArray =>
    match args with
    | [name] =>
      match ArrayType.ofName? name with
      | some a => .ok { instr := { instr with arrayType := a } }
      | none => .error (.elementType name)
    | _ => wrongCount args 1
  | _ =>
    match args with
    | [] => .ok { instr }
    | _ => wrongCount args 0

def splitMnemonic (cs : List Char) : String × String :=
  let isGap (c : Char) := c == ' ' || c == '\t'
  (String.ofList (cs.takeWhile (!isGap ·)),
    String.ofList (Text.trimChars (cs.dropWhile (!isGap ·))))

def instruction (offset : Int) (cs : List Char) : Except LineError Draft :=
  let (mnemonic, rest) := splitMnemonic cs
  match Opcode.ofName? mnemonic with
  | none => .error (.unknownInstruction mnemonic)
  | some op =>
    if op.operation = .wide then .error (.unknownInstruction mnemonic)
    else (operands { offset, op } rest).mapError (.operand op)

inductive Directive
  | line (number : Int)
  | maxStack (n : Int)
  | maxLocals (n : Int)
  | handler (catchType first last entry : String)
  | var (slot : Int) (name descriptor first last : String)

def slotOfDigits (s : String) : Int :=
  match Text.Integer.decimal 64 s with
  | .ok n => n
  -- the text has digits only, so that it can only be too long
  | .error _ => 0x7fffffffffffffff

def directive (cs : List Char) : Except LineError Directive :=
  let text := String.ofList cs
  let words := Text.fields text
  match words with
  | ".line" :: args =>
    match args with
    | [n] => (Text.Integer.readCount n).mapError .lineNumber |>.map .line
    | _ => .error (.lineCount args.length)
  | ".limit" :: args =>
    match args with
    | [kind, n] =>
      match Text.Integer.readCount n with
      | .error e => .error (.limitNumber e)
      | .ok n =>
        match kind with
        | "stack" => .ok (.maxStack n)
        | "locals" => .ok (.maxLocals n)
        | _ => .error (.unknownLimit kind)
    | _ => .error (.limitCount args.length)
  | ".catch" :: _ =>
    match Text.asciiFields text with
    | [".catch", kind, "from", first, "to", last, "using", entry] =>
      .ok (.handler (if kind = "all" then "" else kind) first last entry)
    | _ => .error .malformedCatch
  | ".var" :: _ =>
    match Text.asciiFields text with
    | [".var", slot, "is", name, descriptor, "from", first, "to", last] =>
      if slot.toList.all Char.isDigit then
        .ok (.var (slotOfDigits slot) name descriptor first last)
      else .error .malformedVar
    | _ => .error .malformedVar
  | word :: _ => .error (.unknownDirective word)
  | [] => .error (.unknownDirective "")

end BytecodeFlow.Assembly
