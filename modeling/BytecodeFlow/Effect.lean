import BytecodeFlow.Frame

/-!
The effect of one instruction on a frame. Values that an instruction creates are attributed to its
node; values that it only moves keep their producer.
-/

namespace BytecodeFlow.Effect

/-- The method whose local variable table is consulted, and whether it is: a null stored into a
declared variable then takes the declared type, so that later tests do not decide on it. -/
structure Context where
  code : Code
  declaredLocals : Bool

def isPair (e : Entry) : Bool := e.type.size == 2

def shuffle : Shuffle → List Entry → Except Fault (List Entry)
  | .pop, _ :: s => .ok s
  | .pop2, a :: s =>
    if isPair a then .ok s
    else match s with
      | _ :: s => .ok s
      | [] => .error .emptyStack
  | .dup, a :: s => .ok (a :: a :: s)
  | .dupX1, a :: b :: s => .ok (a :: b :: a :: s)
  | .dupX2, a :: b :: s =>
    if isPair b then .ok (a :: b :: a :: s)
    else match s with
      | c :: s => .ok (a :: b :: c :: a :: s)
      | [] => .error .emptyStack
  -- whether a value takes two words is asked before it is popped, and that fails in its own way
  | .dupX2, [_] => .error (.depth 0 0)
  | .dup2, a :: s =>
    if isPair a then .ok (a :: a :: s)
    else match s with
      | b :: s => .ok (a :: b :: a :: b :: s)
      | [] => .error .emptyStack
  | .dup2X1, a :: s =>
    match isPair a, s with
    | true, b :: s => .ok (a :: b :: a :: s)
    | false, b :: c :: s => .ok (a :: b :: c :: a :: b :: s)
    | _, _ => .error .emptyStack
  | .dup2X2, a :: s =>
    if isPair a then
      match s with
      | [] => .error (.depth 0 0)
      | b :: s =>
        if isPair b then .ok (a :: b :: a :: s)
        else match s with
          | c :: s => .ok (a :: b :: c :: a :: s)
          | [] => .error .emptyStack
    else match s with
      | [] => .error .emptyStack
      | [_] => .error (.depth 0 0)
      | b :: c :: s =>
        if isPair c then .ok (a :: b :: c :: a :: b :: s)
        else match s with
          | d :: s => .ok (a :: b :: c :: d :: a :: b :: s)
          | [] => .error .emptyStack
  | .swap, a :: b :: s => .ok (b :: a :: s)
  | .pop2, [] => .error (.depth 0 0)
  | .dup2, [] => .error (.depth 0 0)
  | .dup2X1, [] => .error (.depth 0 0)
  | .dup2X2, [] => .error (.depth 0 0)
  | _, _ => .error .emptyStack

def constantType : Constant → Except ConstantFault ValueType
  | .int _ => .ok .int
  | .long _ => .ok .long
  | .float _ => .ok .float
  | .double _ => .ok .double
  | .string _ => .ok (.nonNullObject stringClass)
  | .class _ => .ok (.nonNullObject classClass)
  | .methodType _ => .ok (.nonNullObject methodTypeClass)
  | .methodHandle _ => .ok (.nonNullObject methodHandleClass)
  | .other tag _ => .error (.unknown tag)

def arrayOf (className : String) : String :=
  if isArrayName className then "[" ++ className else "[L" ++ className ++ ";"

def elementType (c : Category) (array : ValueType) : ValueType :=
  match c with
  | .number k => k.type
  | .reference =>
    if array.isNull then .null
    else
      let element := Descriptor.element array
      if element.isReference then element else .object objectClass

def loadedType (c : Category) (held : ValueType) : ValueType :=
  match c with
  | .number k => k.type
  | .reference =>
    if held.isReference || held.kind = .returnAddress then held else .object objectClass

def castType (className : String) (t : ValueType) : ValueType :=
  if t.isNull then t
  else if t.isNonNull then .nonNullObject className
  else .object className

def thrownType (t : ValueType) : ValueType :=
  if t.isNull then .nonNullObject nullPointerClass else t

def storedType (ctx : Context) (instr : Instruction) (t : ValueType) : ValueType :=
  if t.isNull && ctx.declaredLocals then
    -- a variable is in scope from the end of the store that gives it its first value
    match ctx.code.localAt? instr.localIndex instr.endOffset with
    | none => t
    | some v =>
      match Descriptor.field v.descriptor with
      | .ok declared => if declared.isReference then declared else t
      | .error _ => t
  else t

/-- Ends the life of a two-word value whose second half is about to be overwritten. -/
def clobber (node slot : Int) (f : Frame) : Except Fault Frame :=
  if 0 < slot then do
    let e ← f.getLocal (slot - 1)
    if isPair e then f.setLocal (slot - 1) ⟨.top, node⟩ else return f
  else return f

def store (ctx : Context) (node : Int) (instr : Instruction) (f : Frame) : Except Fault Frame := do
  let slot := instr.localIndex
  let (value, f) ← f.pop
  let value := { value with type := storedType ctx instr value.type }
  let f ← clobber node slot f
  let f ← f.setLocal slot value
  if isPair value then f.setLocal (slot + 1) ⟨.top, node⟩ else return f

def load (c : Category) (instr : Instruction) (f : Frame) : Except Fault Frame := do
  let e ← f.getLocal instr.localIndex
  return f.push { e with type := loadedType c e.type }

def popPush (f : Frame) (n : Nat) (e : Entry) : Except Fault Frame := do
  return (← f.popMany n).push e

def orFault (r : Except Fault α) : Except Failure α := r.mapError .fault

def fieldType (instr : Instruction) : Except Failure ValueType :=
  match instr.member with
  | none => .error .noMember
  | some m => (Descriptor.field m.descriptor).mapError (.member instr)

def hasReceiver : Invocation → Bool
  | .static => false
  | .dynamic => false
  | _ => true

/-- Takes the receiver off the stack. Once its constructor has run, an object is initialized
wherever it is held. -/
def popReceiver (i : Invocation) (m : Member) (f : Frame) : Except Fault Frame := do
  if hasReceiver i then
    let (receiver, f) ← f.pop
    if i = .special ∧ m.name = constructorName ∧ receiver.type.kind = .uninitialized then
      return f.replace receiver.type receiver.type.initialized
    else return f
  else return f

def invoke (node : Int) (i : Invocation) (instr : Instruction) (f : Frame) :
    Except Failure Frame :=
  match instr.member with
  | none => .error .noMember
  | some m => do
    let signature ← (Descriptor.method m.descriptor).mapError (.member instr)
    let f ← orFault (f.popMany signature.params.length)
    let f ← orFault (popReceiver i m f)
    match signature.result with
    | some t => return f.push ⟨t, node⟩
    | none => return f

def testSize : Test → Nat
  | .pair => 2
  | _ => 1

def apply (ctx : Context) (node : Int) (instr : Instruction) (f : Frame) : Except Failure Frame :=
  let created (t : ValueType) : Entry := ⟨t, node⟩
  match instr.operation with
  | .nop => .ok f
  | .goto _ => .ok f
  | .ret => .ok f
  | .returnVoid => .ok f
  | .pushNull => .ok (f.push (created .null))
  | .push k => .ok (f.push (created k.type))
  | .immediate _ => .ok (f.push (created .int))
  | .constant _ =>
    match instr.constant with
    | none => .error (.constant node .missing)
    | some c => do
      let t ← (constantType c).mapError (.constant node)
      return f.push (created t)
  | .load c _ => orFault (load c instr f)
  | .store _ _ => orFault (store ctx node instr f)
  | .increment => orFault (f.setLocal instr.index (created .int))
  | .arrayLoad c =>
    match f.stack with
    | _ :: array :: s => .ok { f with stack := created (elementType c array.type) :: s }
    | _ => .error (.fault .emptyStack)
  | .arrayStore => orFault (f.popMany 3)
  | .shuffle s => do
    let stack ← orFault (shuffle s f.stack)
    return { f with stack }
  | .unary k => orFault (popPush f 1 (created k.type))
  | .binary k _ => orFault (popPush f 2 (created k.type))
  | .branch t => orFault (f.popMany (testSize t))
  | .jsr _ => .ok (f.push (created (.returnAddress (word (node + 1)))))
  | .switch _ => orFault (f.popMany 1)
  | .returnValue => orFault (f.popMany 1)
  | .getStatic => do
    let t ← fieldType instr
    return f.push (created t)
  | .putStatic => orFault (f.popMany 1)
  | .getField => do
    let t ← fieldType instr
    orFault (popPush f 1 (created t))
  | .putField => orFault (f.popMany 2)
  | .invoke i => invoke node i instr f
  | .new => .ok (f.push (created (.uninitialized instr.className node)))
  | .newArray => orFault (popPush f 1 (created (.nonNullObject instr.arrayType.descriptor)))
  | .newObjectArray =>
    orFault (popPush f 1 (created (.nonNullObject (arrayOf instr.className))))
  | .newMultiArray =>
    orFault (popPush f instr.dims.toNat (created (.nonNullObject instr.className)))
  | .arrayLength => orFault (popPush f 1 (created .int))
  | .throw =>
    match f.stack with
    | e :: _ => .ok { f with stack := [created (thrownType e.type)] }
    | [] => .error (.fault .emptyStack)
  | .checkCast =>
    match f.stack with
    | e :: s => .ok { f with stack := { e with type := castType instr.className e.type } :: s }
    | [] => .error (.fault .emptyStack)
  | .instanceOf => orFault (popPush f 1 (created .int))
  | .monitor => orFault (f.popMany 1)
  | .wide => .error (.fault (.unsupported node instr.op))
  | .undefined => .error (.fault (.unsupported node instr.op))

end BytecodeFlow.Effect
