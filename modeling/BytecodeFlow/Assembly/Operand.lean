import BytecodeFlow.Instruction
import BytecodeFlow.Opcode
import BytecodeFlow.Text.Basic
import BytecodeFlow.Text.Number

namespace BytecodeFlow.Assembly

inductive ConstantError
  | missing
  | pairOfString
  | malformedString (text : String)
  | pairOf (word : String)
  | unknown (text : String)
  | number (cause : Text.ReadError)
  deriving DecidableEq

def ConstantError.message : ConstantError → String
  | missing => "missing constant"
  | pairOfString => "string constant needs ldc"
  | malformedString s => "string constant " ++ s ++ ": " ++ Text.ReadCause.malformed.message
  | pairOf w => w ++ " constant needs ldc"
  | unknown s => "unknown constant " ++ Text.Quoted.write s
  | number e => e.message

inductive OperandError
  | count (want got : Nat)
  | number (cause : Text.ReadError)
  | constant (cause : ConstantError)
  | noLowKey
  | noDefault
  | malformedCase (text : String)
  | malformedField (text : String)
  | malformedOperands (text : String)
  | malformedMethod (text : String)
  | dimensions (text : String)
  | elementType (text : String)
  deriving DecidableEq

def OperandError.message : OperandError → String
  | count want got => "want " ++ toString want ++ " operands, got " ++ toString got
  | number e => e.message
  | constant e => e.message
  | noLowKey => "missing low key"
  | noDefault => "missing default target"
  | malformedCase s => "malformed case " ++ Text.Quoted.write s
  | malformedField s => "malformed field " ++ Text.Quoted.write s
  | malformedOperands s => "malformed operands " ++ Text.Quoted.write s
  | malformedMethod s => "malformed method " ++ Text.Quoted.write s
  | dimensions s => "invalid dimensions " ++ Text.Quoted.write s
  | elementType s => "unknown element type " ++ Text.Quoted.write s

inductive LineError
  | duplicateLabel (label : String)
  | lineCount (got : Nat)
  | lineNumber (cause : Text.ReadError)
  | limitCount (got : Nat)
  | limitNumber (cause : Text.ReadError)
  | unknownLimit (name : String)
  | malformedCatch
  | malformedVar
  | unknownDirective (name : String)
  | unknownInstruction (mnemonic : String)
  | operand (op : Opcode) (cause : OperandError)
  deriving DecidableEq

def LineError.message : LineError → String
  | duplicateLabel l => "duplicate label " ++ Text.Quoted.write l
  | lineCount n => ".line: want 1 operand, got " ++ toString n
  | lineNumber e => ".line: " ++ e.message
  | limitCount n => ".limit: want 2 operands, got " ++ toString n
  | limitNumber e => ".limit: " ++ e.message
  | unknownLimit s => ".limit: unknown limit " ++ Text.Quoted.write s
  | malformedCatch => "malformed .catch"
  | malformedVar => "malformed .var"
  | unknownDirective s => "unknown directive " ++ Text.Quoted.write s
  | unknownInstruction s => "unknown instruction " ++ Text.Quoted.write s
  | operand op e => op.name ++ ": " ++ e.message

inductive Error
  | line (number : Nat) (cause : LineError)
  | overlong
  | undefinedLabel (line : Nat) (label : String)
  deriving DecidableEq

def Error.message : Error → String
  | line n e => "line " ++ toString n ++ ": " ++ e.message
  | overlong => "bufio.Scanner: token too long"
  | undefinedLabel n l =>
    "line " ++ toString n ++ ": undefined label " ++ Text.Quoted.write l

def dropSuffix (c : Char) (cs : List Char) : List Char :=
  if cs.getLast? = some c then cs.dropLast else cs

def isHexadecimal (cs : List Char) : Bool :=
  let digits := match cs with
    | '-' :: r => r
    | _ => cs
  "0x".toList.isPrefixOf digits

def isFloating (cs : List Char) : Bool :=
  -- the letters d, e and f are digits of a hexadecimal numeral
  !isHexadecimal cs && (cs.contains '.' || cs.contains 'e' || cs.getLast? == some 'f' ||
    cs.getLast? == some 'd')

def numberConstant (pair : Bool) (text : String) : Except ConstantError Constant :=
  let cs := (Text.lower text).toList
  let checked {α : Type} (r : Except Text.ReadError α) (c : Constant) :=
    match r with
    | .ok _ => .ok c
    | .error e => .error (.number e)
  if pair then
    if isFloating cs then
      let v := String.ofList (dropSuffix 'd' cs)
      checked (Text.Decimal.read .double v) (.double v)
    else
      let v := String.ofList (dropSuffix 'l' cs)
      checked (Text.Integer.readLiteral 64 v) (.long v)
  else if isFloating cs then
    let v := String.ofList (dropSuffix 'f' cs)
    checked (Text.Decimal.read .single v) (.float v)
  else
    let v := String.ofList cs
    checked (Text.Integer.readLiteral 32 v) (.int v)

def namedConstant (text : String) (word argument : List Char) : Except ConstantError Constant :=
  let argument := String.ofList (Text.trimChars argument)
  match String.ofList word with
  | "class" => .ok (.class argument)
  | "methodtype" => .ok (.methodType argument)
  | "methodhandle" => .ok (.methodHandle argument)
  | _ => .error (.unknown text)

def constantOperand (pair : Bool) (text : String) : Except ConstantError Constant :=
  match text.toList with
  | [] => .error .missing
  | '"' :: body =>
    if pair then .error .pairOfString
    else match Text.Quoted.read? ('"' :: body) with
      | some bytes => .ok (.string bytes)
      | none => .error (.malformedString text)
  | cs =>
    match Text.cutAt (· == ' ') cs with
    | some (word, argument) =>
      if pair then .error (.pairOf (String.ofList word)) else namedConstant text word argument
    | none => numberConstant pair text

def isMethodTail (cs : List Char) : Bool := (cs.drop 1).dropLast.contains ')'

def nameAndDescriptor? (cs : List Char) : Option (List Char × List Char) :=
  let outside (c : Char) := c != '/' && c != '('
  let name := cs.takeWhile outside
  match name, cs.dropWhile outside with
  | _ :: _, '(' :: rest =>
    if isMethodTail ('(' :: rest) then some (name, '(' :: rest) else none
  | _, _ => none

/-- The ways to cut a text at a slash that is not its first character, the last cut first. -/
def slashCuts (before : List Char) (cuts : List (List Char × List Char)) :
    List Char → List (List Char × List Char)
  | [] => cuts
  | c :: cs =>
    if c = '/' ∧ before ≠ [] then slashCuts (c :: before) ((before.reverse, cs) :: cuts) cs
    else slashCuts (c :: before) cuts cs

def methodOperand? (cs : List Char) : Option Member :=
  let member (owner : List Char) : List Char × List Char → Member :=
    fun (name, descriptor) =>
      ⟨String.ofList owner, String.ofList name, String.ofList descriptor⟩
  -- the owner ends at the last slash behind which a name and a descriptor follow
  ((slashCuts [] [] cs).findSome? fun (owner, rest) =>
      (nameAndDescriptor? rest).map (member owner)).or
    ((nameAndDescriptor? cs).map (member []))

def fieldOperand? (cs : List Char) : Option (String × String) :=
  match Text.cutAtLast (· == '/') cs with
  | some (owner, name) =>
    if owner.isEmpty || name.isEmpty then none
    else some (String.ofList owner, String.ofList name)
  | none => none

end BytecodeFlow.Assembly
