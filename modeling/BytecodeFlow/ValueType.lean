namespace BytecodeFlow

inductive Kind
  | top
  | int
  | long
  | float
  | double
  | reference
  | null
  | returnAddress
  | uninitialized
  deriving DecidableEq, Repr

namespace Kind

def name : Kind → String
  | .top => "top"
  | .int => "int"
  | .long => "long"
  | .float => "float"
  | .double => "double"
  | .reference => "reference"
  | .null => "null"
  | .returnAddress => "returnAddress"
  | .uninitialized => "uninitialized"

def all : List Kind :=
  [.top, .int, .long, .float, .double, .reference, .null, .returnAddress, .uninitialized]

def nameOfCode (code : UInt8) : String :=
  match all[code.toNat]? with
  | some k => k.name
  | none => "kind(" ++ toString code.toNat ++ ")"

end Kind

def noNode : Int := -1

/-- A value type. Names are internal class names or array descriptors. `top` marks a slot that
holds nothing usable; a return address knows the node it continues at, and an uninitialized object
the node that created it, or `noNode` for the receiver of a constructor. -/
inductive ValueType
  | top
  | int
  | long
  | float
  | double
  | reference (name : String) (nonNull : Bool)
  | null
  | returnAddress (target : Int)
  | uninitialized (name : String) (creator : Int)
  deriving DecidableEq, Repr

def objectClass : String := "java/lang/Object"
def stringClass : String := "java/lang/String"
def classClass : String := "java/lang/Class"
def throwableClass : String := "java/lang/Throwable"
def methodTypeClass : String := "java/lang/invoke/MethodType"
def methodHandleClass : String := "java/lang/invoke/MethodHandle"
def nullPointerClass : String := "java/lang/NullPointerException"

def isArrayName (name : String) : Bool := name.toList.head? == some '['

def primitiveName? : List Char → Option String
  | ['B'] => some "byte"
  | ['C'] => some "char"
  | ['D'] => some "double"
  | ['F'] => some "float"
  | ['I'] => some "int"
  | ['J'] => some "long"
  | ['S'] => some "short"
  | ['Z'] => some "boolean"
  | _ => none

def dotted (cs : List Char) : List Char := cs.map fun c => if c == '/' then '.' else c

def className (name : String) : String :=
  let cs := name.toList
  let element := cs.dropWhile (· == '[')
  let dims := cs.length - element.length
  if dims = 0 then String.ofList (dotted cs)
  else
    let base := match element, element.getLast? with
      | 'L' :: body, some ';' => String.ofList (dotted body.dropLast)
      | _, _ => (primitiveName? element).getD (String.ofList element)
    base ++ String.join (List.replicate dims "[]")

namespace ValueType

def object (name : String) : ValueType := .reference name false

def nonNullObject (name : String) : ValueType := .reference name true

def kind : ValueType → Kind
  | top => .top
  | int => .int
  | long => .long
  | float => .float
  | double => .double
  | reference _ _ => .reference
  | null => .null
  | returnAddress _ => .returnAddress
  | uninitialized _ _ => .uninitialized

def name : ValueType → String
  | reference n _ => n
  | uninitialized n _ => n
  | _ => ""

def target : ValueType → Int
  | returnAddress t => t
  | uninitialized _ t => t
  | _ => noNode

def size : ValueType → Nat
  | long => 2
  | double => 2
  | _ => 1

def isReference : ValueType → Bool
  | reference _ _ => true
  | null => true
  | uninitialized _ _ => true
  | _ => false

def isNull : ValueType → Bool
  | null => true
  | _ => false

def isNonNull : ValueType → Bool
  | reference _ b => b
  | uninitialized _ _ => true
  | _ => false

def isArray : ValueType → Bool
  | reference n _ => isArrayName n
  | _ => false

def initialized : ValueType → ValueType
  | uninitialized n _ => nonNullObject n
  | t => t

def descriptorOfName (name : String) : String :=
  if isArrayName name then name else "L" ++ name ++ ";"

def descriptor : ValueType → String
  | int => "I"
  | long => "J"
  | float => "F"
  | double => "D"
  | reference n _ => descriptorOfName n
  | uninitialized n _ => descriptorOfName n
  | _ => ""

def render : ValueType → String
  | reference n b => className n ++ if b then "!" else ""
  | uninitialized n t =>
    if t = noNode then "uninitializedThis(" ++ className n ++ ")"
    else "uninitialized(" ++ className n ++ "@" ++ toString t ++ ")"
  | returnAddress t => "returnAddress(" ++ toString t ++ ")"
  | t => t.kind.name

end ValueType

end BytecodeFlow
