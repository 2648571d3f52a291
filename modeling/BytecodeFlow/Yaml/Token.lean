import BytecodeFlow.Text.Basic
import BytecodeFlow.Yaml.Literal
import BytecodeFlow.Yaml.Scalar

namespace BytecodeFlow.Yaml

structure Tag where
  handle : String
  suffix : String
  deriving DecidableEq, Repr

inductive Token
  | version (major minor : Nat)
  | handle (name start : String)
  | documentStart
  | documentEnd
  | blockList
  | blockMap
  | blockEnd
  | openList
  | closeList
  | openMap
  | closeMap
  | item
  | comma
  | key
  | value
  | aliasOf (name : String)
  | anchor (name : String)
  | tag (t : Tag)
  | scalar (text : String) (plain : Bool)
  | done
  deriving DecidableEq, Repr

def isNameChar (c : Char) : Bool := c.isAlphanum || c == '_' || c == '-'

def nameBehind (c : Cursor) : Except Error (String × Cursor) :=
  let name := c.next.span isNameChar
  let after := c.next.skip name.length
  let closed := match after.rest with
    | [] => true
    | x :: _ => isWhite x || "?:,]\x7d%@\x60".toList.contains x
  if name.isEmpty || !closed then .error .anchorName else .ok (String.ofList name, after)

def isUriChar (c : Char) : Bool := isNameChar c || ";/?:@&=+$,.!~*\x27()[]".toList.contains c

def uriBytes : List Char → Except Error (List UInt8 × Nat)
  | '%' :: a :: b :: rest =>
    match Text.Quoted.hexValue? a, Text.Quoted.hexValue? b with
    | some m, some n => do
      let (bytes, size) ← uriBytes rest
      return (UInt8.ofNat (m * 16 + n) :: bytes, size + 3)
    | _, _ => .error (.tag "%")
  | c :: rest =>
    if c == '%' then .error (.tag "%")
    else if isUriChar c then do
      let (bytes, size) ← uriBytes rest
      return (UInt8.ofNat c.toNat :: bytes, size + 1)
    else .ok ([], 0)
  | [] => .ok ([], 0)

def uri (optional : Bool) (c : Cursor) : Except Error (String × Cursor) := do
  let (bytes, size) ← uriBytes c.rest
  match Text.Utf8.decode? bytes with
  | none => .error (.tag "%")
  | some text => if size = 0 && !optional then .error (.tag "") else return (text, c.skip size)

def handleText (c : Cursor) : List Char × Cursor :=
  let name := c.next.span isNameChar
  let after := c.next.skip name.length
  if after.head? == some '!' then ('!' :: name ++ ['!'], after.next) else ('!' :: name, after)

def isWholeHandle (handle : List Char) : Bool := 1 < handle.length && handle.getLast? == some '!'

def tag (c : Cursor) : Except Error (Tag × Cursor) := do
  let (t, c) ←
    if c.next.head? == some '<' then do
      let (text, c) ← uri false (c.skip 2)
      if c.head? == some '>' then pure (Tag.mk "" text, c.next) else .error (.tag text)
    else
      let (handle, after) := handleText c
      if isWholeHandle handle then do
        let (suffix, c) ← uri false after
        pure (Tag.mk (String.ofList handle) suffix, c)
      else do
        let (more, c) ← uri true after
        let suffix := String.ofList (handle.drop 1) ++ more
        pure (if suffix = "" then Tag.mk "" "!" else Tag.mk "!" suffix, c)
  if startsWhite c.rest then return (t, c) else .error (.tag t.suffix)

def versionPart (c : Cursor) : Except Error (Nat × Cursor) :=
  let digits := c.span Char.isDigit
  if digits.isEmpty || 2 < digits.length then .error .directive
  else .ok (digits.foldl (fun n d => n * 10 + (d.toNat - '0'.toNat)) 0, c.skip digits.length)

def versionDirective (c : Cursor) : Except Error (Token × Cursor) := do
  let (major, c) ← versionPart (c.skipWhile isBlank)
  if c.head? == some '.' then
    let (minor, c) ← versionPart c.next
    return (.version major minor, c)
  else .error .directive

def handleDirective (c : Cursor) : Except Error (Token × Cursor) := do
  let c := c.skipWhile isBlank
  let (handle, after) := handleText c
  let blank := (after.head?.map isBlank).getD false
  if c.head? == some '!' && (handle == ['!'] || isWholeHandle handle) && blank then
    let (text, c) ← uri false (after.skipWhile isBlank)
    if startsWhite c.rest then return (.handle (String.ofList handle) text, c)
    else .error .directive
  else .error .directive

def directive (c : Cursor) : Except Error (Token × Cursor) := do
  let name := c.next.span isNameChar
  let c := c.next.skip name.length
  if name.isEmpty || !startsWhite c.rest then .error .directive
  else
    let (t, c) ←
      if name == "YAML".toList then versionDirective c
      else if name == "TAG".toList then handleDirective c
      else .error .directive
    return (t, ← endLine c)

end BytecodeFlow.Yaml
