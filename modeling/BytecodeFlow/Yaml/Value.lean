import BytecodeFlow.Text.Basic
import BytecodeFlow.Text.Number
import BytecodeFlow.Yaml.Cursor
import BytecodeFlow.Yaml.Document

namespace BytecodeFlow.Text.Base64

def letterValue? (c : Char) : Option Nat :=
  if 'A' ≤ c && c ≤ 'Z' then some (c.toNat - 'A'.toNat)
  else if 'a' ≤ c && c ≤ 'z' then some (c.toNat - 'a'.toNat + 26)
  else if isDigit c then some (c.toNat - '0'.toNat + 52)
  else if c == '+' then some 62
  else if c == '/' then some 63
  else none

def bytes? : List Char → Option (List UInt8)
  | [] => some []
  | [a, b, '=', '='] => do
    let n := (← letterValue? a) * 4 + (← letterValue? b) / 16
    return [n.toUInt8]
  | [a, b, c, '='] => do
    let n := ((← letterValue? a) * 64 + (← letterValue? b)) * 16 + (← letterValue? c) / 4
    return [(n / 256).toUInt8, n.toUInt8]
  | a :: b :: c :: d :: rest => do
    let n := (((← letterValue? a) * 64 + (← letterValue? b)) * 64 + (← letterValue? c)) * 64 +
      (← letterValue? d)
    return (n / 65536).toUInt8 :: (n / 256).toUInt8 :: n.toUInt8 :: (← bytes? rest)
  | _ => none

/-- The text that the letters stand for. Line ends between them are skipped, and a byte that is no
part of a character becomes the replacement character. -/
def read? (s : String) : Option String := do
  let bytes ← bytes? (s.toList.filter fun c => c != '\n' && c != '\r')
  return String.ofList ((Utf8.pieces bytes).map fun p => p.char?.getD (Char.ofNat 0xfffd))

end BytecodeFlow.Text.Base64

namespace BytecodeFlow.Yaml

inductive Quantity
  | finite (whole : Int)
  | infinite (negative : Bool)
  | undefined
  deriving DecidableEq, Repr

def Quantity.toWord? : Quantity → Option Int
  | .finite n =>
    if 0x8000000000000000 < n then none
    else if -0x8000000000000000 ≤ n ∧ n < 0x8000000000000000 then some n
    else some (-0x8000000000000000)
  | .infinite true => some (-0x8000000000000000)
  | .infinite false => none
  | .undefined => none

inductive Meaning
  | null
  | truth (b : Bool)
  | integer (n : Int)
  | real (x : Quantity)
  | moment
  | text (s : String)
  deriving DecidableEq, Repr

namespace Meaning

def ofWord? (s : String) : Option Meaning :=
  if ["", "~", "null", "Null", "NULL"].contains s then some .null
  else if ["true", "True", "TRUE"].contains s then some (.truth true)
  else if ["false", "False", "FALSE"].contains s then some (.truth false)
  else if [".nan", ".NaN", ".NAN"].contains s then some (.real .undefined)
  else if [".inf", ".Inf", ".INF", "+.inf", "+.Inf", "+.INF"].contains s then
    some (.real (.infinite false))
  else if ["-.inf", "-.Inf", "-.INF"].contains s then some (.real (.infinite true))
  else none

def ofDecimal? (cs : List Char) : Option Meaning :=
  let (negative, body) := Text.splitSign cs
  match Text.Decimal.unsigned body with
  | some n =>
    if n.overflows .double then none
    else
      let whole : Int := n.whole .double
      some (.real (.finite (if negative then -whole else whole)))
  | none => none

def isDecimalText (cs : List Char) : Bool :=
  cs.all fun c => Text.isDigit c || "+-.eE".toList.contains c

def ofBase? (mark : Char) (base : Nat) (cs : List Char) : Option Meaning :=
  let read (negative : Bool) (digits : List Char) : Option Meaning :=
    match digits, Text.Integer.magnitude base 0xffffffffffffffff false 0 digits with
    | _ :: _, .ok n =>
      if negative then if n ≤ 0x8000000000000000 then some (.integer (-(n : Int))) else none
      else some (.integer n)
    | _, _ => none
  match cs with
  | '0' :: m :: digits =>
    if m == mark then
      let (negative, digits) := Text.splitSign digits
      read negative digits
    else none
  | '-' :: '0' :: m :: digits => if m == mark then read true digits else none
  | _ => none

def ofLiteral? (cs : List Char) : Option Meaning :=
  match Text.Integer.literal 64 (String.ofList cs) with
  | .ok n => some (.integer n)
  | .error _ =>
    let (base, digits) := Text.Integer.splitBase cs
    match cs, Text.Integer.magnitude base 0xffffffffffffffff true 0 digits with
    | _ :: _, .ok n => some (.integer n)
    | _, _ => none

def ofNumber? (cs : List Char) : Option Meaning :=
  let cs := cs.filter (· != '_')
  ofLiteral? cs <|> (if isDecimalText cs then ofDecimal? cs else none) <|>
    ofBase? 'b' 2 cs <|> ofBase? 'o' 8 cs

def ofPlain (s : String) : Meaning :=
  let number? : Option Meaning :=
    match s.toList with
    | '.' :: rest =>
      match Text.Decimal.read .double s with
      | .ok () => ofDecimal? ('.' :: rest)
      | .error _ => none
    | c :: rest =>
      if Text.isDigit c || c == '+' || c == '-' then ofNumber? (c :: rest) else none
    | [] => none
  (ofWord? s <|> number?).getD (.text s)

def isDate (cs : List Char) : Bool :=
  (cs.takeWhile Text.isDigit).length == 4 && cs[4]? == some '-'

/-- The meaning of a text whose kind a tag names. A tag that is none of the standard's, or that of
texts, takes it as it is. -/
def ofTagged (tag s : String) : Except Error Meaning :=
  let mismatch : Except Error Meaning := .error (.tag tag)
  match tag with
  | "!!null" => if ofPlain s = .null then .ok .null else mismatch
  | "!!bool" => match ofPlain s with
    | .truth b => .ok (.truth b)
    | _ => mismatch
  | "!!int" => match ofPlain s with
    | .integer n => .ok (.integer n)
    | _ => mismatch
  | "!!float" => match ofPlain s with
    | .real x => .ok (.real x)
    | .integer n =>
      if n < 0x8000000000000000 then
        let whole : Int := Text.Decimal.Format.double.whole n.natAbs 1
        .ok (.real (.finite (if n < 0 then -whole else whole)))
      else mismatch
    | _ => mismatch
  | "!!timestamp" => if isDate s.toList then .ok .moment else mismatch
  | "!!binary" => match Text.Base64.read? s with
    | some t => .ok (.text t)
    | none => mismatch
  | _ => .ok (.text s)

def of (s : String) (plain : Bool) (tag : Option String) : Except Error Meaning :=
  match tag with
  | some t => ofTagged t s
  | none => .ok (if plain then ofPlain s else .text s)

end Meaning

namespace Node

def follow : Node → Except Error Node
  | aliasOf _ (some n) => .ok n
  | aliasOf name none => .error (.selfReference name)
  | n => .ok n

def meaning (n : Node) (needed : String) : Except Error Meaning := do
  match ← n.follow with
  | scalar s plain tag => Meaning.of s plain tag
  | _ => .error (.shape needed)

def isNull (n : Node) : Except Error Bool := do
  match ← n.follow with
  | scalar s plain tag => return (← Meaning.of s plain tag) = .null
  | _ => return false

def text? (n : Node) : Except Error (Option String) := do
  match ← n.follow with
  | scalar s plain tag =>
    match ← Meaning.of s plain tag with
    | .null => return none
    | .text t => return some t
    | _ => return some s
  | _ => .error (.shape "text")

def text (n : Node) : Except Error String := return (← n.text?).getD ""

def truth? (n : Node) : Except Error (Option Bool) := do
  match ← n.meaning "truth value" with
  | .null => return none
  | .truth b => return some b
  -- these words are texts, but they count where a truth value is needed
  | .text s =>
    if ["y", "Y", "yes", "on"].contains s then return some true
    else if ["n", "N", "no", "off"].contains s then return some false
    else .error (.shape "truth value")
  | _ => .error (.shape "truth value")

def truth (n : Node) : Except Error Bool := return (← n.truth?).getD false

def integer (n : Node) : Except Error Int := do
  match ← n.meaning "integer" with
  | .null => return 0
  | .integer n => if n < 0x8000000000000000 then return n else .error (.shape "integer")
  | .real x =>
    match x.toWord? with
    | some n => return n
    | none => .error (.shape "integer")
  | _ => .error (.shape "integer")

def items (n : Node) : Except Error (List Node) := do
  match ← n.follow with
  | sequence items => items.filterM fun n => return !(← n.isNull)
  | n => if ← n.isNull then return [] else .error (.shape "list")

/-- Whether two keys are the same: scalars by their text, aliases by their name, and collections of
one kind always. -/
def sameKey : Node → Node → Bool
  | scalar s _ _, scalar t _ _ => s == t
  | aliasOf s _, aliasOf t _ => s == t
  | sequence _, sequence _ => true
  | mapping _, mapping _ => true
  | _, _ => false

def checkKeys : List (Node × Node) → Except Error Unit
  | [] => .ok ()
  | (k, _) :: rest =>
    if rest.any fun (l, _) => sameKey k l then
      .error (.duplicateKey (match k with | scalar s _ _ => s | _ => ""))
    else checkKeys rest

def isMergeKey : Node → Bool
  | scalar "<<" plain none => plain
  | scalar "<<" _ (some tag) => tag == "!!merge"
  | _ => false

def isMapping : Node → Bool
  | mapping _ => true
  | aliasOf _ (some (mapping _)) => true
  | _ => false

abbrev Entries := List (String × Node)

def addEntries (known : Entries) (entries : List (Node × Node)) : Except Error Entries := do
  checkKeys entries
  entries.foldlM (fun known (k, v) => do
    if k.isMergeKey then return known
    else match ← k.text? with
      | none => return known
      | some name => return if known.any (·.1 == name) then known else known ++ [(name, v)]) known

mutual

def merge (known : Entries) : Node → Except Error Entries
  -- what is merged comes last, and only under keys that are not there yet
  | mapping entries => do mergeEntries (← addEntries known entries) entries
  | sequence items => mergeItems known items
  | aliasOf name none => .error (.selfReference name)
  | aliasOf _ (some n) => if n.isMapping then merge known n else .error (.shape "mapping")
  | scalar _ _ _ => .error (.shape "mapping")

def mergeEntries (known : Entries) : List (Node × Node) → Except Error Entries
  | [] => .ok known
  | (k, v) :: rest => if k.isMergeKey then merge known v else mergeEntries known rest

def mergeItems (known : Entries) : List Node → Except Error Entries
  | [] => .ok known
  | n :: rest => do
    if n.isMapping then mergeItems (← merge known n) rest else .error (.shape "mapping")

end

def entries (n : Node) : Except Error Entries := do
  match ← n.follow with
  | mapping entries => merge [] (mapping entries)
  | n => if ← n.isNull then return [] else .error (.shape "mapping")

def valueOf (entries : Entries) (key : String) : Node :=
  ((entries.find? (·.1 == key)).map Prod.snd).getD .empty

end Node

end BytecodeFlow.Yaml
