import BytecodeFlow.Text.Quoted

namespace BytecodeFlow.Text

inductive Reader
  | count
  | integer
  | decimal
  | truth
  deriving DecidableEq

def Reader.name : Reader → String
  | .count => "strconv.Atoi"
  | .integer => "strconv.ParseInt"
  | .decimal => "strconv.ParseFloat"
  | .truth => "strconv.ParseBool"

inductive ReadCause
  | malformed
  | outOfRange
  deriving DecidableEq

def ReadCause.message : ReadCause → String
  | .malformed => "invalid syntax"
  | .outOfRange => "value out of range"

structure ReadError where
  reader : Reader
  text : String
  cause : ReadCause
  deriving DecidableEq

def ReadError.message (e : ReadError) : String :=
  e.reader.name ++ ": parsing " ++ Quoted.write e.text ++ ": " ++ e.cause.message

def isDigit (c : Char) : Bool := '0' ≤ c && c ≤ '9'

def isHexLetter (c : Char) : Bool := 'a' ≤ c.toLower && c.toLower ≤ 'f'

inductive Seen
  | start
  | digit
  | underscore
  | other
  deriving DecidableEq

def underscoresBetween (isNumeral : Char → Bool) : Seen → List Char → Bool
  | seen, [] => seen != .underscore
  | seen, c :: cs =>
    if isNumeral c then underscoresBetween isNumeral .digit cs
    else if c == '_' then seen == .digit && underscoresBetween isNumeral .underscore cs
    else seen != .underscore && underscoresBetween isNumeral .other cs

def splitSign : List Char → Bool × List Char
  | '-' :: cs => (true, cs)
  | '+' :: cs => (false, cs)
  | cs => (false, cs)

/-- Every underscore of a numeral, signed or not, separates two digits; the mark of a base counts as
a digit. -/
def underscoresAllowed (numeral : List Char) : Bool :=
  match (splitSign numeral).2 with
  | '0' :: b :: cs =>
    if b.toLower == 'x' then underscoresBetween (fun c => isDigit c || isHexLetter c) .digit cs
    else if b.toLower == 'b' || b.toLower == 'o' then underscoresBetween isDigit .digit cs
    else underscoresBetween isDigit .start ('0' :: b :: cs)
  | cs => underscoresBetween isDigit .start cs

namespace Integer

def digitValue? (c : Char) : Option Nat :=
  if isDigit c then some (c.toNat - 0x30)
  else if 'a' ≤ c.toLower && c.toLower ≤ 'z' then some (c.toLower.toNat - 0x57)
  else none

/-- Adds digits to `n` from the left. A value past `limit` ends the reading at once, whatever comes
after it; underscores are skipped where `loose`. -/
def magnitude (base limit : Nat) (loose : Bool) : Nat → List Char → Except ReadCause Nat
  | n, [] => .ok n
  | n, c :: cs =>
    if loose && c == '_' then magnitude base limit loose n cs
    else match digitValue? c with
      | none => .error .malformed
      | some d =>
        if base ≤ d then .error .malformed
        else if limit < n * base + d then .error .outOfRange
        else magnitude base limit loose (n * base + d) cs

def splitBase : List Char → Nat × List Char
  | '0' :: b :: c :: cs =>
    match b.toLower with
    | 'b' => (2, c :: cs)
    | 'o' => (8, c :: cs)
    | 'x' => (16, c :: cs)
    | _ => (8, b :: c :: cs)
  | '0' :: cs => (8, cs)
  | cs => (10, cs)

def signed (bits : Nat) (negative : Bool) (n : Nat) : Except ReadCause Int :=
  if negative then
    if Nat.pow 2 (bits - 1) < n then .error .outOfRange else .ok (-(n : Int))
  else if Nat.pow 2 (bits - 1) ≤ n then .error .outOfRange else .ok n

def decimal (bits : Nat) (s : String) : Except ReadCause Int := do
  let (negative, digits) := splitSign s.toList
  if digits.isEmpty then .error .malformed
  else signed bits negative (← magnitude 10 (Nat.pow 2 bits - 1) false 0 digits)

def literal (bits : Nat) (s : String) : Except ReadCause Int := do
  let (negative, numeral) := splitSign s.toList
  if numeral.isEmpty then .error .malformed
  else
    let (base, digits) := splitBase numeral
    let n ← magnitude base (Nat.pow 2 bits - 1) true 0 digits
    if numeral.contains '_' && !underscoresAllowed numeral then .error .malformed
    else signed bits negative n

def named (reader : Reader) (s : String) (r : Except ReadCause α) : Except ReadError α :=
  r.mapError fun cause => ⟨reader, s, cause⟩

def readCount (s : String) : Except ReadError Int := named .count s (decimal 64 s)

def readDecimal (bits : Nat) (s : String) : Except ReadError Int :=
  named .integer s (decimal bits s)

def readLiteral (bits : Nat) (s : String) : Except ReadError Int :=
  named .integer s (literal bits s)

end Integer

namespace Decimal

structure Format where
  precision : Nat
  maxExponent : Nat

def Format.single : Format := ⟨24, 128⟩

def Format.double : Format := ⟨53, 1024⟩

/-- The least number that rounds to infinity: half a unit above the largest finite one. -/
def Format.overflow (f : Format) : Nat :=
  (Nat.pow 2 (f.precision + 1) - 1) * Nat.pow 2 (f.maxExponent - f.precision - 1)

/-- The parts of a numeral: its digits without the point, how many of them stand after the point,
and the exponent. -/
structure Numeral where
  hexadecimal : Bool
  digits : Nat
  places : Nat
  exponent : Int

/-- The digits of a significand, with underscores skipped and at most one point. The result holds
the value of all digits, the digits after the point, whether there was any, and the rest. -/
def significand (hexadecimal : Bool) : (point : Bool) → (value places : Nat) → (any : Bool) →
    List Char → Nat × Nat × Bool × List Char
  | _, value, places, any, [] => (value, places, any, [])
  | point, value, places, any, c :: cs =>
    if c == '_' then significand hexadecimal point value places any cs
    else if c == '.' then
      if point then (value, places, any, c :: cs)
      else significand hexadecimal true value places any cs
    else
      let places' := if point then places + 1 else places
      if isDigit c then
        significand hexadecimal point
          (value * (if hexadecimal then 16 else 10) + (c.toNat - 0x30)) places' true cs
      else if hexadecimal && isHexLetter c then
        significand hexadecimal point (value * 16 + (c.toLower.toNat - 0x57)) places' true cs
      else (value, places, any, c :: cs)

/-- The digits of an exponent. One that has reached five digits grows no further. -/
def exponentDigits : Nat → List Char → Nat × List Char
  | e, [] => (e, [])
  | e, c :: cs =>
    if c == '_' then exponentDigits e cs
    else if isDigit c then
      exponentDigits (if e < 10000 then e * 10 + (c.toNat - 0x30) else e) cs
    else (e, c :: cs)

def exponent (cs : List Char) : Option (Int × List Char) :=
  let (negative, rest) := splitSign cs
  match rest with
  | c :: _ =>
    if isDigit c then
      let (e, rest) := exponentDigits 0 rest
      some (if negative then -(e : Int) else e, rest)
    else none
  | [] => none

def unsigned (cs : List Char) : Option Numeral :=
  let (hexadecimal, body) := match cs with
    | '0' :: x :: c :: rest => if x.toLower == 'x' then (true, c :: rest) else (false, cs)
    | _ => (false, cs)
  let (digits, places, any, rest) := significand hexadecimal false 0 0 false body
  if !any then none
  else
    let mark := if hexadecimal then 'p' else 'e'
    match rest with
    | [] => if hexadecimal then none else some ⟨hexadecimal, digits, places, 0⟩
    | c :: after =>
      if c.toLower == mark then
        match exponent after with
        | some (e, []) => some ⟨hexadecimal, digits, places, e⟩
        | _ => none
      else none

def reaches (value base : Nat) (power : Int) (bound : Nat) : Bool :=
  match power with
  | .ofNat k => bound ≤ value * Nat.pow base k
  | .negSucc k => bound * Nat.pow base (k + 1) ≤ value

def Numeral.overflows (f : Format) (n : Numeral) : Bool :=
  if n.hexadecimal then reaches n.digits 2 (n.exponent - 4 * n.places) f.overflow
  else reaches n.digits 10 (n.exponent - n.places) f.overflow

def roundedQuotient (n d : Nat) : Nat :=
  let q := n / d
  let r := n % d
  -- of two numbers that are equally near the even one is taken
  if d < 2 * r || (2 * r == d && q % 2 == 1) then q + 1 else q

def magnitudeOf (n d : Nat) : Int :=
  let guess : Int := (Nat.log2 n : Int) - Nat.log2 d
  if d * Nat.pow 2 guess.toNat ≤ n * Nat.pow 2 (-guess).toNat then guess else guess - 1

def Format.whole (f : Format) (n d : Nat) : Nat :=
  if n = 0 then 0
  else
    let lastPlace := magnitudeOf n d - (f.precision - 1 : Nat)
    let unit := Nat.pow 2 lastPlace.toNat
    let scale := Nat.pow 2 (-lastPlace).toNat
    roundedQuotient (n * scale) (d * unit) * unit / scale

def Numeral.whole (f : Format) (n : Numeral) : Nat :=
  match n.exponent - n.places with
  | .ofNat k => f.whole (n.digits * Nat.pow 10 k) 1
  | .negSucc k => f.whole n.digits (Nat.pow 10 (k + 1))

def isSpecial (cs : List Char) : Bool :=
  let named := (splitSign cs).2.map Char.toLower
  named == "inf".toList || named == "infinity".toList || cs.map Char.toLower == "nan".toList

def read (f : Format) (s : String) : Except ReadError Unit :=
  let cs := s.toList
  let fail cause := .error ⟨.decimal, s, cause⟩
  if isSpecial cs then .ok ()
  else match unsigned (splitSign cs).2 with
    | none => fail .malformed
    | some n =>
      if cs.contains '_' && !underscoresAllowed cs then fail .malformed
      else if n.overflows f then fail .outOfRange
      else .ok ()

end Decimal

namespace Truth

def read (s : String) : Except ReadError Bool :=
  if ["1", "t", "T", "true", "TRUE", "True"].contains s then .ok true
  else if ["0", "f", "F", "false", "FALSE", "False"].contains s then .ok false
  else .error ⟨.truth, s, .malformed⟩

end Truth

end BytecodeFlow.Text
