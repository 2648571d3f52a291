import BytecodeFlow.Text.Number

/-!
Flags among the arguments of a command: `--name value`, `--name=value`, `-n value`, `-nvalue`, and
switches, which need no value. Flags may stand anywhere; `--` ends them.
-/

namespace BytecodeFlow.CommandLine

inductive FlagKind
  | switch
  | number
  | text
  deriving DecidableEq, Repr

structure Flag where
  name : String
  short : Option Char := none
  kind : FlagKind := .switch
  deriving DecidableEq, Repr

def Flag.title (f : Flag) : String :=
  match f.short with
  | some c => "-" ++ String.singleton c ++ ", --" ++ f.name
  | none => "--" ++ f.name

inductive FlagValue
  | switch (b : Bool)
  | number (n : Int)
  | text (s : String)
  deriving DecidableEq, Repr

inductive FlagError
  | badSyntax (arg : String)
  | unknown (name : String)
  | unknownShort (c : Char) (shorts : String)
  | needsValue (name : String)
  | needsValueShort (c : Char) (shorts : String)
  | invalid (value : String) (flag : Flag) (cause : Text.ReadError)

def FlagError.message : FlagError → String
  | badSyntax s => "bad flag syntax: " ++ s
  | unknown s => "unknown flag: --" ++ s
  | unknownShort c s => "unknown shorthand flag: " ++ Text.Quoted.writeChar c ++ " in -" ++ s
  | needsValue s => "flag needs an argument: --" ++ s
  | needsValueShort c s => "flag needs an argument: " ++ Text.Quoted.writeChar c ++ " in -" ++ s
  | invalid v f e =>
    "invalid argument " ++ Text.Quoted.write v ++ " for " ++ Text.Quoted.write f.title ++
      " flag: " ++ e.message

def Flag.read (f : Flag) (value : String) : Except FlagError FlagValue :=
  match f.kind with
  | .switch => ((Text.Truth.read value).map .switch).mapError (.invalid value f)
  | .number => ((Text.Integer.readLiteral 64 value).map .number).mapError (.invalid value f)
  | .text => .ok (.text value)

structure Arguments where
  values : List (String × FlagValue) := []
  operands : List String := []

namespace Arguments

def value? (a : Arguments) (name : String) : Option FlagValue :=
  (a.values.find? (·.1 == name)).map Prod.snd

def isSet (a : Arguments) (name : String) : Bool := (a.value? name).isSome

def switch (a : Arguments) (name : String) : Bool := a.value? name == some (.switch true)

def number (a : Arguments) (name : String) (fallback : Int) : Int :=
  match a.value? name with
  | some (.number n) => n
  | _ => fallback

def text (a : Arguments) (name : String) : String :=
  match a.value? name with
  | some (.text s) => s
  | _ => ""

end Arguments

def switchedOn : String := "true"

def Arguments.set (a : Arguments) (f : Flag) (value : String) : Except FlagError Arguments := do
  let v ← f.read value
  return { a with values := (f.name, v) :: a.values }

def firstByte (c : Char) : Char := Char.ofNat ((String.singleton c).toUTF8.toList.headD 0).toNat

/-- How a letter that names no flag is told. Flags are looked up by bytes and named by text, so the
first byte is taken of the letter and then of the character with that code. -/
def shownLetter (c : Char) : Char := firstByte (firstByte c)

/-- Reads letters behind one dash. What follows a letter that takes a value is that value; without it
the next argument is. Letters from `test.` on are meant for a test runner and skipped. -/
def shortFlags (flags : List Flag) (a : Arguments) (rest : List String) :
    List Char → Except FlagError (Arguments × List String)
  | [] => .ok (a, rest)
  | c :: cs =>
    if "test.".toList.isPrefixOf (c :: cs) then .ok (a, rest)
    else match flags.find? (·.short == some c) with
      | none => .error (.unknownShort (shownLetter c) (String.ofList (c :: cs)))
      | some f =>
        match cs with
        | '=' :: v :: value => do return (← a.set f (String.ofList (v :: value)), rest)
        | _ =>
          if f.kind = .switch then
            match a.set f switchedOn with
            | .ok a => shortFlags flags a rest cs
            | .error e => .error e
          else match cs, rest with
            | [], [] => .error (.needsValueShort c (String.ofList [c]))
            | [], value :: rest => do return (← a.set f value, rest)
            | cs, rest => do return (← a.set f (String.ofList cs), rest)

def longFlag (flags : List Flag) (a : Arguments) (rest : List String) (body : List Char) :
    Except FlagError (Arguments × List String) :=
  let name := String.ofList (body.takeWhile (· != '='))
  match body.head? with
  | none => .error (.badSyntax "--")
  | some c =>
    if c == '-' || c == '=' then .error (.badSyntax ("--" ++ String.ofList body))
    else match flags.find? (·.name == name), body.drop name.length, rest with
      | none, _, _ => .error (.unknown name)
      | some f, '=' :: value, _ => do return (← a.set f (String.ofList value), rest)
      | some f, _, _ =>
        if f.kind = .switch then do return (← a.set f switchedOn, rest)
        else match rest with
          | [] => .error (.needsValue name)
          | value :: rest => do return (← a.set f value, rest)

def readFrom (flags : List Flag) : (fuel : Nat) → Arguments → List String →
    Except FlagError Arguments
  | _, a, [] => .ok a
  | 0, a, _ => .ok a
  | fuel + 1, a, s :: rest =>
    match s.toList with
    | ['-', '-'] => .ok { a with operands := a.operands ++ rest }
    | '-' :: '-' :: body => do
      let (a, rest) ← longFlag flags a rest body
      readFrom flags fuel a rest
    | '-' :: c :: cs => do
      let (a, rest) ← shortFlags flags a rest (c :: cs)
      readFrom flags fuel a rest
    | _ => readFrom flags fuel { a with operands := a.operands ++ [s] } rest

def Arguments.read (flags : List Flag) (args : List String) : Except FlagError Arguments :=
  -- each call takes off an argument at least
  readFrom flags args.length {} args

def takesNext (flags : List Flag) (s : String) : Bool :=
  -- the command is not known yet, nor are its flags: one that is no common switch takes a value
  let isSwitch (p : Flag → Bool) := flags.any fun f => p f && f.kind == .switch
  match s.toList with
  | '-' :: '-' :: body => !body.contains '=' && !isSwitch (·.name == String.ofList body)
  | ['-', c] => c != '=' && c.toNat < 0x80 && !isSwitch (·.short == some c)
  | _ => false

/-- The arguments that are neither flags nor values of flags. A flag at the end, or with one argument
left, ends the search. -/
def operandsOf (flags : List Flag) : List String → List String
  | [] => []
  | s :: rest =>
    if s = "--" then []
    else if takesNext flags s then
      match rest with
      | _ :: next :: more => operandsOf flags (next :: more)
      | _ => []
    else if s ≠ "" ∧ s.toList.head? ≠ some '-' then s :: operandsOf flags rest
    else operandsOf flags rest

def removeOperand (flags : List Flag) (name : String) : List String → List String
  | [] => []
  | s :: rest =>
    if s = "--" then s :: rest
    else if takesNext flags s then
      match rest with
      | value :: more => s :: value :: removeOperand flags name more
      | [] => [s]
    else if s = name then rest
    else s :: removeOperand flags name rest

end BytecodeFlow.CommandLine
