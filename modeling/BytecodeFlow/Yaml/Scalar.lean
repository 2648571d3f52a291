import BytecodeFlow.Text.Quoted
import BytecodeFlow.Yaml.Cursor

namespace BytecodeFlow.Yaml

/-- What white space between words becomes. A separator in first place is kept. -/
def fold (white : List Char) : List Char :=
  match (white.filter isBreak).map breakText with
  | [] => white
  | ['\n'] => [' ']
  | '\n' :: more => more
  | breaks => breaks

def simpleEscape? (c : Char) : Option Char :=
  match c with
  | '0' => some '\x00'
  | 'a' => some '\x07'
  | 'b' => some '\x08'
  | 't' => some '\t'
  | '\t' => some '\t'
  | 'n' => some '\n'
  | 'v' => some '\x0b'
  | 'f' => some '\x0c'
  | 'r' => some '\r'
  | 'e' => some '\x1b'
  | ' ' => some ' '
  | '"' => some '"'
  | '\x27' => some '\x27'
  | '\\' => some '\\'
  | 'N' => some (Char.ofNat 0x85)
  | '_' => some (Char.ofNat 0xa0)
  | 'L' => some (Char.ofNat 0x2028)
  | 'P' => some (Char.ofNat 0x2029)
  | _ => none

def escapeDigits? (c : Char) : Option Nat :=
  match c with
  | 'x' => some 2
  | 'u' => some 4
  | 'U' => some 8
  | _ => none

def escape : List Char → Except Error (Char × Nat)
  | [] => .error .unterminated
  | c :: cs =>
    match simpleEscape? c, escapeDigits? c with
    | some d, _ => .ok (d, 1)
    | none, none => .error .escape
    | none, some n =>
      match Text.Quoted.digits? Text.Quoted.hexValue? 16 n cs with
      | some code => if code.isValidChar then .ok (Char.ofNat code, n + 1) else .error .escape
      | none => .error .escape

/-- What is read next inside quotes: a character or folded white space, with how many characters it
takes after its first, or the closing quote. No document may begin or end inside. -/
def quotedPiece (double : Bool) (c : Cursor) : Except Error (Option (List Char × Nat)) :=
  match c.rest with
  | [] => .error .unterminated
  | x :: rest =>
    if c.atMarker then .error .unterminated
    else if isWhite x then
      let white := c.span isWhite
      .ok (some (fold white, white.length - 1))
    else match double, x, rest with
      | true, '"', _ => .ok none
      | true, '\\', y :: more =>
        if isBreak y then
          let white := more.takeWhile isWhite
          .ok (some ((white.filter isBreak).map breakText, white.length + 1))
        else (escape rest).map fun (d, n) => some ([d], n)
      | true, '\\', [] => .error .unterminated
      | false, '\x27', '\x27' :: _ => .ok (some (['\x27'], 1))
      | false, '\x27', _ => .ok none
      | _, _, _ => .ok (some ([x], 0))

theorem quotedPiece_lt {double : Bool} {c : Cursor} {r : Option (List Char × Nat)}
    (h : quotedPiece double c = .ok r) (n : Nat) :
    (c.skip (n + 1)).rest.length < c.rest.length := by
  rw [Cursor.length_skip]
  match hc : c.rest with
  | [] => simp [quotedPiece, hc] at h
  | x :: rest =>
    simp only [List.length_cons]
    omega

def quotedFrom (double : Bool) (read : List Char) (c : Cursor) :
    Except Error (List Char × Cursor) :=
  match h : quotedPiece double c with
  | .error e => .error e
  | .ok none => .ok (read.reverse, c.next)
  | .ok (some (text, n)) =>
    have := quotedPiece_lt h n
    quotedFrom double (text.reverse ++ read) (c.skip (n + 1))
termination_by c.rest.length

def quoted (double : Bool) (c : Cursor) : Except Error (String × Cursor) := do
  let (text, c) ← quotedFrom double [] c.next
  return (String.ofList text, c)

def isFlowMark (c : Char) : Bool :=
  c == ',' || c == '?' || c == '[' || c == ']' || c == '\x7b' || c == '\x7d'

def isIndicator (c : Char) : Bool :=
  c == '-' || c == '?' || c == ':' || ",[]\x7b\x7d#&*!|>\x27\x22%@\x60".toList.contains c

def startsPlain (flow : Bool) : List Char → Bool
  | [] => false
  | c :: rest =>
    if c == '-' then !(rest.head?.map isBlank).getD false
    else if c == '?' || c == ':' then !flow && !startsWhite rest
    else !isWhite c && !isIndicator c

def endsWord (flow : Bool) : List Char → Bool
  | [] => true
  | c :: rest => isWhite c || (c == ':' && startsWhite rest) || (flow && isFlowMark c)

def wordOnto (flow : Bool) (read : List Char) : List Char → List Char
  | [] => read
  | c :: rest => if endsWord flow (c :: rest) then read else wordOnto flow (c :: read) rest

/-- Whether a tab indents a line to the left of `indent`. The white space starts in `column`, and
`below` says whether a line ended in it. -/
def tabIndents (indent : Int) : (column : Nat) → (below : Bool) → List Char → Bool
  | _, _, [] => false
  | column, below, c :: rest =>
    if isBreak c then tabIndents indent 0 true rest
    else (below && c == '\t' && (column : Int) < indent) ||
      tabIndents indent (column + 1) below rest

structure Plain where
  text : List Char
  after : Cursor
  broken : Bool

/-- Reads plain text word by word. `read` is what was read so far, newest first, and `white` the
white space since. Outside brackets a line that is not indented by `indent` ends the text, and
everywhere a comment does. -/
def plainFrom (flow : Bool) (indent : Int) (read white : List Char) (c : Cursor) :
    Except Error Plain :=
  let broken := white.any isBreak
  if c.atMarker || c.head? == some '#' then .ok ⟨read.reverse, c, broken⟩
  else match hw : wordOnto flow [] c.rest with
    | [] => .ok ⟨read.reverse, c, broken⟩
    | x :: word =>
      let read := x :: word ++ ((fold white).reverse ++ read)
      let after := c.skip (word.length + 1)
      match after.span isWhite with
      | [] => .ok ⟨read.reverse, after, false⟩
      | y :: white =>
        if tabIndents indent after.column false (y :: white) then .error .tabIndentation
        else
          let next := after.skip (white.length + 1)
          if !flow && (next.column : Int) < indent then
            .ok ⟨read.reverse, next, (y :: white).any isBreak⟩
          else
            have : next.rest.length < c.rest.length := by
              have : c.rest ≠ [] := by
                intro h
                simp [h, wordOnto] at hw
              have := List.length_pos_iff.2 this
              simp only [next, after, Cursor.length_skip]
              omega
            plainFrom flow indent read (y :: white) next
termination_by c.rest.length

def plain (flow : Bool) (indent : Int) (c : Cursor) : Except Error Plain :=
  plainFrom flow indent [] [] c

end BytecodeFlow.Yaml
