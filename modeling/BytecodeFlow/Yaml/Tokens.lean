import BytecodeFlow.Yaml.Token

/-!
The tokens of a text in order. Outside brackets the layout counts: a deeper column opens a
collection, and a column further left closes those in between. A key is known as one only by the
colon after it, so its token, and the beginning of the mapping it may open, are put in front of it
afterwards.
-/

namespace BytecodeFlow.Yaml

structure Row where
  newest : List Token := []
  size : Nat := 0

namespace Row

def push (r : Row) (t : Token) : Row := ⟨t :: r.newest, r.size + 1⟩

def insert (r : Row) (number : Nat) (t : Token) : Row :=
  let after := r.size - number
  ⟨r.newest.take after ++ t :: r.newest.drop after, r.size + 1⟩

def first (r : Row) (n : Nat) : List Token := (r.newest.drop (r.size - n)).reverse

def toList (r : Row) : List Token := r.newest.reverse

end Row

/-- A place where a key may have begun: the number of its first token, and whether a key must be
there because the line stands in the column of a mapping. -/
structure Candidate where
  token : Nat
  required : Bool
  index : Nat
  line : Nat
  column : Nat

/-- The characters that a key without a mark of its own may span, with blanks before the colon. -/
def keyReach : Nat := 1024

def depthLimit : Nat := 10000

def Candidate.reaches (k : Candidate) (c : Cursor) : Bool :=
  c.line ≤ k.line && c.index ≤ k.index + keyReach

/-- The tokens so far and what decides on the next: the column of the innermost block collection and
those around it, whether a key may begin here, and the place where one may have begun, inside the
innermost brackets and around each of them. -/
structure Layout where
  place : Cursor
  indent : Int := -1
  outerIndents : List Int := []
  keyAllowed : Bool := true
  candidate : Option Candidate := none
  outerCandidates : List (Option Candidate) := []
  tokens : Row := {}

namespace Layout

def inFlow (s : Layout) : Bool := !s.outerCandidates.isEmpty

def push (s : Layout) (t : Token) : Layout := { s with tokens := s.tokens.push t }

def take (s : Layout) (n : Nat) (t : Token) : Layout :=
  { s.push t with place := s.place.skip n }

def dropCandidate (s : Layout) : Except Error Layout :=
  match s.candidate with
  | some k => if k.required then .error .noColon else .ok { s with candidate := none }
  | none => .ok s

def noteCandidate (s : Layout) : Except Error Layout :=
  if s.keyAllowed then do
    let s ← s.dropCandidate
    return { s with
      candidate := some {
        token := s.tokens.size
        required := !s.inFlow && s.indent == s.place.column
        index := s.place.index
        line := s.place.line
        column := s.place.column } }
  else .ok s

def keyBefore (s : Layout) : Except Error (Option Candidate) :=
  match s.candidate with
  | none => .ok none
  | some k =>
    if k.reaches s.place then .ok (some k)
    else if k.required then .error .noColon
    else .ok none

def openBlock (s : Layout) (column before : Nat) (t : Token) : Except Error Layout :=
  if s.inFlow || (column : Int) ≤ s.indent then .ok s
  else if depthLimit ≤ s.outerIndents.length then .error .tooDeep
  else .ok { s with
    indent := column
    outerIndents := s.indent :: s.outerIndents
    tokens := s.tokens.insert before t }

def closeBlocks (s : Layout) (column : Int) : Layout :=
  if s.inFlow then s
  else
    let rec close (indent : Int) (tokens : Row) : List Int → Layout
      | [] => { s with indent, outerIndents := [], tokens }
      | outer :: more =>
        if column < indent then close outer (tokens.push .blockEnd) more
        else { s with indent, outerIndents := outer :: more, tokens }
    close s.indent s.tokens s.outerIndents

def betweenDocuments (s : Layout) : Except Error Layout := do
  let s ← (s.closeBlocks (-1)).dropCandidate
  return { s with keyAllowed := false }

def openBracket (s : Layout) (t : Token) : Except Error Layout := do
  let s ← s.noteCandidate
  if depthLimit ≤ s.outerCandidates.length then .error .tooDeep
  else return { s.take 1 t with
    keyAllowed := true
    candidate := none
    outerCandidates := s.candidate :: s.outerCandidates }

def closeBracket (s : Layout) (t : Token) : Except Error Layout := do
  let s ← s.dropCandidate
  let s := { s.take 1 t with keyAllowed := false }
  match s.outerCandidates with
  | [] => return s
  | candidate :: outerCandidates => return { s with candidate, outerCandidates }

def comma (s : Layout) : Except Error Layout := do
  return { (← s.dropCandidate).take 1 .comma with keyAllowed := true }

def blockMark (s : Layout) (mark : Char) (collection t : Token) : Except Error Layout := do
  if !s.inFlow && !s.keyAllowed then .error (.misplaced mark)
  else
    let s ← s.openBlock s.place.column s.tokens.size collection
    return (← s.dropCandidate).take 1 t

def item (s : Layout) : Except Error Layout := do
  return { ← s.blockMark '-' .blockList .item with keyAllowed := true }

def key (s : Layout) : Except Error Layout := do
  return { ← s.blockMark '?' .blockMap .key with keyAllowed := !s.inFlow }

def value (s : Layout) : Except Error Layout := do
  match ← s.keyBefore with
  | some k =>
    let s := { s with tokens := s.tokens.insert k.token .key }
    let s ← s.openBlock k.column k.token .blockMap
    return { s.take 1 .value with candidate := none, keyAllowed := false }
  | none =>
    let s := { s with candidate := none }
    if !s.inFlow && !s.keyAllowed then .error (.misplaced ':')
    else
      let s ← s.openBlock s.place.column s.tokens.size .blockMap
      return { s.take 1 .value with keyAllowed := !s.inFlow }

def keyPart (s : Layout) (read : Cursor → Except Error (Token × Cursor)) :
    Except Error Layout := do
  let s ← s.noteCandidate
  let (t, place) ← read s.place
  return { s.push t with place, keyAllowed := false }

def anchor (s : Layout) : Except Error Layout :=
  s.keyPart fun c => return (← nameBehind c).map .anchor id

def aliasOf (s : Layout) : Except Error Layout :=
  s.keyPart fun c => return (← nameBehind c).map .aliasOf id

def tagged (s : Layout) : Except Error Layout :=
  s.keyPart fun c => return (← tag c).map .tag id

def quotedScalar (s : Layout) (double : Bool) : Except Error Layout :=
  s.keyPart fun c => return (← quoted double c).map (.scalar · false) id

def plainScalar (s : Layout) : Except Error Layout := do
  let s ← s.noteCandidate
  let p ← plain s.inFlow (s.indent + 1) s.place
  return { s.push (.scalar (String.ofList p.text) true) with
    place := p.after
    keyAllowed := p.broken }

def literalScalar (s : Layout) (folded : Bool) : Except Error Layout := do
  let s ← s.dropCandidate
  let (text, place) ← literal folded s.indent s.place
  return { s.push (.scalar text false) with place, keyAllowed := true }

def skipWhite (s : Layout) : Layout :=
  let c := s.place.skipGap (s.inFlow || !s.keyAllowed)
  match h : c.head? with
  | none => { s with place := c }
  | some x =>
    if isBreak x then
      have := Cursor.length_next_skipGap h
      skipWhite { s with place := c.next, keyAllowed := s.keyAllowed || !s.inFlow }
    else { s with place := c }
termination_by s.place.rest.length

def token (s : Layout) (x : Char) (rest : List Char) : Except Error Layout :=
  let standsAlone := s.inFlow || startsWhite rest
  match x with
  | '[' => s.openBracket .openList
  | '\x7b' => s.openBracket .openMap
  | ']' => s.closeBracket .closeList
  | '\x7d' => s.closeBracket .closeMap
  | ',' => s.comma
  | '*' => s.aliasOf
  | '&' => s.anchor
  | '!' => s.tagged
  | '\x27' => s.quotedScalar false
  | '"' => s.quotedScalar true
  | _ =>
    if x == '-' && startsWhite rest then s.item
    else if x == '?' && standsAlone then s.key
    else if x == ':' && standsAlone then s.value
    else if x == '|' && !s.inFlow then s.literalScalar false
    else if x == '>' && !s.inFlow then s.literalScalar true
    else if startsPlain s.inFlow (x :: rest) then s.plainScalar
    else .error (.noToken x)

/-- Reads the next token, none at the end of the text, with a comment behind it. A comment behind the
mark of a list item is left for the item. -/
def next (s : Layout) : Except Error (Option Layout) := do
  let s := s.skipWhite
  let s := s.closeBlocks s.place.column
  match s.place.rest with
  | [] => return none
  | x :: rest =>
    if s.place.column = 0 && x == '%' then
      let s ← s.betweenDocuments
      let (t, place) ← directive s.place
      return some { s.push t with place }
    else if s.place.atMarker then
      let s ← s.betweenDocuments
      return some (s.take 3 (if x == '-' then .documentStart else .documentEnd))
    else
      let s ← s.token x rest
      if s.tokens.newest.head? == some .item then return some s
      else return some { s with place := s.place.skipLineComment }

end Layout

structure Tokens where
  read : List Token
  fault : Option Error

/-- The number of tokens that are known before a fault: two more have been read after each, and none
could still be the beginning of a key. -/
def Layout.known (s : Layout) : Nat :=
  let candidates := (s.candidate :: s.outerCandidates).filterMap id
  let waiting := candidates.filter fun k => k.required || k.reaches s.place
  waiting.foldl (fun n k => min n k.token) (s.tokens.size - 2)

def Layout.stop (s : Layout) (e : Error) : Tokens := ⟨s.tokens.first s.known, some e⟩

def Layout.run : (fuel : Nat) → Layout → Tokens
  | 0, s => ⟨s.tokens.toList, none⟩
  | fuel + 1, s =>
    match s.next with
    | .error e => s.stop e
    | .ok (some s) => run fuel s
    | .ok none =>
      match s.skipWhite.betweenDocuments with
      | .error e => s.stop e
      | .ok s => ⟨(s.push .done).tokens.toList, none⟩

def Tokens.ofText (cs : List Char) : Tokens :=
  -- a token takes up a character at least
  Layout.run (cs.length + 1) { place := { rest := cs } }

end BytecodeFlow.Yaml
