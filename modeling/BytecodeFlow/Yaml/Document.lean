import BytecodeFlow.Yaml.Tokens

namespace BytecodeFlow.Yaml

/-- A node. Of a scalar it matters whether it is plain, since only then its text says what kind it is
of, where no tag does. An alias without a target stands inside the node that it names. -/
inductive Node
  | scalar (text : String) (plain : Bool) (tag : Option String)
  | sequence (items : List Node)
  | mapping (entries : List (Node × Node))
  | aliasOf (name : String) (target : Option Node)

def Node.empty : Node := .scalar "" true none

structure Anchor where
  number : Nat
  name : String
  node : Option Node := none

structure Reading where
  tokens : Tokens
  anchors : List Anchor := []
  handles : List (String × String) := []

abbrev Reader := StateT Reading (Except Error)

namespace Reader

def peek : Reader Token := do
  let r ← get
  match r.tokens.read, r.tokens.fault with
  | t :: _, _ => return t
  | [], some e => throw e
  | [], none => return .done

def skip : Reader Unit :=
  modify fun r => { r with tokens := { r.tokens with read := r.tokens.read.drop 1 } }

def following : Reader Token := do
  skip
  peek

/-- Adds an anchor. Until its node is read, an alias of it stands inside. -/
def announce (name : String) : Reader Nat := do
  let number := (← get).anchors.length
  modify fun r => { r with anchors := { number, name } :: r.anchors }
  return number

def settle (number : Nat) (n : Node) : Reader Unit :=
  modify fun r => { r with
    anchors := r.anchors.map fun a => if a.number = number then { a with node := some n } else a }

def target (name : String) : Reader Node := do
  match (← get).anchors.find? (·.name == name) with
  | some a => return .aliasOf name a.node
  | none => throw (.unknownAnchor name)

def standardTag : String := "tag:yaml.org,2002:"

def shortTag (t : String) : String :=
  if standardTag.isPrefixOf t then "!!" ++ (t.drop standardTag.length).toString else t

def expand (t : Tag) : Reader String := do
  if t.handle = "" then return t.suffix
  else match (← get).handles.find? (·.1 == t.handle) with
    | some (_, start) =>
      if start ++ t.suffix = "" then throw (.tag t.handle) else return start ++ t.suffix
    | none => throw (.tag t.handle)

def kind? (t : Option String) : Option String :=
  match t with
  | none => none
  | some t => if t = "!" then none else some (shortTag t)

structure Properties where
  anchor : Option String := none
  tag : Option String := none

def Properties.isEmpty (p : Properties) : Bool := p.anchor.isNone && p.tag.isNone

def properties : Reader (Properties × Token) := do
  match ← peek with
  | .anchor name =>
    match ← following with
    | .tag t =>
      let tag ← expand t
      return (⟨some name, some tag⟩, ← following)
    | t => return (⟨some name, none⟩, t)
  | .tag t =>
    match ← following with
    | .anchor name =>
      let next ← following
      return (⟨some name, some (← expand t)⟩, next)
    | next => return (⟨none, some (← expand t)⟩, next)
  | t => return ({}, t)

def flowNext (closing : Token) (first : Bool) : Reader Token := do
  let t ← peek
  if first || t == closing then return t
  else if t == .comma then following
  else throw .unexpected

mutual

/-- Reads a node. Block collections need layout, and a list without indentation the place of a
value. -/
def node (block indentless : Bool) : (fuel : Nat) → Reader Node
  | 0 => throw .tooDeep
  | fuel + 1 => do
    match ← peek with
    | .aliasOf name =>
      let n ← target name
      skip
      return n
    | _ =>
      let (p, t) ← properties
      match p.anchor with
      | none => content block indentless fuel p t
      | some name =>
        let number ← announce name
        let n ← content block indentless fuel p t
        settle number n
        return n

def content (block indentless : Bool) : (fuel : Nat) → Properties → Token → Reader Node
  | 0, _, _ => throw .tooDeep
  | fuel + 1, p, t => do
    match t with
    | .scalar text plain =>
      skip
      return .scalar text plain (kind? p.tag)
    | .openList =>
      skip
      return .sequence (← flowItems fuel true [])
    | .openMap =>
      skip
      return .mapping (← flowEntries fuel true [])
    | _ =>
      if indentless && t == .item then
        return .sequence (← indentlessItems fuel [])
      else if block && t == .blockList then
        skip
        return .sequence (← blockItems fuel [])
      else if block && t == .blockMap then
        skip
        return .mapping (← blockEntries fuel [])
      else if p.isEmpty then throw .unexpected
      else return .scalar "" true (kind? p.tag)

def blockItems : (fuel : Nat) → (read : List Node) → Reader (List Node)
  | 0, _ => throw .tooDeep
  | fuel + 1, read => do
    match ← peek with
    | .item =>
      let t ← following
      if t == .item || t == .blockEnd then blockItems fuel (.empty :: read)
      else
        let n ← node true false fuel
        blockItems fuel (n :: read)
    | .blockEnd =>
      skip
      return read.reverse
    | _ => throw .unexpected

/-- Reads the items of a list whose marks stand in the column of the mapping around it. -/
def indentlessItems : (fuel : Nat) → (read : List Node) → Reader (List Node)
  | 0, _ => throw .tooDeep
  | fuel + 1, read => do
    match ← peek with
    | .item =>
      let t ← following
      if t == .item || t == .key || t == .value || t == .blockEnd then
        indentlessItems fuel (.empty :: read)
      else
        let n ← node true false fuel
        indentlessItems fuel (n :: read)
    | _ => return read.reverse

def blockEntries : (fuel : Nat) → (read : List (Node × Node)) → Reader (List (Node × Node))
  | 0, _ => throw .tooDeep
  | fuel + 1, read => do
    match ← peek with
    | .key =>
      let k ← blockPart fuel (← following)
      let v ← blockValue fuel
      blockEntries fuel ((k, v) :: read)
    | .blockEnd =>
      skip
      return read.reverse
    | _ => throw .unexpected

def blockPart : (fuel : Nat) → Token → Reader Node
  | 0, _ => throw .tooDeep
  | fuel + 1, t =>
    if t == .key || t == .value || t == .blockEnd then return .empty else node true true fuel

def blockValue : (fuel : Nat) → Reader Node
  | 0 => throw .tooDeep
  | fuel + 1 => do
    match ← peek with
    | .value => blockPart fuel (← following)
    | _ => return .empty

def flowItems : (fuel : Nat) → (first : Bool) → (read : List Node) → Reader (List Node)
  | 0, _, _ => throw .tooDeep
  | fuel + 1, first, read => do
    match ← flowNext .closeList first with
    | .closeList =>
      skip
      return read.reverse
    | .key =>
      let n ← flowPair fuel (← following)
      flowItems fuel false (n :: read)
    | _ =>
      let n ← node false false fuel
      flowItems fuel false (n :: read)

def flowPair : (fuel : Nat) → Token → Reader Node
  | 0, _ => throw .tooDeep
  | fuel + 1, t => do
    let k ←
      if t == .value || t == .comma || t == .closeList then do
        -- a key that is missing takes the token in its place with it
        skip
        pure Node.empty
      else node false false fuel
    let v ← flowValue fuel .closeList
    let _ ← peek
    return .mapping [(k, v)]

def flowEntries : (fuel : Nat) → (first : Bool) → (read : List (Node × Node)) →
    Reader (List (Node × Node))
  | 0, _, _ => throw .tooDeep
  | fuel + 1, first, read => do
    match ← flowNext .closeMap first with
    | .closeMap =>
      skip
      return read.reverse
    | .key =>
      let t ← following
      let k ←
        if t == .value || t == .comma || t == .closeMap then pure Node.empty
        else node false false fuel
      let v ← flowValue fuel .closeMap
      flowEntries fuel false ((k, v) :: read)
    | _ =>
      let k ← node false false fuel
      let _ ← peek
      flowEntries fuel false ((k, .empty) :: read)

def flowValue : (fuel : Nat) → (closing : Token) → Reader Node
  | 0, _ => throw .tooDeep
  | fuel + 1, closing => do
    match ← peek with
    | .value =>
      let t ← following
      if t == .comma || t == closing then return .empty else node false false fuel
    | _ => return .empty

end

def standardHandles : List (String × String) := [("!", "!"), ("!!", standardTag)]

def directives : (fuel : Nat) → (versioned : Bool) → Reader Unit
  | 0, _ => throw .directive
  | fuel + 1, versioned => do
    match ← peek with
    | .version major minor =>
      if versioned then throw .directive
      else if major ≠ 1 || minor ≠ 1 then throw .version
      else
        skip
        directives fuel true
    | .handle name start =>
      if (← get).handles.any (·.1 == name) then throw .directive
      else
        modify fun r => { r with handles := r.handles ++ [(name, start)] }
        skip
        directives fuel versioned
    | .documentStart => skip
    | _ => throw .unexpected

def isBoundary : Token → Bool
  | .version _ _ => true
  | .handle _ _ => true
  | .documentStart => true
  | .documentEnd => true
  | .done => true
  | _ => false

def document (fuel : Nat) : Reader Node := do
  let t ← peek
  if t == .done then return .empty
  else
    let marked := isBoundary t && t != .documentEnd
    if marked then directives fuel false
    modify fun r => { r with handles := r.handles ++ standardHandles }
    let n ← if marked && isBoundary (← peek) then pure Node.empty else node true false fuel
    let _ ← peek
    return n

end Reader

def parse (s : String) : Except Error Node :=
  let cs := match s.toList with
    | c :: cs => if isByteOrderMark c then cs else c :: cs
    | [] => []
  match cs.find? (!isAllowed ·) with
  | some c => .error (.control c)
  | none =>
    let tokens := Tokens.ofText (plainBreaks cs)
    -- a token opens at most one node, and a node is read in at most four steps down
    (Reader.document (4 * tokens.read.length + 8)).run' { tokens }

end BytecodeFlow.Yaml
