import BytecodeFlow.Yaml.Cursor

namespace BytecodeFlow.Yaml

inductive Chomping
  | strip
  | clip
  | keep
  deriving DecidableEq, Repr

def Chomping.ofMark? : Char → Option Chomping
  | '-' => some .strip
  | '+' => some .keep
  | _ => none

structure BlockHead where
  chomping : Chomping := .clip
  increment : Option Nat := none

namespace BlockHead

def increment? (x : Char) : Option (Except Error Nat) :=
  if x == '0' then some (.error .blockHead)
  else if '1' ≤ x && x ≤ '9' then some (.ok (x.toNat - '0'.toNat))
  else none

def read (c : Cursor) : Except Error (BlockHead × Cursor) :=
  match c.rest with
  | [] => .ok ({}, c)
  | x :: rest =>
    match Chomping.ofMark? x, increment? x with
    | some chomping, _ =>
      match rest.head?.bind increment? with
      | some n => do return ({ chomping, increment := some (← n) }, c.skip 2)
      | none => .ok ({ chomping }, c.next)
    | none, some n => do
      let increment := some (← n)
      match rest.head?.bind Chomping.ofMark? with
      | some chomping => return ({ chomping, increment }, c.skip 2)
      | none => return ({ increment }, c.next)
    | none, none => .ok ({}, c)

def indent? (h : BlockHead) (parent : Int) : Option Nat :=
  h.increment.map ((max parent 0).toNat + ·)

end BlockHead

def endLine (c : Cursor) : Except Error Cursor :=
  let c := c.skipWhile isBlank
  let c := if c.head? == some '#' then c.skipComment else c
  match c.rest with
  | [] => .ok c
  | x :: _ => if isBreak x then .ok c.next else .error .blockHead

structure EmptyLines where
  breaks : List Char
  after : Cursor
  deepest : Nat

/-- The place behind the indentation of a line. As long as it is not known how deep the text is
indented, all blanks belong to it. -/
def skipIndent (indent : Option Nat) (c : Cursor) : Cursor :=
  let blanks := (c.span (· == ' ')).length
  c.skip (match indent with | some n => min blanks (n - c.column) | none => blanks)

theorem length_skipIndent_le (indent : Option Nat) (c : Cursor) :
    (skipIndent indent c).rest.length ≤ c.rest.length := by
  simp only [skipIndent, Cursor.length_skip]
  omega

theorem length_next_skipIndent {indent : Option Nat} {c : Cursor} {x : Char}
    (h : (skipIndent indent c).head? = some x) :
    (skipIndent indent c).next.rest.length < c.rest.length :=
  Nat.lt_of_lt_of_le (Cursor.length_next_lt h) (length_skipIndent_le indent c)

/-- Skips indentation and empty lines. A tab does not indent. `read` holds the line ends so far,
newest first. -/
def emptyLines (indent : Option Nat) (deepest : Nat) (read : List Char) (c : Cursor) :
    Except Error EmptyLines :=
  let behind := skipIndent indent c
  let deepest := max deepest behind.column
  let inside := match indent with | some n => behind.column < n | none => true
  match h : behind.head? with
  | none => .ok ⟨read.reverse, behind, deepest⟩
  | some x =>
    if inside && x == '\t' then .error .tabIndentation
    else if isBreak x then
      have := length_next_skipIndent h
      emptyLines indent deepest (breakText x :: read) behind.next
    else .ok ⟨read.reverse, behind, deepest⟩
termination_by c.rest.length

theorem emptyLines_le {indent : Option Nat} {deepest : Nat} {read : List Char} {c : Cursor}
    {e : EmptyLines} (h : emptyLines indent deepest read c = .ok e) :
    e.after.rest.length ≤ c.rest.length := by
  fun_induction emptyLines indent deepest read c with
  | case1 deepest read c behind =>
    cases h
    exact length_skipIndent_le indent c
  | case2 => simp at h
  | case3 deepest read c behind _ _ x hx _ _ lt ih =>
    exact Nat.le_trans (ih h) (Nat.le_of_lt lt)
  | case4 deepest read c behind =>
    cases h
    exact length_skipIndent_le indent c

/-- Literal text in the making: what is read, last character first, the line end of the last line
with text, the empty lines since, and whether that line began with a blank. -/
structure Literal where
  read : List Char := []
  lineEnd : List Char := []
  empty : List Char := []
  indented : Bool := false

namespace Literal

def add (t : Literal) (folded : Bool) (content : List Char) : Literal :=
  let indented := (content.head?.map isBlank).getD false
  let glue :=
    if folded && t.lineEnd == ['\n'] && !t.indented && !indented then
      if t.empty.isEmpty then [' '] else []
    else t.lineEnd
  { read := content.reverse ++ t.empty.reverse ++ glue.reverse ++ t.read, indented }

def finish (t : Literal) (c : Chomping) : String :=
  let ending := match c with
    | .strip => []
    | .clip => t.lineEnd
    | .keep => t.lineEnd ++ t.empty
  String.ofList (t.read.reverse ++ ending)

end Literal

def literalFrom (folded : Bool) (indent : Nat) (t : Literal) (c : Cursor) :
    Except Error (Literal × Cursor) :=
  if c.column != indent then .ok (t, c)
  else match hc : c.rest with
    | [] => .ok (t, c)
    | _ :: _ =>
      let content := c.span (!isBreak ·)
      let lineEnd := ((c.skip content.length).rest.take 1).map breakText
      match he : emptyLines (some indent) 0 [] (c.skip (content.length + 1)) with
      | .error e => .error e
      | .ok gap =>
        have : gap.after.rest.length < c.rest.length := by
          have := emptyLines_le he
          rw [Cursor.length_skip] at this
          simp only [hc, List.length_cons] at *
          omega
        let t := { t.add folded content with lineEnd, empty := gap.breaks }
        literalFrom folded indent t gap.after
termination_by c.rest.length

def literal (folded : Bool) (parent : Int) (c : Cursor) : Except Error (String × Cursor) := do
  let (head, c) ← BlockHead.read c.next
  let gap ← emptyLines (head.indent? parent) 0 [] (← endLine c)
  let indent := (head.indent? parent).getD (max gap.deepest (max (parent + 1) 1).toNat)
  let (t, c) ← literalFrom folded indent { empty := gap.breaks } gap.after
  return (t.finish head.chomping, c)

end BytecodeFlow.Yaml
