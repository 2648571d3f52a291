import BytecodeFlow.Assembly.Statement
import BytecodeFlow.Text.Basic

/-!
Assembly of a whole text. Lines are laid out one after the other; a label stands for the length of
the code before it, wherever it is used. Labels are looked up once all lines are read.
-/

namespace BytecodeFlow.Assembly

structure HandlerDraft where
  catchType : String
  first : String
  last : String
  entry : String
  line : Nat

structure VarDraft where
  slot : Int
  name : String
  descriptor : String
  first : String
  last : String
  line : Nat

structure Listing where
  drafts : Array (Draft × Nat) := #[]
  handlers : Array HandlerDraft := #[]
  lines : Array LineEntry := #[]
  vars : Array VarDraft := #[]
  labels : List (String × Int) := []
  offset : Int := 0
  used : Int := 0
  maxStack : Int := 0
  maxLocals : Option Int := none

namespace Listing

def addLabel (l : Listing) (name : String) : Except LineError Listing :=
  if (l.labels.lookup name).isSome then .error (.duplicateLabel name)
  else .ok { l with labels := (name, l.offset) :: l.labels }

def useLocal (l : Listing) (slot : Int) (count : Nat) : Listing :=
  { l with used := max l.used (word (slot + count)) }

def addDirective (l : Listing) (line : Nat) : Directive → Listing
  | .line n => { l with lines := l.lines.push ⟨l.offset, n⟩ }
  | .maxStack n => { l with maxStack := n }
  | .maxLocals n => { l with maxLocals := some n }
  | .handler kind first last entry =>
    { l with handlers := l.handlers.push ⟨kind, first, last, entry, line⟩ }
  | .var slot name descriptor first last =>
    let l := { l with vars := l.vars.push ⟨slot, name, descriptor, first, last, line⟩ }
    l.useLocal slot (if descriptor = "J" ∨ descriptor = "D" then 2 else 1)

def addInstruction (l : Listing) (line : Nat) (d : Draft) : Listing :=
  let l := { l with drafts := l.drafts.push (d, line), offset := l.offset + d.instr.length }
  match d.use with
  | some (slot, count) => l.useLocal slot count
  | none => l

def addStatement (l : Listing) (line : Nat) (cs : List Char) : Except LineError Listing :=
  match cs with
  | [] => .ok l
  | '.' :: _ => (directive cs).map (l.addDirective line)
  | _ => (instruction l.offset cs).map (l.addInstruction line)

def addLine (l : Listing) (line : Nat) (text : String) : Except LineError Listing := do
  let (labels, rest) := splitLabels (content text)
  (← labels.foldlM addLabel l).addStatement line rest

def addLines (l : Listing) : (line : Nat) → List String → Except Error Listing
  | _, [] => .ok l
  | line, text :: rest =>
    match l.addLine line text with
    | .error e => .error (.line line e)
    | .ok l => l.addLines (line + 1) rest

def labelOffset (l : Listing) (line : Nat) (label : String) : Except Error Int :=
  match l.labels.lookup label with
  | some offset => .ok offset
  | none => .error (.undefinedLabel line label)

def resolveInstruction (l : Listing) (d : Draft) (line : Nat) : Except Error Instruction := do
  let target ← match d.target with
    | some label => l.labelOffset line label
    | none => .ok d.instr.target
  let offsets ← d.caseTargets.mapM (l.labelOffset line)
  let cases := d.instr.cases.zipWith (fun c target => { c with target }) offsets
  return { d.instr with target, cases }

def resolveHandler (l : Listing) (h : HandlerDraft) : Except Error Protection := do
  let first ← l.labelOffset h.line h.first
  let last ← l.labelOffset h.line h.last
  let entry ← l.labelOffset h.line h.entry
  return ⟨first, last, entry, h.catchType⟩

def resolveVar (l : Listing) (v : VarDraft) : Except Error LocalVariable := do
  let first ← l.labelOffset v.line v.first
  let last ← l.labelOffset v.line v.last
  return ⟨v.slot, v.name, v.descriptor, first, last - first⟩

/-- The code, once every label has its offset. Without a limit of its own the code gets as many
locals as it uses. -/
def resolve (l : Listing) : Except Error Code := do
  let instructions ← l.drafts.toList.mapM fun (d, line) => l.resolveInstruction d line
  let handlers ← l.handlers.toList.mapM l.resolveHandler
  let locals ← l.vars.toList.mapM l.resolveVar
  return {
    instructions, handlers, locals
    lines := l.lines.toList
    maxStack := l.maxStack
    maxLocals := l.maxLocals.getD l.used }

end Listing

def assemble (source : String) : Except Error Code := do
  let text := Text.linesOf source.toList
  let listing ← ({} : Listing).addLines 1 text.fitting
  if text.overlong then .error .overlong else listing.resolve

end BytecodeFlow.Assembly
