import BytecodeFlow.Descriptor
import BytecodeFlow.Method
import Mathlib.Logic.Relation

/-!
What a method does when it runs, as far as null is concerned: values are told apart by their size and by
whether they are null, an object or a return address.

Only what decides where a value comes from is demanded of a state. A method that a verifier rejects
still runs here as long as its stack and locals suffice.
-/

namespace BytecodeFlow.Machine

/-- A value; `word` and `pair` stand for all others of one word and of two. -/
inductive Value
  | null
  | object
  | address (node : Nat)
  | word
  | pair
  deriving DecidableEq, Repr

namespace Value

def size : Value → Nat
  | pair => 2
  | _ => 1

def number : Numeric → Value
  | .int => word
  | .long => pair
  | .float => word
  | .double => pair

/-- The values of a declared type. -/
inductive Of : ValueType → Value → Prop
  | number (k : Numeric) : Of k.type (number k)
  | null (name : String) : Of (.object name) null
  | object (name : String) : Of (.object name) object

/-- The elements of an array. -/
inductive Element : Category → Value → Prop
  | number (k : Numeric) : Element (.number k) (number k)
  | null : Element .reference null
  | object : Element .reference object

/-- What an invocation leaves on the stack. -/
inductive Returned : Option ValueType → List Value → Prop
  | void : Returned none []
  | value {t : ValueType} {v : Value} : Of t v → Returned (some t) [v]

/-- The value that a constant load pushes. -/
def ofConstant? : Constant → Option Value
  | .int _ => some word
  | .long _ => some pair
  | .float _ => some word
  | .double _ => some pair
  | .string _ => some object
  | .class _ => some object
  | .methodType _ => some object
  | .methodHandle _ => some object
  | .other _ _ => none

/-- What is loaded from a slot that holds `v`. A load of another size than the value finds half of one
or two at once, and what it then pushes is anything of its size. -/
def LoadsAs (c : Category) (v w : Value) : Prop := w.size = c.slots ∧ (v.size = c.slots → w = v)

end Value

/-- The values of locals and stack, the latter from the top down. -/
structure State where
  locals : List Value
  stack : List Value
  deriving DecidableEq, Repr

/-- A value of two words whose second word is in slot `k` is about to lose it. Something of one word is
left of it. -/
inductive Halves (k : Nat) (l : List Value) : List Value → Prop
  | none : (∀ j, j + 1 = k → l[j]? ≠ some .pair) → Halves k l l
  | half {j : Nat} {w : Value} : j + 1 = k → l[j]? = some .pair → w.size = 1 → Halves k l (l.set j w)

/-- Stores a value into a slot, and its second word into the next. -/
inductive Stores (k : Nat) (v : Value) (l : List Value) : List Value → Prop
  | word {l' : List Value} : v.size = 1 → k < l.length → Halves k l l' →
    Stores k v l (l'.set k v)
  | pair {l' : List Value} {second : Value} : v.size = 2 → k + 1 < l.length → Halves k l l' →
    second.size = 1 → Stores k v l ((l'.set k v).set (k + 1) second)

/-- Rearrangements of the stack. The sizes tell the forms of an operation apart. -/
inductive Shuffles : Shuffle → List Value → List Value → Prop
  | pop {a : Value} {s : List Value} : Shuffles .pop (a :: s) s
  | pop2 {a b : Value} {s : List Value} : a.size = 1 → Shuffles .pop2 (a :: b :: s) s
  | pop2Pair {a : Value} {s : List Value} : a.size = 2 → Shuffles .pop2 (a :: s) s
  | dup {a : Value} {s : List Value} : Shuffles .dup (a :: s) (a :: a :: s)
  | dupX1 {a b : Value} {s : List Value} : Shuffles .dupX1 (a :: b :: s) (a :: b :: a :: s)
  | dupX2 {a b c : Value} {s : List Value} : b.size = 1 →
    Shuffles .dupX2 (a :: b :: c :: s) (a :: b :: c :: a :: s)
  | dupX2Pair {a b : Value} {s : List Value} : b.size = 2 →
    Shuffles .dupX2 (a :: b :: s) (a :: b :: a :: s)
  | dup2 {a b : Value} {s : List Value} : a.size = 1 →
    Shuffles .dup2 (a :: b :: s) (a :: b :: a :: b :: s)
  | dup2Pair {a : Value} {s : List Value} : a.size = 2 → Shuffles .dup2 (a :: s) (a :: a :: s)
  | dup2X1 {a b c : Value} {s : List Value} : a.size = 1 →
    Shuffles .dup2X1 (a :: b :: c :: s) (a :: b :: c :: a :: b :: s)
  | dup2X1Pair {a b : Value} {s : List Value} : a.size = 2 →
    Shuffles .dup2X1 (a :: b :: s) (a :: b :: a :: s)
  | dup2X2 {a b c d : Value} {s : List Value} : a.size = 1 → c.size = 1 →
    Shuffles .dup2X2 (a :: b :: c :: d :: s) (a :: b :: c :: d :: a :: b :: s)
  | dup2X2Below {a b c : Value} {s : List Value} : a.size = 1 → c.size = 2 →
    Shuffles .dup2X2 (a :: b :: c :: s) (a :: b :: c :: a :: b :: s)
  | dup2X2Above {a b c : Value} {s : List Value} : a.size = 2 → b.size = 1 →
    Shuffles .dup2X2 (a :: b :: c :: s) (a :: b :: c :: a :: s)
  | dup2X2Pairs {a b : Value} {s : List Value} : a.size = 2 → b.size = 2 →
    Shuffles .dup2X2 (a :: b :: s) (a :: b :: a :: s)
  | swap {a b : Value} {s : List Value} : Shuffles .swap (a :: b :: s) (b :: a :: s)

/-- The object that an invocation takes from below its arguments. -/
def receiver : Invocation → List Value
  | .virtual => [.object]
  | .special => [.object]
  | .interface => [.object]
  | .static => []
  | .dynamic => []

/-- What the instruction at a node makes of a state when it completes. Returns and throws do not, and
neither does a dereference of anything but an object. -/
inductive Executes (node : Nat) (instr : Instruction) : State → State → Prop
  | nop {s : State} : instr.operation = .nop → Executes node instr s s
  | goto {long : Bool} {s : State} : instr.operation = .goto long → Executes node instr s s
  | ret {s : State} : instr.operation = .ret → Executes node instr s s
  | null {l st : List Value} : instr.operation = .pushNull →
    Executes node instr ⟨l, st⟩ ⟨l, .null :: st⟩
  | number {k : Numeric} {l st : List Value} : instr.operation = .push k →
    Executes node instr ⟨l, st⟩ ⟨l, .number k :: st⟩
  | immediate {long : Bool} {l st : List Value} : instr.operation = .immediate long →
    Executes node instr ⟨l, st⟩ ⟨l, .word :: st⟩
  | constant {form : ConstantForm} {c : Constant} {v : Value} {l st : List Value} :
    instr.operation = .constant form → instr.constant = some c → Value.ofConstant? c = some v →
    Executes node instr ⟨l, st⟩ ⟨l, v :: st⟩
  | load {c : Category} {slot : Option (Fin 4)} {k : Nat} {v w : Value} {l st : List Value} :
    instr.operation = .load c slot → instr.localIndex = k → l[k]? = some v → v.LoadsAs c w →
    Executes node instr ⟨l, st⟩ ⟨l, w :: st⟩
  | store {c : Category} {slot : Option (Fin 4)} {k : Nat} {v : Value} {l l' st : List Value} :
    instr.operation = .store c slot → instr.localIndex = k → Stores k v l l' →
    Executes node instr ⟨l, v :: st⟩ ⟨l', st⟩
  | increment {k : Nat} {l st : List Value} : instr.operation = .increment → instr.index = k →
    k < l.length → Executes node instr ⟨l, st⟩ ⟨l.set k .word, st⟩
  | arrayLoad {c : Category} {index v : Value} {l st : List Value} :
    instr.operation = .arrayLoad c → v.Element c →
    Executes node instr ⟨l, index :: .object :: st⟩ ⟨l, v :: st⟩
  | arrayStore {v index : Value} {l st : List Value} : instr.operation = .arrayStore →
    Executes node instr ⟨l, v :: index :: .object :: st⟩ ⟨l, st⟩
  | shuffle {k : Shuffle} {l st st' : List Value} : instr.operation = .shuffle k →
    Shuffles k st st' → Executes node instr ⟨l, st⟩ ⟨l, st'⟩
  | unary {k : Numeric} {a : Value} {l st : List Value} : instr.operation = .unary k →
    Executes node instr ⟨l, a :: st⟩ ⟨l, .number k :: st⟩
  | binary {k : Numeric} {divides : Bool} {a b : Value} {l st : List Value} :
    instr.operation = .binary k divides →
    Executes node instr ⟨l, a :: b :: st⟩ ⟨l, .number k :: st⟩
  | testZero {a : Value} {l st : List Value} : instr.operation = .branch .zero →
    Executes node instr ⟨l, a :: st⟩ ⟨l, st⟩
  | testPair {a b : Value} {l st : List Value} : instr.operation = .branch .pair →
    Executes node instr ⟨l, a :: b :: st⟩ ⟨l, st⟩
  | testNull {jumpsOnNull : Bool} {a : Value} {l st : List Value} :
    instr.operation = .branch (.null jumpsOnNull) → Executes node instr ⟨l, a :: st⟩ ⟨l, st⟩
  | jsr {long : Bool} {l st : List Value} : instr.operation = .jsr long →
    Executes node instr ⟨l, st⟩ ⟨l, .address (node + 1) :: st⟩
  | switch {form : SwitchForm} {a : Value} {l st : List Value} : instr.operation = .switch form →
    Executes node instr ⟨l, a :: st⟩ ⟨l, st⟩
  | getStatic {m : Member} {t : ValueType} {v : Value} {l st : List Value} :
    instr.operation = .getStatic → instr.member = some m → Descriptor.field m.descriptor = .ok t →
    v.Of t → Executes node instr ⟨l, st⟩ ⟨l, v :: st⟩
  | putStatic {a : Value} {l st : List Value} : instr.operation = .putStatic →
    Executes node instr ⟨l, a :: st⟩ ⟨l, st⟩
  | getField {m : Member} {t : ValueType} {v : Value} {l st : List Value} :
    instr.operation = .getField → instr.member = some m → Descriptor.field m.descriptor = .ok t →
    v.Of t → Executes node instr ⟨l, .object :: st⟩ ⟨l, v :: st⟩
  | putField {a : Value} {l st : List Value} : instr.operation = .putField →
    Executes node instr ⟨l, a :: .object :: st⟩ ⟨l, st⟩
  | invoke {i : Invocation} {m : Member} {sig : Signature} {args out l st : List Value} :
    instr.operation = .invoke i → instr.member = some m →
    Descriptor.method m.descriptor = .ok sig → args.length = sig.params.length →
    Value.Returned sig.result out →
    Executes node instr ⟨l, args ++ (receiver i ++ st)⟩ ⟨l, out ++ st⟩
  | new {l st : List Value} : instr.operation = .new →
    Executes node instr ⟨l, st⟩ ⟨l, .object :: st⟩
  | newArray {count : Value} {l st : List Value} : instr.operation = .newArray →
    Executes node instr ⟨l, count :: st⟩ ⟨l, .object :: st⟩
  | newObjectArray {count : Value} {l st : List Value} : instr.operation = .newObjectArray →
    Executes node instr ⟨l, count :: st⟩ ⟨l, .object :: st⟩
  | newMultiArray {counts l st : List Value} : instr.operation = .newMultiArray →
    counts.length = instr.dims.toNat →
    Executes node instr ⟨l, counts ++ st⟩ ⟨l, .object :: st⟩
  | arrayLength {l st : List Value} : instr.operation = .arrayLength →
    Executes node instr ⟨l, .object :: st⟩ ⟨l, .word :: st⟩
  | checkCast {v : Value} {l st : List Value} : instr.operation = .checkCast → v.size = 1 →
    Executes node instr ⟨l, v :: st⟩ ⟨l, v :: st⟩
  | instanceOf {v : Value} {l st : List Value} : instr.operation = .instanceOf →
    Executes node instr ⟨l, v :: st⟩ ⟨l, .word :: st⟩
  | monitor {v : Value} {l st : List Value} : instr.operation = .monitor →
    Executes node instr ⟨l, v :: st⟩ ⟨l, st⟩

/-- The node is that of the instruction at an offset. -/
def At (c : Code) (offset : Int) (node : Nat) : Prop :=
  ∃ instr, c.instructions[node]? = some instr ∧ instr.offset = offset

/-- Where control goes from a node, in the state before its instruction. -/
inductive Goes (c : Code) (node : Nat) (instr : Instruction) (s : State) : Nat → Prop
  | next : instr.operation.flow = .next → Goes c node instr s (node + 1)
  | goto {long : Bool} {t : Nat} : instr.operation = .goto long → At c instr.target t →
    Goes c node instr s t
  | fall {test : Test} : instr.operation = .branch test → (∀ b, test ≠ .null b) →
    Goes c node instr s (node + 1)
  | jump {test : Test} {t : Nat} : instr.operation = .branch test → (∀ b, test ≠ .null b) →
    At c instr.target t → Goes c node instr s t
  | nullFall {jumpsOnNull : Bool} {v : Value} {st : List Value} :
    instr.operation = .branch (.null jumpsOnNull) → s.stack = v :: st →
    decide (v = .null) ≠ jumpsOnNull → Goes c node instr s (node + 1)
  | nullJump {jumpsOnNull : Bool} {v : Value} {st : List Value} {t : Nat} :
    instr.operation = .branch (.null jumpsOnNull) → s.stack = v :: st →
    decide (v = .null) = jumpsOnNull → At c instr.target t → Goes c node instr s t
  | jsr {long : Bool} {t : Nat} : instr.operation = .jsr long → At c instr.target t →
    Goes c node instr s t
  | ret {k t : Nat} : instr.operation = .ret → instr.index = k → s.locals[k]? = some (.address t) →
    Goes c node instr s t
  | switch {form : SwitchForm} {offset : Int} {t : Nat} : instr.operation = .switch form →
    offset ∈ instr.target :: instr.cases.map SwitchCase.target → At c offset t →
    Goes c node instr s t

/-- An instruction completes, and control goes on to another. -/
inductive Proceeds (m : Method) : Nat × State → Nat × State → Prop
  | step {i t : Nat} {instr : Instruction} {s s' : State} :
    m.code.instructions[i]? = some instr → Executes i instr s s' → Goes m.code i instr s t →
    t < m.code.instructions.length → Proceeds m (i, s) (t, s')

/-- An instruction throws, and a handler that protects it is entered. -/
inductive Throws (m : Method) : Nat × State → Nat × State → Prop
  | handler {i t : Nat} {instr : Instruction} {p : Protection} {l st : List Value} :
    m.code.instructions[i]? = some instr → instr.operation.throws = true → p ∈ m.code.handlers →
    p.covers instr.offset = true → At m.code p.entry t → Throws m (i, ⟨l, st⟩) (t, ⟨l, [.object]⟩)

/-- The locals begin with values of these types, and nothing of two words is behind them. -/
inductive Fills : List ValueType → List Value → Prop
  | free {vs : List Value} : (∀ v ∈ vs, v.size = 1) → Fills [] vs
  | word {t : ValueType} {ts : List ValueType} {v : Value} {vs : List Value} :
    v.Of t → v.size = 1 → Fills ts vs → Fills (t :: ts) (v :: vs)
  | pair {t : ValueType} {ts : List ValueType} {v second : Value} {vs : List Value} :
    v.Of t → v.size = 2 → second.size = 1 → Fills ts vs → Fills (t :: ts) (v :: second :: vs)

/-- A method may be entered in this state. -/
inductive Enters (m : Method) : State → Prop
  | ofStatic {sig : Signature} {l : List Value} : m.static = true →
    Descriptor.method m.descriptor = .ok sig → Fills sig.params l →
    (l.length : Int) = m.code.maxLocals → Enters m ⟨l, []⟩
  | ofInstance {sig : Signature} {l : List Value} : m.static = false →
    Descriptor.method m.descriptor = .ok sig → Fills sig.params l →
    (l.length + 1 : Int) = m.code.maxLocals → Enters m ⟨.object :: l, []⟩

/-- The states in which nodes are reached when a method runs. -/
def Runs (m : Method) (s₀ : State) : Nat × State → Prop :=
  Relation.ReflTransGen (fun x y => Proceeds m x y ∨ Throws m x y) (0, s₀)

end BytecodeFlow.Machine
