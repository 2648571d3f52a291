import BytecodeFlow.Proofs.Defects
import BytecodeFlow.Proofs.Effect
import BytecodeFlow.Dependency
import BytecodeFlow.Successors

/-!
How the simulation of one instruction can fail. An instruction of a method without defects has the
operands that its operation asks for, so that only the frame, a descriptor or a constant is to blame.
-/

namespace BytecodeFlow

/-- A computation fails only in such a way. -/
def FailsOnly (P : ε → Prop) (x : Except ε α) : Prop := ∀ e, x = .error e → P e

namespace FailsOnly

variable {P : ε → Prop} {x : Except ε α}

theorem ok (a : α) : FailsOnly P (.ok a : Except ε α) := by
  rintro _ ⟨⟩

theorem error {e : ε} (h : P e) : FailsOnly P (.error e : Except ε α) := by
  rintro _ ⟨⟩
  exact h

theorem bind {f : α → Except ε β} (hx : FailsOnly P x) (hf : ∀ a, x = .ok a → FailsOnly P (f a)) :
    FailsOnly P (x >>= f) := by
  cases x with
  | error e => exact .error (hx e rfl)
  | ok a => exact hf a rfl

theorem mapError {Q : ε' → Prop} {f : ε → ε'} (hx : FailsOnly P x) (hf : ∀ e, P e → Q (f e)) :
    FailsOnly Q (x.mapError f) := by
  cases x with
  | error e => exact .error (hf e (hx e rfl))
  | ok a => exact .ok a

theorem mapError_of {Q : ε' → Prop} {f : ε → ε'} (hf : ∀ e, Q (f e)) : FailsOnly Q (x.mapError f) := by
  cases x with
  | error e => exact .error (hf e)
  | ok a => exact .ok a

end FailsOnly

/-- The faults of a frame that an instruction finds no use for: too little on the stack, a slot that is
not there, or a slot that holds no address to return to. -/
inductive Fault.OfFrame : Fault → Prop
  | emptyStack : OfFrame .emptyStack
  | depth (depth : Int) (entries : Nat) : OfFrame (.depth depth entries)
  | slot (slot : Int) (slots : Nat) : OfFrame (.slot slot slots)
  | notReturnAddress (slot : Int) (held : ValueType) : OfFrame (.notReturnAddress slot held)

/-- The failures that are not due to a visitor: faults of a frame, malformed descriptors, constants of
an unknown kind, too many parameters and cancellation. -/
inductive Failure.Ordinary (m : Method) : Failure → Prop
  | fault {cause : Fault} : cause.OfFrame → Ordinary m (.fault cause)
  | receiver (cause : Descriptor.Error) : Ordinary m (.receiver cause)
  | member (instr : Instruction) (cause : Descriptor.Error) : Ordinary m (.member instr cause)
  | constant (node : Int) (tag : UInt8) : Ordinary m (.constant node (.unknown tag))
  | signature (cause : Descriptor.Error) : Ordinary m (.signature m cause)
  | parameterSlots (need : Nat) : Ordinary m (.parameterSlots m need)
  | cancelled : Ordinary m .cancelled

theorem Opcode.operation_ne_undefined {op : Opcode} (h : op.valid = true) :
    op.operation ≠ .undefined := by
  have all : ∀ c : Fin names.size, operationAt c ≠ .undefined := by decide +kernel
  exact all ⟨op.code.toNat, of_decide_eq_true h⟩

namespace Frame

variable {f : Frame}

theorem failsOnly_pop : FailsOnly Fault.OfFrame f.pop := by
  rw [pop]
  split
  · exact .error .emptyStack
  · exact .ok _

theorem failsOnly_popMany (n : Nat) : FailsOnly Fault.OfFrame (f.popMany n) := by
  rw [popMany]
  split
  · exact .ok _
  · exact .error .emptyStack

theorem failsOnly_peek (depth : Int) : FailsOnly Fault.OfFrame (f.peek depth) := by
  unfold peek
  split
  · split
    · exact .ok _
    · exact .error (.depth _ _)
  · exact .error (.depth _ _)

theorem failsOnly_getLocal (slot : Int) : FailsOnly Fault.OfFrame (f.getLocal slot) := by
  unfold getLocal
  split
  · split
    · exact .ok _
    · exact .error (.slot _ _)
  · exact .error (.slot _ _)

theorem failsOnly_setLocal (slot : Int) (e : Entry) : FailsOnly Fault.OfFrame (f.setLocal slot e) := by
  rw [setLocal]
  split
  · exact .ok _
  · exact .error (.slot _ _)

end Frame

namespace Node

variable {f : Frame}

theorem failsOnly_testNull (jumpsOnNull : Bool) (next target : Nat) :
    FailsOnly Fault.OfFrame (testNull jumpsOnNull next target f) := by
  refine (Frame.failsOnly_peek 0).bind fun top _ => ?_
  split
  · exact .ok _
  · split <;> exact .ok _

/-- A return finds no address out of range if all that the frame holds are in range. -/
theorem failsOnly_returnNode {nodes : Nat} (slot : Int)
    (hf : ∀ e ∈ f.entries, ∀ {a : Int}, e.type = .returnAddress a → 0 ≤ a ∧ a < nodes) :
    FailsOnly Fault.OfFrame (returnNode slot nodes f) := by
  refine (Frame.failsOnly_getLocal slot).bind fun e he => ?_
  have he : e ∈ f.entries := Frame.mem_entries.2 (.inl (Frame.mem_of_getLocal he))
  split
  next a ha =>
    rw [if_pos (hf e he ha)]
    exact .ok _
  next => exact .error (.notReturnAddress _ _)

theorem failsOnly_successors {n : Node} {nodes : Nat}
    (hf : ∀ e ∈ f.entries, ∀ {a : Int}, e.type = .returnAddress a → 0 ≤ a ∧ a < nodes) :
    FailsOnly Fault.OfFrame (n.successors nodes f) := by
  rw [successors]
  split
  · split
    · exact failsOnly_testNull _ _ _
    · exact .ok _
  · exact .ok _
  · exact (failsOnly_returnNode _ hf).bind fun t _ => .ok _
  · exact .ok _

end Node

section

variable {m : Method} {instr : Instruction} {f : Frame}

theorem Instruction.Complete.exists_member (h : instr.Complete)
    (hop : instr.operation = .getStatic ∨ instr.operation = .getField ∨
      ∃ i, instr.operation = .invoke i) : ∃ member, instr.member = some member := by
  have hm := h.operands
  cases h' : instr.member with
  | some member => exact ⟨member, rfl⟩
  | none => rcases hop with hop | hop | ⟨i, hop⟩ <;> simp [missingOperand?, hop, h'] at hm

theorem Receiver.failsOnly_invoked (h : instr.Complete) {i : Invocation}
    (hop : instr.operation = .invoke i) : FailsOnly (Failure.Ordinary m) (depth?.invoked instr) := by
  obtain ⟨member, hm⟩ := h.exists_member (.inr (.inr ⟨i, hop⟩))
  rw [depth?.invoked, hm]
  simp only
  split
  · exact .ok _
  · exact .error (.receiver _)

theorem Receiver.failsOnly_depth? (h : instr.Complete) :
    FailsOnly (Failure.Ordinary m) (depth? instr) := by
  rw [depth?]
  split
  case h_6 hop => exact failsOnly_invoked h hop
  case h_7 hop => exact failsOnly_invoked h hop
  case h_8 hop => exact failsOnly_invoked h hop
  all_goals exact .ok _

/-- The receiver is not found only for ordinary reasons, or it is null. -/
theorem Receiver.failsOnly_type? (site : Site) (h : site.instr.Complete) :
    FailsOnly (fun e => e.Ordinary m ∨ ∃ node cause, e = .nullReceiver node cause) (type? site f) := by
  refine FailsOnly.bind (fun e he => .inl (failsOnly_depth? h e he)) fun d? _ => ?_
  split
  · exact .ok _
  · split
    next e he => exact .error (.inl (.fault (Frame.failsOnly_peek _ e he)))
    next =>
      split
      · exact .error (.inr ⟨_, _, rfl⟩)
      · exact .ok _

end

namespace Effect

variable {m : Method} {ctx : Context} {node : Int} {instr : Instruction} {f : Frame}

theorem failsOnly_orFault {x : Except Fault α} (h : FailsOnly Fault.OfFrame x) :
    FailsOnly (Failure.Ordinary m) (orFault x) :=
  h.mapError fun _ => .fault

theorem failsOnly_shuffle (k : Shuffle) (stack : List Entry) :
    FailsOnly Fault.OfFrame (shuffle k stack) := by
  intro e
  fun_cases shuffle k stack <;> rintro ⟨⟩ <;> constructor

theorem failsOnly_popPush (n : Nat) (e : Entry) : FailsOnly Fault.OfFrame (popPush f n e) :=
  (Frame.failsOnly_popMany n).bind fun _ _ => .ok _

theorem failsOnly_clobber (node slot : Int) : FailsOnly Fault.OfFrame (clobber node slot f) := by
  rw [clobber]
  split
  · refine (Frame.failsOnly_getLocal _).bind fun e _ => ?_
    split
    · exact Frame.failsOnly_setLocal _ _
    · exact .ok _
  · exact .ok _

theorem failsOnly_store : FailsOnly Fault.OfFrame (store ctx node instr f) := by
  refine Frame.failsOnly_pop.bind ?_
  rintro ⟨value, f⟩ -
  refine (failsOnly_clobber _ _).bind fun f _ => ?_
  refine (Frame.failsOnly_setLocal _ _).bind fun f _ => ?_
  split
  · exact Frame.failsOnly_setLocal _ _
  · exact .ok _

theorem failsOnly_load (c : Category) : FailsOnly Fault.OfFrame (load c instr f) :=
  (Frame.failsOnly_getLocal _).bind fun _ _ => .ok _

theorem failsOnly_popReceiver (i : Invocation) (member : Member) :
    FailsOnly Fault.OfFrame (popReceiver i member f) := by
  rw [popReceiver]
  split
  · refine Frame.failsOnly_pop.bind ?_
    rintro ⟨receiver, f⟩ -
    dsimp only
    split <;> exact .ok _
  · exact .ok _

theorem failsOnly_fieldType (h : instr.Complete)
    (hop : instr.operation = .getStatic ∨ instr.operation = .getField) :
    FailsOnly (Failure.Ordinary m) (fieldType instr) := by
  obtain ⟨member, hm⟩ := h.exists_member (hop.imp_right .inl)
  rw [fieldType, hm]
  exact .mapError_of (.member instr)

theorem failsOnly_invoke (h : instr.Complete) {i : Invocation} (hop : instr.operation = .invoke i) :
    FailsOnly (Failure.Ordinary m) (invoke node i instr f) := by
  obtain ⟨member, hm⟩ := h.exists_member (.inr (.inr ⟨i, hop⟩))
  rw [invoke, hm]
  refine (FailsOnly.mapError_of (.member instr)).bind fun signature _ => ?_
  refine (failsOnly_orFault (Frame.failsOnly_popMany _)).bind fun f _ => ?_
  refine (failsOnly_orFault (failsOnly_popReceiver i member)).bind fun f _ => ?_
  split <;> exact .ok _

theorem failsOnly_constantType (node : Int) (c : Constant) :
    FailsOnly (Failure.Ordinary m) ((constantType c).mapError (.constant node)) := by
  cases c with
  | other tag _ => exact .error (.constant node tag)
  | _ => exact .ok _

theorem failsOnly_apply (h : instr.Complete) :
    FailsOnly (Failure.Ordinary m) (apply ctx node instr f) := by
  have popped (n : Nat) : FailsOnly (Failure.Ordinary m) (orFault (f.popMany n)) :=
    failsOnly_orFault (Frame.failsOnly_popMany n)
  have popPushed (n : Nat) (e : Entry) : FailsOnly (Failure.Ordinary m) (orFault (popPush f n e)) :=
    failsOnly_orFault (failsOnly_popPush n e)
  have emptyStack : FailsOnly (α := Frame) (Failure.Ordinary m) (.error (.fault .emptyStack)) :=
    .error (.fault .emptyStack)
  unfold apply
  cases hop : instr.operation
  case nop | goto | ret | returnVoid | pushNull | push | immediate | jsr | new => exact .ok _
  case constant =>
    have hc := h.operands
    rw [Instruction.missingOperand?, hop] at hc
    cases hi : instr.constant with
    | none => simp [hi] at hc
    | some c => exact (failsOnly_constantType node c).bind fun _ _ => .ok _
  case load => exact failsOnly_orFault (failsOnly_load _)
  case store => exact failsOnly_orFault failsOnly_store
  case increment => exact failsOnly_orFault (Frame.failsOnly_setLocal _ _)
  case arrayLoad =>
    simp only
    split
    · exact .ok _
    · exact emptyStack
  case shuffle => exact (failsOnly_orFault (failsOnly_shuffle _ _)).bind fun _ _ => .ok _
  case arrayStore | branch | switch | returnValue | putStatic | putField | monitor => exact popped _
  case unary | binary | arrayLength | instanceOf | newArray | newObjectArray | newMultiArray =>
    exact popPushed _ _
  case getStatic => exact (failsOnly_fieldType h (.inl hop)).bind fun _ _ => .ok _
  case getField => exact (failsOnly_fieldType h (.inr hop)).bind fun _ _ => popPushed _ _
  case invoke => exact failsOnly_invoke h hop
  case throw | checkCast =>
    simp only
    split
    · exact .ok _
    · exact emptyStack
  case wide => exact absurd hop h.notWide
  case undefined => exact absurd hop (Opcode.operation_ne_undefined h.valid)

end Effect

theorem Method.failsOnly_startFrame (m : Method) :
    FailsOnly (fun e => e.Ordinary m ∨ e = .slotLimit ∧ Frame.slotLimit < m.code.maxLocals)
      m.startFrame := by
  rw [startFrame]
  split
  · exact .error (.inl (.signature _))
  · simp only
    split
    · exact .error (.inl (.parameterSlots _))
    · split
      next h => exact .error (.inr ⟨rfl, h⟩)
      next => exact .ok _

end BytecodeFlow
