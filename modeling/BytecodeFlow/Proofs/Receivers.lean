import BytecodeFlow.Proofs.Locality

/-!
The receiver is the deepest entry that an instruction takes off the stack. Where it is looked for and what
is popped are read off the operation in two places, and they agree.
-/

namespace BytecodeFlow

open Effect

/-- Operations that reach into an object on the stack. -/
def Operation.dereferences : Operation → Bool
  | .getField => true
  | .putField => true
  | .arrayLength => true
  | .arrayLoad _ => true
  | .arrayStore => true
  | .invoke i => hasReceiver i
  | _ => false

namespace Receiver

variable {node line : Int} {instr : Instruction} {d : Nat} {f : Frame} {receiver : Entry}

/-- The instructions with a receiver, by the number of entries above it. -/
inductive Under (instr : Instruction) : Nat → Prop
  | getField : instr.operation = .getField → Under instr 0
  | arrayLength : instr.operation = .arrayLength → Under instr 0
  | putField : instr.operation = .putField → Under instr 1
  | arrayLoad {c : Category} : instr.operation = .arrayLoad c → Under instr 1
  | arrayStore : instr.operation = .arrayStore → Under instr 2
  | invoke {i : Invocation} {m : Member} {sig : Signature} : instr.operation = .invoke i →
    hasReceiver i = true → instr.member = some m → Descriptor.method m.descriptor = .ok sig →
    Under instr sig.params.length

theorem exists_of_invoked {d? : Option Nat} (h : depth?.invoked instr = .ok d?) :
    ∃ m sig, instr.member = some m ∧ Descriptor.method m.descriptor = .ok sig ∧
      d? = some sig.params.length := by
  rw [depth?.invoked] at h
  cases hm : instr.member with
  | none => simp [hm] at h
  | some m =>
    cases hs : Descriptor.method m.descriptor with
    | error e => simp [hm, hs] at h
    | ok sig =>
      simp only [hm, hs, Except.ok.injEq] at h
      exact ⟨m, sig, rfl, hs, h.symm⟩

theorem depth?_of_invoke {i : Invocation} (hop : instr.operation = .invoke i) :
    depth? instr = if hasReceiver i then depth?.invoked instr else .ok none := by
  cases i <;> simp [depth?, hop, hasReceiver]

theorem under_of_depth? (h : depth? instr = .ok (some d)) : Under instr d := by
  cases hop : instr.operation
  case invoke i =>
    rw [depth?_of_invoke hop] at h
    split at h
    next hr =>
      obtain ⟨m, sig, hm, hs, hd⟩ := exists_of_invoked h
      cases hd
      exact .invoke hop hr hm hs
    next => cases h
  all_goals
    simp only [depth?, hop, Except.ok.injEq, Option.some.injEq, reduceCtorEq] at h
  case getField => exact h ▸ .getField hop
  case arrayLength => exact h ▸ .arrayLength hop
  case putField => exact h ▸ .putField hop
  case arrayLoad => exact h ▸ .arrayLoad hop
  case arrayStore => exact h ▸ .arrayStore hop

theorem depth?_eq_none_iff : depth? instr = .ok none ↔ instr.operation.dereferences = false := by
  cases hop : instr.operation
  case invoke i =>
    rw [depth?_of_invoke hop, Operation.dereferences]
    cases hr : hasReceiver i with
    | false => simp
    | true =>
      simp only [if_true, reduceCtorEq, iff_false]
      intro h
      obtain ⟨m, sig, -, -, hd⟩ := exists_of_invoked h
      cases hd
  all_goals simp [depth?, hop, Operation.dereferences]

theorem type?_of_depth? (h : depth? instr = .ok (some d)) (hf : f.stack[d]? = some receiver) :
    type? ⟨node, instr, line⟩ f =
      if receiver.type.isNull then .error (.nullReceiver node receiver.producer)
      else .ok (some receiver.type) := by
  simp only [type?, h, ok_bind, Frame.peek_eq_ok.2 hf]
  rfl

theorem type?_of_short (h : depth? instr = .ok (some d)) (hf : f.stack.length ≤ d) :
    type? ⟨node, instr, line⟩ f = .error (.fault (.depth d f.stack.length)) := by
  have hpeek : f.peek d = .error (.depth d f.stack.length) := by
    change f.peek (.ofNat d) = _
    simp [Frame.peek, List.getElem?_eq_none hf]
  simp only [type?, h, ok_bind, hpeek]

/-- Takes the receiver and the `d` entries above it off the stack, settles what stays, and pushes at most
one value. -/
def take (instr : Instruction) (node : Int) (d : Nat) (result : ValueType → Option ValueType)
    (f : Frame) : Except Fault Frame :=
  match f.stack.drop d with
  | [] => .error .emptyStack
  | receiver :: rest =>
    .ok ⟨f.locals.map (settled instr receiver),
      ((result receiver.type).map fun t => ⟨t, node⟩).toList ++ rest.map (settled instr receiver)⟩

theorem take_of_lt {result : ValueType → Option ValueType} (hf : d < f.stack.length) :
    take instr node d result f =
      .ok ⟨f.locals.map (settled instr f.stack[d]),
        ((result f.stack[d].type).map fun t => ⟨t, node⟩).toList ++
          (f.stack.drop (d + 1)).map (settled instr f.stack[d])⟩ := by
  simp only [take, List.drop_eq_getElem_cons hf]

theorem take_of_short {result : ValueType → Option ValueType} (hf : f.stack.length ≤ d) :
    take instr node d result f = .error .emptyStack := by
  simp only [take, List.drop_of_length_le hf]

theorem map_settled_of_plain (hcall : instr.callsConstructor = false) (receiver : Entry)
    (es : List Entry) : es.map (settled instr receiver) = es :=
  map_settled_eq_self (by simp [hcall]) es

theorem take_of_plain (hcall : instr.callsConstructor = false) (pushed : Option ValueType) :
    take instr node d (fun _ => pushed) f = (f.popMany (d + 1)).map fun g =>
      { g with stack := (pushed.map fun t => ⟨t, node⟩).toList ++ g.stack } := by
  by_cases hf : f.stack.length ≤ d
  · rw [take_of_short hf, Frame.popMany, if_neg (by omega)]
    rfl
  · rw [take_of_lt (by omega), map_settled_of_plain hcall, map_settled_of_plain hcall,
      Frame.popMany, if_pos (by omega)]
    rfl

theorem popMany_eq_take (hcall : instr.callsConstructor = false) :
    f.popMany (d + 1) = take instr node d (fun _ => none) f := by
  rw [take_of_plain hcall]
  cases f.popMany (d + 1) <;> rfl

theorem popPush_eq_take (hcall : instr.callsConstructor = false) (t : ValueType) :
    popPush f (d + 1) ⟨t, node⟩ = take instr node d (fun _ => some t) f := by
  rw [take_of_plain hcall, popPush]
  cases f.popMany (d + 1) <;> rfl

theorem invoke_eq_take {i : Invocation} {m : Member} {sig : Signature}
    (hop : instr.operation = .invoke i) (hr : hasReceiver i = true) (hm : instr.member = some m)
    (hs : Descriptor.method m.descriptor = .ok sig) :
    invoke node i instr f = orFault (take instr node sig.params.length (fun _ => sig.result) f) := by
  by_cases hf : f.stack.length ≤ sig.params.length
  · rw [take_of_short hf, orFault_error]
    simp only [invoke, hm, hs, mapError_ok, ok_bind, Frame.popMany]
    split
    · -- the arguments are all there is
      have hnil : f.stack.drop sig.params.length = [] := List.drop_of_length_le hf
      simp only [orFault_ok, ok_bind, popReceiver, hr, if_true, Frame.discard, Frame.pop, hnil,
        error_bind, orFault_error]
    · rw [orFault_error, error_bind]
  · have hstack : f.stack = f.stack.take sig.params.length ++
        f.stack[sig.params.length] :: f.stack.drop (sig.params.length + 1) := by simp
    have hargs : (f.stack.take sig.params.length).length = sig.params.length :=
      List.length_take_of_le (by omega)
    rw [take_of_lt (by omega)]
    obtain ⟨locals, stack⟩ := f
    exact (congrArg (fun s => invoke node i instr ⟨locals, s⟩) hstack).trans
      (invoke_append hop hm hr hs hargs)

/-- A field is read by a descriptor that says its type. -/
def FieldNamed (instr : Instruction) : Prop :=
  instr.operation = .getField →
    ∃ m t, instr.member = some m ∧ Descriptor.field m.descriptor = .ok t

theorem callsConstructor_of_operation (h : instr.operation ≠ .invoke .special) :
    instr.callsConstructor = false := by
  simp [Instruction.callsConstructor, h]

theorem exists_apply_eq_take (ctx : Context) (node : Int) (h : Under instr d)
    (hfield : FieldNamed instr) :
    ∃ result : ValueType → Option ValueType, ∀ f,
      apply ctx node instr f = orFault (take instr node d result f) := by
  cases h with
  | @invoke i m sig hop hr hm hs =>
    refine ⟨fun _ => sig.result, fun f => ?_⟩
    simp only [apply, hop]
    exact invoke_eq_take hop hr hm hs
  | getField hop =>
    obtain ⟨m, t, hm, ht⟩ := hfield hop
    refine ⟨fun _ => some t, fun f => ?_⟩
    rw [← popPush_eq_take (callsConstructor_of_operation (by simp [hop]))]
    simp only [apply, hop, fieldType, hm, ht, mapError_ok, ok_bind]
  | arrayLength hop =>
    refine ⟨fun _ => some .int, fun f => ?_⟩
    rw [← popPush_eq_take (callsConstructor_of_operation (by simp [hop]))]
    simp only [apply, hop]
  | putField hop =>
    refine ⟨fun _ => none, fun f => ?_⟩
    rw [← popMany_eq_take (callsConstructor_of_operation (by simp [hop]))]
    simp only [apply, hop]
  | arrayStore hop =>
    refine ⟨fun _ => none, fun f => ?_⟩
    rw [← popMany_eq_take (callsConstructor_of_operation (by simp [hop]))]
    simp only [apply, hop]
  | @arrayLoad c hop =>
    refine ⟨fun t => some (elementType c t), fun f => ?_⟩
    have hcall : instr.callsConstructor = false := callsConstructor_of_operation (by simp [hop])
    obtain ⟨locals, _ | ⟨index, _ | ⟨array, rest⟩⟩⟩ := f
    · simp [apply, hop, take, orFault_error]
    · simp [apply, hop, take, orFault_error]
    · simp [apply, hop, take, orFault_ok, map_settled_of_plain hcall]

/-- The check of the receiver and the effect of the instruction agree on where it stands. The check reads
the entry at its depth, which is the deepest that the instruction takes: with it go the entries above, what
is underneath stays, and at most one value comes on top, which depends on the receiver alone. Without the
receiver both are faults, and an instruction that dereferences nothing has no receiver whatever the frame. -/
theorem receiver_deepest_taken (ctx : Context) (node line : Int) (instr : Instruction) :
    (∀ d, depth? instr = .ok (some d) → FieldNamed instr →
      ∃ result : ValueType → Option ValueType, ∀ f : Frame,
        (∀ receiver, f.stack[d]? = some receiver →
          type? ⟨node, instr, line⟩ f =
            (if receiver.type.isNull then .error (.nullReceiver node receiver.producer)
            else .ok (some receiver.type)) ∧
          apply ctx node instr f = .ok ⟨f.locals.map (settled instr receiver),
            ((result receiver.type).map fun t => ⟨t, node⟩).toList ++
              (f.stack.drop (d + 1)).map (settled instr receiver)⟩) ∧
        (f.stack.length ≤ d →
          type? ⟨node, instr, line⟩ f = .error (.fault (.depth d f.stack.length)) ∧
          apply ctx node instr f = .error (.fault .emptyStack))) ∧
    (depth? instr = .ok none ↔ instr.operation.dereferences = false) ∧
    (depth? instr = .ok none → ∀ f, type? ⟨node, instr, line⟩ f = .ok none) := by
  refine ⟨fun d hd hfield => ?_, depth?_eq_none_iff, fun hd f => ?_⟩
  · obtain ⟨result, happ⟩ := exists_apply_eq_take ctx node (under_of_depth? hd) hfield
    refine ⟨result, fun f => ⟨fun receiver hr => ?_, fun hf => ?_⟩⟩
    · obtain ⟨hlt, rfl⟩ := List.getElem?_eq_some_iff.1 hr
      refine ⟨type?_of_depth? hd hr, ?_⟩
      rw [happ, take_of_lt hlt, orFault_ok]
    · refine ⟨type?_of_short hd hf, ?_⟩
      rw [happ, take_of_short hf, orFault_error]
  · rw [type?, hd]
    rfl

/-- A call with a long, an object and a double. -/
def wideCall : Instruction := {
  offset := 9
  op := ⟨182⟩
  member := some ⟨"a/B", "f", "(JLa/C;D)I"⟩ }

theorem receiver_deepest_taken_wideCall :
    (∃ result : Option ValueType,
      type? ⟨5, wideCall, -1⟩ ⟨[], [⟨.double, 4⟩, ⟨.null, 3⟩, ⟨.long, 2⟩, ⟨.object "a/B", 1⟩, ⟨.int, 0⟩]⟩ =
        .ok (some (.object "a/B")) ∧
      apply ⟨{}, false⟩ 5 wideCall
          ⟨[], [⟨.double, 4⟩, ⟨.null, 3⟩, ⟨.long, 2⟩, ⟨.object "a/B", 1⟩, ⟨.int, 0⟩]⟩ =
        .ok ⟨[], (result.map fun t => ⟨t, 5⟩).toList ++ [⟨.int, 0⟩]⟩) ∧
    apply ⟨{}, false⟩ 5 wideCall ⟨[], [⟨.double, 4⟩, ⟨.null, 3⟩, ⟨.long, 2⟩]⟩ =
      .error (.fault .emptyStack) ∧
    type? ⟨5, { offset := 9, op := ⟨178⟩ }, -1⟩ ⟨[], []⟩ = .ok none := by
  have depth : depth? wideCall = .ok (some 3) := toOption_eq_some.1 (by decide +kernel)
  have named : FieldNamed wideCall := by
    intro h
    cases h
  obtain ⟨result, h⟩ := (receiver_deepest_taken ⟨{}, false⟩ 5 (-1) wideCall).1 3 depth named
  refine ⟨⟨result (.object "a/B"), ?_, ?_⟩, ?_, ?_⟩
  · exact ((h _).1 ⟨.object "a/B", 1⟩ rfl).1
  · exact ((h _).1 ⟨.object "a/B", 1⟩ rfl).2
  · exact ((h _).2 (by decide)).2
  · exact (receiver_deepest_taken ⟨{}, false⟩ 5 (-1) { offset := 9, op := ⟨178⟩ }).2.2 rfl _

end Receiver

end BytecodeFlow
