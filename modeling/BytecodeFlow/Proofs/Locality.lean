import BytecodeFlow.Proofs.Effect
import BytecodeFlow.Dependency

/-!
Instructions work on the top of the stack. What one does to a frame, it does to the frame with further
entries underneath, and these stay where they are: only a throw clears them, and a constructor call
retypes those that hold the object.
-/

namespace BytecodeFlow

namespace Frame

variable {f : Frame} {below : List Entry}

/-- The frame set onto further entries, which come under its stack. -/
def onto (f : Frame) (below : List Entry) : Frame := { f with stack := f.stack ++ below }

theorem pop_onto {f' : Frame} {e : Entry} (h : f.pop = .ok (e, f')) :
    (f.onto below).pop = .ok (e, f'.onto below) := by
  obtain ⟨rest, hs, rfl⟩ := pop_eq_ok.1 h
  exact pop_eq_ok.2 ⟨rest ++ below, by simp [onto, hs], rfl⟩

theorem retype_initialized {t : ValueType} (h : t.kind ≠ .uninitialized) (e : Entry) :
    retype t t.initialized e = e := by
  have ht : t.initialized = t := by
    cases t <;> first | rfl | exact absurd rfl h
  rw [retype, ht]
  split
  next he => rw [← he]
  next => rfl

end Frame

namespace Effect

/-- What a computation does to a frame, it does with anything under the stack. -/
structure Local (step : Frame → Except ε Frame) : Prop where
  onto : ∀ {f f' : Frame} (below : List Entry),
    step f = .ok f' → step (f.onto below) = .ok (f'.onto below)

namespace Local

variable {step next : Frame → Except ε Frame}

theorem ok : Local (ε := ε) .ok where
  onto below h := by
    cases h
    rfl

theorem error (e : ε) : Local fun _ => .error e where
  onto below h := by cases h

theorem push (e : Entry) : Local (ε := ε) fun f => .ok (f.push e) where
  onto below h := by
    cases h
    rfl

theorem bind (h : Local step) (h' : Local next) : Local fun f => step f >>= next where
  onto below hf := by
    obtain ⟨f₁, h₁, h₂⟩ := bind_eq_ok.1 hf
    exact bind_eq_ok.2 ⟨_, h.onto below h₁, h'.onto below h₂⟩

theorem given {x : Except ε α} {step : α → Frame → Except ε Frame} (h : ∀ a, Local (step a)) :
    Local fun f => x >>= fun a => step a f where
  onto below hf := by
    obtain ⟨a, ha, hf⟩ := bind_eq_ok.1 hf
    exact bind_eq_ok.2 ⟨a, ha, (h a).onto below hf⟩

theorem ite {p : Prop} [Decidable p] (h : Local step) (h' : Local next) :
    Local fun f => if p then step f else next f := by
  by_cases hp : p
  · simpa only [if_pos hp] using h
  · simpa only [if_neg hp] using h'

theorem orFault {step : Frame → Except Fault Frame} (h : Local step) :
    Local fun f => orFault (step f) where
  onto below hf := by
    rw [orFault_eq_ok] at *
    exact h.onto below hf

theorem getLocal {step : Entry → Frame → Except Fault Frame} (slot : Int) (h : ∀ e, Local (step e)) :
    Local fun f => f.getLocal slot >>= fun e => step e f where
  onto below hf := by
    obtain ⟨e, he, hf⟩ := bind_eq_ok.1 hf
    exact bind_eq_ok.2 ⟨e, he, (h e).onto below hf⟩

theorem setLocal (slot : Int) (e : Entry) : Local fun f => f.setLocal slot e where
  onto below hf := by
    obtain ⟨k, rfl, hk, rfl⟩ := Frame.setLocal_eq_ok.1 hf
    exact Frame.setLocal_eq_ok.2 ⟨k, rfl, hk, rfl⟩

theorem popMany (n : Nat) : Local fun f => f.popMany n where
  onto below hf := by
    obtain ⟨hn, rfl⟩ := Frame.popMany_eq_ok.1 hf
    refine Frame.popMany_eq_ok.2 ⟨?_, ?_⟩
    · rw [Frame.onto, List.length_append]
      omega
    · simp [Frame.onto, Frame.discard, List.drop_append_of_le_length hn]

theorem popPush (n : Nat) (e : Entry) : Local fun f => popPush f n e := (popMany n).bind (push e)

theorem clobber (node slot : Int) : Local (clobber node slot) :=
  .ite (.getLocal _ fun _ => .ite (.setLocal _ _) .ok) .ok

theorem store (ctx : Context) (node : Int) (instr : Instruction) :
    Local (store ctx node instr) where
  onto below hf := by
    simp only [Effect.store, bind_eq_ok] at hf ⊢
    obtain ⟨⟨value, f₁⟩, hp, f₂, hc, f₃, hs, hf⟩ := hf
    exact ⟨_, Frame.pop_onto hp, _, (clobber _ _).onto below hc, _, (setLocal _ _).onto below hs,
      (ite (setLocal _ _) ok).onto below hf⟩

theorem load (c : Category) (instr : Instruction) : Local (load c instr) :=
  .getLocal _ fun _ => .push _

end Local

theorem shuffle_append {k : Shuffle} {s s' : List Entry} (h : shuffle k s = .ok s')
    (below : List Entry) : shuffle k (s ++ below) = .ok (s' ++ below) := by
  revert h
  fun_cases shuffle k s <;> intro h <;> cases h <;> simp [shuffle, *]

end Effect

/-- Whether an instruction calls the constructor of the object on the stack. -/
def Instruction.callsConstructor (instr : Instruction) : Bool :=
  instr.operation = .invoke .special && instr.member.any (·.name = constructorName)

theorem Instruction.callsConstructor_iff {instr : Instruction} {i : Invocation} {m : Member}
    (hop : instr.operation = .invoke i) (hm : instr.member = some m) :
    instr.callsConstructor = true ↔ i = .special ∧ m.name = constructorName := by
  simp [callsConstructor, hop, hm]

namespace Effect

/-- What becomes of an entry that stays while an instruction takes the receiver: the object that a
constructor has run on is initialized wherever it is held. -/
def settled (instr : Instruction) (receiver e : Entry) : Entry :=
  if instr.callsConstructor then Frame.retype receiver.type receiver.type.initialized e else e

section Invoke

variable {node : Int} {instr : Instruction} {i : Invocation} {m : Member} {sig : Signature}
  {f f' : Frame} {locals args rest : List Entry} {receiver : Entry}

theorem settled_of_constructor (h : instr.callsConstructor = true) :
    settled instr receiver = Frame.retype receiver.type receiver.type.initialized := by
  funext e
  rw [settled, if_pos h]

theorem map_settled_eq_self
    (h : instr.callsConstructor = true → receiver.type.kind ≠ .uninitialized) (es : List Entry) :
    es.map (settled instr receiver) = es := by
  have hid : settled instr receiver = id := by
    funext e
    rw [settled]
    split
    next hc => exact Frame.retype_initialized (h hc) e
    next => rfl
  rw [hid, List.map_id]

theorem popReceiver_cons (hop : instr.operation = .invoke i) (hm : instr.member = some m)
    (hr : hasReceiver i = true) :
    popReceiver i m ⟨locals, receiver :: rest⟩ =
      .ok ⟨locals.map (settled instr receiver), rest.map (settled instr receiver)⟩ := by
  have hc := Instruction.callsConstructor_iff hop hm
  rw [popReceiver, if_pos hr]
  change (if _ then _ else _) = _
  split
  next h =>
    rw [settled_of_constructor (hc.2 ⟨h.1, h.2.1⟩)]
    rfl
  next h =>
    have hk (hctor : instr.callsConstructor = true) : receiver.type.kind ≠ .uninitialized :=
      fun hk => h ⟨(hc.1 hctor).1, (hc.1 hctor).2, hk⟩
    rw [map_settled_eq_self hk, map_settled_eq_self hk]
    rfl

/-- A call takes its arguments and the receiver under them, and leaves its result. -/
theorem invoke_append (hop : instr.operation = .invoke i) (hm : instr.member = some m)
    (hr : hasReceiver i = true) (hs : Descriptor.method m.descriptor = .ok sig)
    (hargs : args.length = sig.params.length) :
    invoke node i instr ⟨locals, args ++ receiver :: rest⟩ =
      .ok ⟨locals.map (settled instr receiver),
        (sig.result.map fun t => ⟨t, node⟩).toList ++ rest.map (settled instr receiver)⟩ := by
  have hpop : Frame.popMany ⟨locals, args ++ receiver :: rest⟩ sig.params.length =
      .ok ⟨locals, receiver :: rest⟩ := by
    rw [← hargs]
    exact Frame.popMany_eq_ok.2 ⟨by simp, by simp [Frame.discard]⟩
  rw [invoke, hm]
  simp only [bind_eq_ok, mapError_eq_ok, orFault_eq_ok]
  refine ⟨sig, hs, _, hpop, _, popReceiver_cons hop hm hr, ?_⟩
  cases sig.result <;> rfl

theorem exists_append_of_invoke (hm : instr.member = some m) (hr : hasReceiver i = true)
    (h : invoke node i instr f = .ok f') :
    ∃ sig args receiver rest, Descriptor.method m.descriptor = .ok sig ∧
      f.stack = args ++ receiver :: rest ∧ args.length = sig.params.length := by
  rw [invoke, hm] at h
  simp only [bind_eq_ok, mapError_eq_ok, orFault_eq_ok] at h
  obtain ⟨sig, hs, f₁, hp, f₂, hrec, -⟩ := h
  obtain ⟨hn, rfl⟩ := Frame.popMany_eq_ok.1 hp
  rw [popReceiver, if_pos hr] at hrec
  obtain ⟨⟨receiver, f₃⟩, hpop, -⟩ := bind_eq_ok.1 hrec
  obtain ⟨rest, hdrop, -⟩ := Frame.pop_eq_ok.1 hpop
  refine ⟨sig, f.stack.take sig.params.length, receiver, rest, hs, ?_, List.length_take_of_le hn⟩
  rw [← hdrop]
  exact (List.take_append_drop _ _).symm

theorem Local.popReceiver (h : ¬ (i = .special ∧ m.name = constructorName)) :
    Local (popReceiver i m) where
  onto below hf := by
    have hcond (e : Entry) :
        ¬ (i = .special ∧ m.name = constructorName ∧ e.type.kind = .uninitialized) :=
      fun ⟨hi, hname, _⟩ => h ⟨hi, hname⟩
    rw [Effect.popReceiver] at hf ⊢
    split at hf
    next hr =>
      rw [if_pos hr]
      simp only [bind_eq_ok, hcond, if_false, pure_eq_ok] at hf ⊢
      obtain ⟨⟨receiver, f₁⟩, hp, rfl⟩ := hf
      exact ⟨_, Frame.pop_onto hp, rfl⟩
    next hr =>
      rw [if_neg hr]
      exact ok.onto below hf

theorem Local.invoke (hop : instr.operation = .invoke i) (h : instr.callsConstructor = false) :
    Local (invoke node i instr) := by
  unfold Effect.invoke
  cases hm : instr.member with
  | none => exact error _
  | some m =>
    have hctor : ¬ (i = .special ∧ m.name = constructorName) := by
      rw [← Instruction.callsConstructor_iff hop hm, h]
      simp
    refine given fun sig => (popMany _).orFault.bind ((popReceiver hctor).orFault.bind ?_)
    cases sig.result with
    | none => exact ok
    | some t => exact push _

end Invoke

theorem Local.apply (ctx : Context) (node : Int) {instr : Instruction}
    (hthrow : instr.operation ≠ .throw) (hctor : instr.callsConstructor = false) :
    Local (apply ctx node instr) := by
  unfold Effect.apply
  cases hop : instr.operation
  case nop | goto | ret | returnVoid => exact ok
  case pushNull | push | immediate | jsr | new => exact push _
  case constant =>
    cases instr.constant with
    | none => exact error _
    | some c => exact given fun t => push _
  case load => exact (load _ _).orFault
  case store => exact (store _ _ _).orFault
  case increment => exact (setLocal _ _).orFault
  case arrayLoad =>
    constructor
    intro f f' below h
    simp only at h ⊢
    split at h
    next index array rest hs =>
      cases h
      simp [Frame.onto, hs]
    next => cases h
  case shuffle =>
    constructor
    intro f f' below h
    obtain ⟨stack, hs, h⟩ := bind_eq_ok.1 h
    cases h
    exact bind_eq_ok.2 ⟨_, orFault_eq_ok.2 (shuffle_append (orFault_eq_ok.1 hs) below), rfl⟩
  case arrayStore | branch | switch | returnValue | putStatic | putField | monitor =>
    exact (popMany _).orFault
  case unary | binary | arrayLength | instanceOf | newArray | newObjectArray | newMultiArray =>
    exact (popPush _ _).orFault
  case getStatic => exact given fun t => push _
  case getField => exact given fun t => (popPush _ _).orFault
  case invoke => exact Local.invoke hop hctor
  case throw => exact absurd hop hthrow
  case checkCast =>
    constructor
    intro f f' below h
    simp only at h ⊢
    split at h
    next e rest hs =>
      cases h
      simp [Frame.onto, hs]
    next => cases h
  case wide | undefined => exact error _

/-- An instruction that succeeds does so over any further entries, with the same locals and the same
entries on top. What is underneath stays, unless the instruction is a throw; a call of a constructor gives
the entries with the type of its uninitialized receiver the type of the object, and no other receiver
changes anything. -/
theorem apply_onto (ctx : Context) (node : Int) {instr : Instruction} {f f' : Frame}
    (hthrow : instr.operation ≠ .throw) (h : apply ctx node instr f = .ok f') (below : List Entry) :
    (instr.callsConstructor = false → apply ctx node instr (f.onto below) = .ok (f'.onto below)) ∧
    (instr.callsConstructor = true → ∃ d receiver,
      Receiver.depth? instr = .ok (some d) ∧ f.stack[d]? = some receiver ∧
      apply ctx node instr (f.onto below) =
        .ok (f'.onto (below.map (Frame.retype receiver.type receiver.type.initialized)))) := by
  refine ⟨fun hctor => (Local.apply ctx node hthrow hctor).onto below h, fun hctor => ?_⟩
  obtain ⟨hop, m, hm, -⟩ : instr.operation = .invoke .special ∧
      ∃ m, instr.member = some m ∧ m.name = constructorName := by
    simpa [Instruction.callsConstructor, Option.any_eq_true] using hctor
  have happ (f : Frame) : apply ctx node instr f = invoke node .special instr f := by
    simp only [apply, hop]
  rw [happ] at h ⊢
  obtain ⟨sig, args, receiver, rest, hs, hstack, hargs⟩ := exists_append_of_invoke hm rfl h
  refine ⟨sig.params.length, receiver, ?_, ?_, ?_⟩
  · simp [Receiver.depth?, Receiver.depth?.invoked, hop, hm, hs]
  · simp [hstack, ← hargs]
  · obtain ⟨locals, stack⟩ := f
    obtain rfl : stack = _ := hstack
    rw [invoke_append hop hm rfl hs hargs] at h
    cases h
    rw [Frame.onto, List.append_assoc, List.cons_append, invoke_append hop hm rfl hs hargs,
      ← settled_of_constructor hctor]
    simp [Frame.onto]

/-- The constructor of a class, which takes a long. -/
def constructorCall : Instruction := {
  offset := 4
  op := ⟨183⟩
  member := some ⟨"a/B", "<init>", "(J)V"⟩ }

theorem apply_onto_constructorCall :
    apply ⟨{}, false⟩ 3 constructorCall ⟨[⟨.uninitialized "a/B" 0, 0⟩],
        [⟨.long, 2⟩, ⟨.uninitialized "a/B" 0, 1⟩, ⟨.uninitialized "a/B" 0, 0⟩, ⟨.int, -1⟩]⟩ =
      .ok ⟨[⟨.nonNullObject "a/B", 0⟩], [⟨.nonNullObject "a/B", 0⟩, ⟨.int, -1⟩]⟩ ∧
    apply ⟨{}, false⟩ 3 { offset := 4, op := ⟨90⟩ } ⟨[], [⟨.int, 2⟩, ⟨.null, 1⟩, ⟨.long, 0⟩]⟩ =
      .ok ⟨[], [⟨.int, 2⟩, ⟨.null, 1⟩, ⟨.int, 2⟩, ⟨.long, 0⟩]⟩ := by
  constructor
  case right =>
    have h : apply ⟨{}, false⟩ 3 { offset := 4, op := ⟨90⟩ } ⟨[], [⟨.int, 2⟩, ⟨.null, 1⟩]⟩ =
      .ok ⟨[], [⟨.int, 2⟩, ⟨.null, 1⟩, ⟨.int, 2⟩]⟩ := rfl
    exact (apply_onto _ _ (by decide) h [⟨.long, 0⟩]).1 (by decide)
  have h : apply ⟨{}, false⟩ 3 constructorCall ⟨[⟨.uninitialized "a/B" 0, 0⟩],
      [⟨.long, 2⟩, ⟨.uninitialized "a/B" 0, 1⟩]⟩ = .ok ⟨[⟨.nonNullObject "a/B", 0⟩], []⟩ :=
    toOption_eq_some.1 (by decide +kernel)
  have depth : Receiver.depth? constructorCall = .ok (some 1) :=
    toOption_eq_some.1 (by decide +kernel)
  obtain ⟨d, receiver, hd, hr, happ⟩ := (apply_onto _ _ (by decide) h
    [⟨.uninitialized "a/B" 0, 0⟩, ⟨.int, -1⟩]).2 (by decide +kernel)
  rw [depth] at hd
  cases hd
  cases hr
  exact happ.trans (toOption_eq_some.1 (by decide +kernel))

end Effect

end BytecodeFlow
