import BytecodeFlow.Proofs.Execution
import BytecodeFlow.Proofs.Graph.Layout
import BytecodeFlow.Proofs.Machine.Describes

/-!
Runs of a method are executions of its flow graph, seen through frames that describe the states. So what
frames say about null holds of every run.
-/

namespace BytecodeFlow

open Machine

namespace Machine

/-- What an instruction dereferences when it completes is an object. -/
theorem Executes.receiver_eq {i d : Nat} {instr : Instruction} {s s' : State}
    (h : Executes i instr s s') (hd : Receiver.depth? instr = .ok (some d)) :
    s.stack[d]? = some .object := by
  cases h with
  | getField hop _ _ _ | arrayLength hop | putField hop | arrayLoad hop _ | arrayStore hop =>
    simp only [Receiver.depth?, hop, Except.ok.injEq, Option.some.injEq] at hd
    subst hd
    rfl
  | @invoke i m sig args out l st hop hm hs ha _ =>
    have invoked (hr : receiver i = [.object]) (hd : Receiver.depth?.invoked instr = .ok (some d)) :
        (args ++ (receiver i ++ st))[d]? = some .object := by
      simp only [Receiver.depth?.invoked, hm, hs, Except.ok.injEq, Option.some.injEq] at hd
      rw [hr, ← hd, ← ha]
      simp
    cases i with
    | virtual | special | interface =>
      simp only [Receiver.depth?, hop] at hd
      exact invoked rfl hd
    | static | dynamic => simp [Receiver.depth?, hop] at hd
  | nop hop | goto hop | ret hop | null hop | number hop | immediate hop | constant hop _ _
  | load hop _ _ _ | store hop _ _ | increment hop _ _ | shuffle hop _ | unary hop | binary hop
  | testZero hop | testPair hop | testNull hop | jsr hop | switch hop | getStatic hop _ _ _
  | putStatic hop | new hop | newArray hop | newObjectArray hop | newMultiArray hop _
  | checkCast hop _ | instanceOf hop | monitor hop =>
    simp [Receiver.depth?, hop] at hd

theorem Executes.not_hasNullReceiver {g : Graph} {i : Nat} {n : Node} {s s' : State} {f : Frame}
    (h : Executes i n.instr s s') (hf : f.Describes s) (hn : g.nodes[i]? = some n) :
    ¬ Config.HasNullReceiver g ⟨i, f⟩ := by
  rintro ⟨n', node, cause, hn', ht⟩
  rw [hn] at hn'
  cases hn'
  obtain ⟨d, e, hd, he, hnull, -⟩ := Receiver.type?_eq_nullReceiver.1 ht
  obtain ⟨e', he', hdesc⟩ := exists_of_forall₂ hf.stack (h.receiver_eq hd)
  rw [he] at he'
  cases he'
  cases hdesc.null hnull

theorem At.nodeAt?_eq {c : Code} {offset : Int} {t : Nat}
    (hc : c.instructions.Pairwise fun a b => a.offset < b.offset) (h : At c offset t) :
    Graph.nodeAt? c offset = some t := by
  obtain ⟨instr, ht, rfl⟩ := h
  exact Graph.nodeAt?_of_offset hc ht

end Machine

theorem Node.successors_eq_all {n : Node} {size : Nat} {f : Frame}
    (hnull : ∀ b, n.instr.operation ≠ .branch (.null b)) (hjsr : ∀ long, n.instr.operation ≠ .jsr long)
    (hret : n.instr.operation ≠ .ret) : n.successors size f = .ok (.all n.flow) := by
  rw [successors]
  split
  next hop => exact absurd hop (hnull _)
  next hop => exact absurd hop (hjsr _)
  next hop => exact absurd hop hret
  next => rfl

theorem Node.nullness_eq {t : ValueType} {v : Value} (h : t.Describes v) {isNull : Bool}
    (hn : nullness t = some isNull) : isNull = decide (v = .null) := by
  rw [nullness] at hn
  split at hn
  next ht =>
    cases hn
    simp [h.null ht]
  next =>
    split at hn
    next ht =>
      cases hn
      simp [h.nonNull ht]
    next => cases hn

/-- Whether or not the frame decides a test, the target that the value makes it take is left. -/
theorem Node.mem_testNull {next target : Nat} {f : Frame} {l st : List Value} {v : Value}
    (hf : f.Describes ⟨l, v :: st⟩) (jumpsOnNull : Bool) :
    ∃ succs, testNull jumpsOnNull next target f = .ok succs ∧
      (if decide (v = .null) = jumpsOnNull then target else next) ∈ succs.targets := by
  obtain ⟨e, he, hd⟩ := exists_of_forall₂ hf.stack (i := 0) rfl
  have hp : f.peek 0 = .ok e := Frame.peek_eq_ok.2 he
  simp only [testNull, bind_eq_ok]
  cases hn : nullness e.type with
  | none =>
    refine ⟨_, ⟨e, hp, by simp only [hn]; rfl⟩, ?_⟩
    split <;> simp [Successors.targets]
  | some isNull =>
    obtain rfl := nullness_eq hd hn
    by_cases hj : decide (v = .null) = jumpsOnNull
    · exact ⟨_, ⟨e, hp, by simp only [hn, if_pos hj]; rfl⟩, by simp [Successors.targets, hj]⟩
    · exact ⟨_, ⟨e, hp, by simp only [hn, if_neg hj]; rfl⟩, by simp [Successors.targets, hj]⟩

theorem Node.operation_of_notReturnAddress {n : Node} {size : Nat} {f : Frame} {slot : Int}
    {held : ValueType} (h : n.successors size f = .error (.notReturnAddress slot held)) :
    n.instr.operation = .ret := by
  rw [successors] at h
  split at h
  next =>
    split at h
    next =>
      simp only [testNull, Frame.peek, bind, Except.bind] at h
      cases hs : f.stack[0]? with
      | none => simp [hs] at h
      | some e =>
        simp only [hs] at h
        split at h
        next => cases h
        next => split at h <;> cases h
    next => cases h
  next => cases h
  next hop => exact hop
  next => cases h

namespace Machine

variable {c : Code} {i t size : Nat} {s : State} {n : Node} {f : Frame}

theorem mem_successors_null {jumpsOnNull : Bool} {v : Value} {st : List Value} {target : Nat}
    (size : Nat) (hop : n.instr.operation = .branch (.null jumpsOnNull))
    (hflow : n.flow = firsts [i + 1, target]) (hf : f.Describes s) (hs : s.stack = v :: st) :
    ∃ succs, n.successors size f = .ok succs ∧
      (if decide (v = .null) = jumpsOnNull then target else i + 1) ∈ succs.targets := by
  simp only [Node.successors, hop]
  by_cases heq : target = i + 1
  · -- both ways lead to one node
    subst heq
    have hflow : n.flow = [i + 1] := by simp [hflow, firsts]
    exact ⟨.all [i + 1], by simp [hflow], by simp [Successors.targets]⟩
  · have hflow : n.flow = [i + 1, target] := by simp [hflow, firsts, heq]
    simp only [hflow]
    obtain ⟨l, stack⟩ := s
    subst hs
    exact Node.mem_testNull hf jumpsOnNull

theorem mem_successors_jsr {long : Bool} {target : Nat} (hop : n.instr.operation = .jsr long)
    (hflow : n.flow = firsts [i + 1, target]) :
    ∃ succs, n.successors size f = .ok succs ∧ target ∈ succs.targets := by
  simp only [Node.successors, hop]
  refine ⟨_, rfl, ?_⟩
  by_cases heq : target = i + 1 <;> simp [Successors.targets, hflow, firsts, heq]

theorem successors_ret {k : Nat} (hop : n.instr.operation = .ret) (hk : n.instr.index = k)
    (hf : f.Describes s) (hs : s.locals[k]? = some (.address t)) (ht : t < size) :
    (∃ succs, n.successors size f = .ok succs ∧ t ∈ succs.targets) ∨
      ∃ slot held, n.successors size f = .error (.notReturnAddress slot held) := by
  obtain ⟨e, he, hd⟩ := exists_of_forall₂ hf.locals hs
  have hl : f.getLocal k = .ok e := Frame.getLocal_eq_ok.2 he
  simp only [Node.successors, hop, hk, Node.returnNode, hl, bind, Except.bind]
  cases hty : e.type with
  | returnAddress a =>
    obtain ⟨t', rfl, heq⟩ := hd.address hty
    cases heq
    refine .inl ⟨.all [t], ?_, List.mem_singleton_self t⟩
    simp only [ht, Int.natCast_nonneg, Int.ofNat_lt, and_self, ↓reduceIte, Int.toNat_natCast]
    rfl
  | top | int | long | float | double | reference _ _ | null | uninitialized _ _ =>
    exact .inr ⟨_, _, rfl⟩

/-- Control goes to one of the successors that the frame leaves, unless it returns by an address that
the frame knows nothing of. -/
theorem Goes.available (hc : c.instructions.Pairwise fun a b => a.offset < b.offset)
    (hflow : Graph.flowOf c n.instr i = .ok n.flow) (hf : f.Describes s) (ht : t < size)
    (h : Goes c i n.instr s t) :
    (∃ succs, n.successors size f = .ok succs ∧ t ∈ succs.targets) ∨
      ∃ slot held, n.successors size f = .error (.notReturnAddress slot held) := by
  have all (hnull : ∀ b, n.instr.operation ≠ .branch (.null b))
      (hjsr : ∀ long, n.instr.operation ≠ .jsr long) (hret : n.instr.operation ≠ .ret)
      (hm : t ∈ n.flow) : ∃ succs, n.successors size f = .ok succs ∧ t ∈ succs.targets :=
    ⟨_, Node.successors_eq_all hnull hjsr hret, hm⟩
  have flow {op : Operation} (hop : n.instr.operation = op) : n.instr.op.flow = op.flow := by
    rw [← hop]
    rfl
  cases h with
  | next hop =>
    refine .inl (all ?_ ?_ ?_ (Graph.mem_flowOf_next hflow hop))
    · intro b hb
      simp [hb, Operation.flow] at hop
    · intro long hl
      simp [hl, Operation.flow] at hop
    · intro hr
      simp [hr, Operation.flow] at hop
  | goto hop hat =>
    exact .inl (all (by simp [hop]) (by simp [hop]) (by simp [hop])
      (Graph.mem_flowOf_goto hflow (flow hop) (hat.nodeAt?_eq hc)))
  | fall hop hnot =>
    obtain ⟨target, -, hts⟩ := Graph.flowOf_eq_firsts hflow (.inl (flow hop))
    refine .inl (all (by simpa [hop] using hnot) (by simp [hop]) (by simp [hop]) ?_)
    simp [hts, mem_firsts]
  | jump hop hnot hat =>
    obtain ⟨target, hnode, hts⟩ := Graph.flowOf_eq_firsts hflow (.inl (flow hop))
    rw [hat.nodeAt?_eq hc] at hnode
    cases hnode
    refine .inl (all (by simpa [hop] using hnot) (by simp [hop]) (by simp [hop]) ?_)
    simp [hts, mem_firsts]
  | nullFall hop hs hne =>
    obtain ⟨target, -, hts⟩ := Graph.flowOf_eq_firsts hflow (.inl (flow hop))
    obtain ⟨succs, hsucc, hm⟩ := mem_successors_null size hop hts hf hs
    rw [if_neg hne] at hm
    exact .inl ⟨succs, hsucc, hm⟩
  | nullJump hop hs heq hat =>
    obtain ⟨target, hnode, hts⟩ := Graph.flowOf_eq_firsts hflow (.inl (flow hop))
    rw [hat.nodeAt?_eq hc] at hnode
    cases hnode
    obtain ⟨succs, hsucc, hm⟩ := mem_successors_null size hop hts hf hs
    rw [if_pos heq] at hm
    exact .inl ⟨succs, hsucc, hm⟩
  | jsr hop hat =>
    obtain ⟨target, hnode, hts⟩ := Graph.flowOf_eq_firsts hflow (.inr (flow hop))
    rw [hat.nodeAt?_eq hc] at hnode
    cases hnode
    exact .inl (mem_successors_jsr hop hts)
  | ret hop hk hs => exact successors_ret hop hk hf hs ht
  | switch hop ho hat =>
    exact .inl (all (by simp [hop]) (by simp [hop]) (by simp [hop])
      (Graph.mem_flowOf_switch hflow (flow hop) ho (hat.nodeAt?_eq hc)))

theorem Fills.described {ts : List ValueType} {vs : List Value} (h : Fills ts vs) :
    ∃ free, List.Forall₂ ValueType.Describes
      (ts.flatMap Method.slotsOf ++ List.replicate free .top) vs := by
  induction h with
  | @free vs hv =>
    refine ⟨vs.length, forall₂_iff_getElem?.2 ⟨by simp, fun {i a b} ha hb => ?_⟩⟩
    obtain rfl := List.eq_of_mem_replicate (List.mem_of_getElem? ha)
    exact .top (hv b (List.mem_of_getElem? hb))
  | @word t ts v vs ho hv _ ih =>
    obtain ⟨free, hd⟩ := ih
    have ht := ValueType.Describes.of ho
    have hs : Method.slotsOf t = [t] := by simp [Method.slotsOf, ← ht.size, hv]
    exact ⟨free, by simpa [hs] using ⟨ht, hd⟩⟩
  | @pair t ts v second vs ho hv hw _ ih =>
    obtain ⟨free, hd⟩ := ih
    have ht := ValueType.Describes.of ho
    have hs : Method.slotsOf t = [t, .top] := by simp [Method.slotsOf, ← ht.size, hv]
    exact ⟨free, by simpa [hs] using ⟨ht, .top hw, hd⟩⟩

theorem startFrame_described {m : Method} {sig : Signature} {l : List Value} (free : Nat)
    (hs : Descriptor.method m.descriptor = .ok sig)
    (h : List.Forall₂ ValueType.Describes
      ((m.receiver?.toList ++ sig.params).flatMap Method.slotsOf ++ List.replicate free .top) l)
    (hl : (l.length : Int) = m.code.maxLocals) (hmax : m.code.maxLocals ≤ Frame.slotLimit) :
    ∃ start, m.startFrame = .ok start ∧ start.Describes ⟨l, []⟩ := by
  have hlen := h.length_eq
  rw [List.length_append, List.length_replicate] at hlen
  simp only [Method.startFrame, hs]
  rw [if_neg (by omega), if_neg (by omega)]
  refine ⟨_, rfl, ?_, .nil⟩
  rw [show m.code.maxLocals.toNat - _ = free by omega, List.forall₂_map_left_iff]
  exact h

theorem Enters.described {m : Method} {s : State} (h : Enters m s)
    (hmax : m.code.maxLocals ≤ Frame.slotLimit) :
    ∃ start, m.startFrame = .ok start ∧ start.Describes s := by
  cases h with
  | ofStatic hst hs hf hl =>
    obtain ⟨free, hd⟩ := hf.described
    have hr : m.receiver? = none := by simp [Method.receiver?, hst]
    exact startFrame_described free hs (by simpa [hr] using hd) hl hmax
  | ofInstance hst hs hf hl =>
    obtain ⟨free, hd⟩ := hf.described
    obtain ⟨t, hr, ht⟩ : ∃ t, m.receiver? = some t ∧ t.Describes .object := by
      simp only [Method.receiver?, hst]
      by_cases hc : m.isConstructor
      · exact ⟨_, by simp [hc], .uninitialized m.className noNode⟩
      · exact ⟨_, by simp [hc], .nonNullObject m.className⟩
    have hs' : Method.slotsOf t = [t] := by simp [Method.slotsOf, ← ht.size, Value.size]
    exact startFrame_described free hs (by simpa [hr, hs'] using ⟨ht, hd⟩)
      (by simpa using hl) hmax

section

variable {m : Method} {g : Graph} {s' : State}

/-- Where a run can go on normally, the frame goes on too, or nothing is known of a return address. -/
theorem Proceeds.described (hb : Graph.build m = .ok g) (hsize : g.size ≤ 0x8000000000000000)
    (declaredLocals : Bool) (hf : f.Describes s) (h : Proceeds m (i, s) (t, s')) :
    ∃ n f', g.nodes[i]? = some n ∧ ¬ Config.HasNullReceiver g ⟨i, f⟩ ∧
      Effect.apply ⟨m.code, declaredLocals⟩ i n.instr f = .ok f' ∧ f'.Describes s' ∧
      ((∃ succs, n.successors g.size f = .ok succs ∧ t ∈ succs.targets) ∨
        ∃ slot held, n.successors g.size f = .error (.notReturnAddress slot held)) := by
  cases h with
  | step hi he hg ht =>
    obtain ⟨n, hn, rfl, hflow, -⟩ := Graph.exists_node_of_build hb hi
    have hwf := Graph.wf_of_build hb
    have haddr : ∀ long, n.instr.operation = .jsr long → i + 1 < 0x8000000000000000 := by
      intro long hop
      have := hwf.flow_lt hn (hwf.call hn hop)
      omega
    obtain ⟨f', ha, hf'⟩ := he.described ⟨m.code, declaredLocals⟩ hf haddr
    have hinc := Method.offsets_increase (Graph.build_eq_ok hb).1
    have hlt : t < g.size := by
      obtain ⟨-, w, hc, hw, rfl⟩ := Graph.build_eq_ok hb
      rwa [Graph.size_ofWiring hw, hc]
    exact ⟨n, f', hn, he.not_hasNullReceiver hf hn, ha, hf', hg.available hinc hflow hf hlt⟩

theorem Throws.described (hb : Graph.build m = .ok g) (hf : f.Describes s)
    (h : Throws m (i, s) (t, s')) : ∃ f', Raises g ⟨i, f⟩ ⟨t, f'⟩ ∧ f'.Describes s' := by
  cases h with
  | @handler _ _ _ p l st hi hthrows hp hcov hat =>
    obtain ⟨n, hn, rfl, -, hh⟩ := Graph.exists_node_of_build hb hi
    have hinc := Method.offsets_increase (Graph.build_eq_ok hb).1
    have hm : ⟨t, p.catchType⟩ ∈ Exploration.handlersOf n := by
      rw [Exploration.handlersOf, if_pos (show n.throws = true from hthrows)]
      exact hh p hp hcov t (hat.nodeAt?_eq hinc)
    exact ⟨_, .exception (c := ⟨i, f⟩) hn hm, hf.locals, .cons (.nonNullObject _) .nil⟩

/-- The run has returned by an address that the frame knew nothing of, from a state that was described
by an execution up to there. -/
inductive LosesAddress (m : Method) (g : Graph) (ctx : Effect.Context) (start : Frame) (s₀ : State) :
    Nat × State → Prop
  | returns {i : Nat} {s : State} {y : Nat × State} {f : Frame} {links : List (Config × Config)}
    {n : Node} {slot : Int} {held : ValueType} :
    Runs m s₀ (i, s) → Execution g ctx start ⟨i, f⟩ links → f.Describes s →
    g.nodes[i]? = some n → n.successors g.size f = .error (.notReturnAddress slot held) →
    Proceeds m (i, s) y → LosesAddress m g ctx start s₀ y
  | later {x y : Nat × State} :
    LosesAddress m g ctx start s₀ x → Proceeds m x y ∨ Throws m x y → LosesAddress m g ctx start s₀ y

theorem LosesAddress.exists_ret {ctx : Effect.Context} {start : Frame} {s₀ : State} {x : Nat × State}
    (h : LosesAddress m g ctx start s₀ x) : ∃ n ∈ g.nodes, n.instr.operation = .ret := by
  induction h with
  | returns _ _ _ hn hlost _ =>
    exact ⟨_, Array.mem_of_getElem? hn, Node.operation_of_notReturnAddress hlost⟩
  | later _ _ ih => exact ih

theorem Runs.described (hb : Graph.build m = .ok g) (hsize : g.size ≤ 0x8000000000000000)
    (declaredLocals : Bool) {start : Frame} {s₀ : State} (hs : start.Describes s₀) {x : Nat × State}
    (h : Runs m s₀ x) :
    (∃ f links, Execution g ⟨m.code, declaredLocals⟩ start ⟨x.1, f⟩ links ∧ f.Describes x.2) ∨
      LosesAddress m g ⟨m.code, declaredLocals⟩ start s₀ x := by
  induction h with
  | refl => exact .inl ⟨start, [], .start, hs⟩
  | @tail x y hx hxy ih =>
    obtain ⟨i, s⟩ := x
    obtain ⟨t, s'⟩ := y
    rcases ih with ⟨f, links, he, hf⟩ | hlost
    · rcases hxy with hp | ht
      · obtain ⟨n, f', hn, hnull, ha, hf', ⟨succs, hsucc, ht⟩ | ⟨slot, held, hlost⟩⟩ :=
          hp.described hb hsize declaredLocals hf
        · exact .inl ⟨f', _, .link he (.inl ⟨hnull, .step (c := ⟨i, f⟩) hn hsucc ht ha⟩), hf'⟩
        · exact .inr (.returns hx he hf hn hlost hp)
      · obtain ⟨f', hr, hf'⟩ := ht.described hb hf
        exact .inl ⟨f', _, .link he (.inr hr), hf'⟩
    · exact .inr (.later hlost hxy)

/-- What frames say of null holds of every run. From a state that is described, an instruction completes
only if its receiver is not null in the frame, its effect describes the state after it, and control goes
to a successor that the frame leaves, or the frame does not know the address that a subroutine returns
by. Handlers describe what an exception leaves, and the start describes how the method may be entered.
So each state of a run is described by an execution, unless the run has returned by such an address from
a state that was. -/
theorem runs_described (hb : Graph.build m = .ok g) (hsize : g.size ≤ 0x8000000000000000)
    (declaredLocals : Bool) :
    (∀ i s t s' f, f.Describes s → Proceeds m (i, s) (t, s') →
      ∃ n f', g.nodes[i]? = some n ∧ ¬ Config.HasNullReceiver g ⟨i, f⟩ ∧
        Effect.apply ⟨m.code, declaredLocals⟩ i n.instr f = .ok f' ∧ f'.Describes s' ∧
        ((∃ succs, n.successors g.size f = .ok succs ∧ t ∈ succs.targets) ∨
          ∃ slot held, n.successors g.size f = .error (.notReturnAddress slot held))) ∧
    (∀ i s t s' f, f.Describes s → Throws m (i, s) (t, s') →
      ∃ f', Raises g ⟨i, f⟩ ⟨t, f'⟩ ∧ f'.Describes s') ∧
    ∀ s₀, Enters m s₀ → m.code.maxLocals ≤ Frame.slotLimit →
      ∃ start, m.startFrame = .ok start ∧ start.Describes s₀ ∧ ∀ i s, Runs m s₀ (i, s) →
        (∃ f links, Execution g ⟨m.code, declaredLocals⟩ start ⟨i, f⟩ links ∧ f.Describes s) ∨
          LosesAddress m g ⟨m.code, declaredLocals⟩ start s₀ (i, s) := by
  refine ⟨fun i s t s' f hf h => h.described hb hsize declaredLocals hf,
    fun i s t s' f hf h => h.described hb hf, fun s₀ hent hmax => ?_⟩
  obtain ⟨start, hs, hd⟩ := hent.described hmax
  exact ⟨start, hs, hd, fun i s hrun => hrun.described hb hsize declaredLocals hd⟩

/-- A call on an argument that was tested against null, with a handler. -/
def guarded : Method where
  className := "a/B"
  name := "m"
  descriptor := "(Ljava/lang/Object;)V"
  static := true
  code := {
    instructions := [{ offset := 0, op := ⟨42⟩ }, { offset := 1, op := ⟨198⟩, target := 9 },
      { offset := 4, op := ⟨42⟩ },
      { offset := 5, op := ⟨182⟩, member := some ⟨"java/lang/Object", "hashCode", "()I"⟩ },
      { offset := 8, op := ⟨87⟩ }, { offset := 9, op := ⟨177⟩ },
      { offset := 10, op := ⟨87⟩ }, { offset := 11, op := ⟨177⟩ }]
    handlers := [⟨5, 8, 10, ""⟩]
    maxLocals := 1 }

theorem guarded_enters : Enters guarded ⟨[.object], []⟩ := by
  have hs : Descriptor.method guarded.descriptor = .ok ⟨[.object "java/lang/Object"], none⟩ := by
    decide +kernel
  exact .ofStatic rfl hs (.word (.object _) rfl (.free (List.forall_mem_nil _))) rfl

theorem guarded_runs : Runs guarded ⟨[.object], []⟩ (6, ⟨[.object], [.object]⟩) := by
  have load : Proceeds guarded (0, ⟨[.object], []⟩) (1, ⟨[.object], [.object]⟩) :=
    .step rfl (.load (k := 0) rfl rfl rfl ⟨rfl, fun _ => rfl⟩) (.next rfl) (by decide)
  have test : Proceeds guarded (1, ⟨[.object], [.object]⟩) (2, ⟨[.object], []⟩) :=
    .step rfl (.testNull rfl) (.nullFall rfl rfl (by decide)) (by decide)
  have again : Proceeds guarded (2, ⟨[.object], []⟩) (3, ⟨[.object], [.object]⟩) :=
    .step rfl (.load (k := 0) rfl rfl rfl ⟨rfl, fun _ => rfl⟩) (.next rfl) (by decide)
  have throws : Throws guarded (3, ⟨[.object], [.object]⟩) (6, ⟨[.object], [.object]⟩) :=
    .handler rfl rfl List.mem_cons_self rfl ⟨_, rfl, rfl⟩
  exact .tail (.tail (.tail (.single (.inl load)) (.inl test)) (.inl again)) (.inr throws)

theorem runs_described_guarded : ∃ g start, Graph.build guarded = .ok g ∧
    guarded.startFrame = .ok start ∧ start.Describes ⟨[.object], []⟩ ∧
    Runs guarded ⟨[.object], []⟩ (6, ⟨[.object], [.object]⟩) ∧
    ∃ f links, Execution g ⟨guarded.code, true⟩ start ⟨6, f⟩ links ∧
      f.Describes ⟨[.object], [.object]⟩ := by
  have h : guarded.opened?.any fun (g, _) => decide (g.size ≤ 0x8000000000000000) &&
      g.nodes.all fun n => decide (n.instr.operation ≠ .ret) := by
    decide +kernel
  obtain ⟨⟨g, start⟩, ho, h⟩ := (Option.any_eq_true _ _).1 h
  obtain ⟨hsize, hret⟩ := Bool.and_eq_true_iff.1 h
  obtain ⟨hb, -⟩ := Method.opened?_eq_some ho
  obtain ⟨start, hs, hd, hrun⟩ :=
    (runs_described hb (of_decide_eq_true hsize) true).2.2 _ guarded_enters (by decide)
  refine ⟨g, start, hb, hs, hd, guarded_runs, (hrun 6 _ guarded_runs).resolve_right fun hlost => ?_⟩
  obtain ⟨n, hn, hop⟩ := hlost.exists_ret
  obtain ⟨i, hi, rfl⟩ := Array.mem_iff_getElem.1 hn
  exact of_decide_eq_true (Array.all_eq_true.1 hret i hi) hop

end

end Machine

end BytecodeFlow
