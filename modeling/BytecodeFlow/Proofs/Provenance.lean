import BytecodeFlow.Proofs.Execution

/-!
What a frame knows of a value, it knows from the node that produced it. Moves keep both the type and the
producer of an entry; where they change the type, they forget what was known, or know it still.
-/

namespace BytecodeFlow

/-- Nodes whose instruction makes an object. -/
def Node.MakesObject (n : Node) : Prop :=
  n.instr.operation = .new ∨ n.instr.operation = .newArray ∨ n.instr.operation = .newObjectArray ∨
    n.instr.operation = .newMultiArray ∨ ∃ form, n.instr.operation = .constant form

/-- The producer of an entry is a node that can have made a value of its type, or there is none and the
method was entered with the value. -/
structure Entry.Sourced (g : Graph) (e : Entry) : Prop where
  producer : e.producer = noNode ∨ g.At e.producer fun _ => True
  null : e.type.isNull = true → g.At e.producer fun n =>
    n.instr.operation = .pushNull ∨ n.instr.operation = .arrayLoad .reference
  address : ∀ {a : Int}, e.type = .returnAddress a →
    (g.At e.producer fun n => ∃ long, n.instr.operation = .jsr long) ∧ a = word (e.producer + 1)
  uninitialized : ∀ {name : String} {k : Int}, e.type = .uninitialized name k → e.producer = k ∧
    ((g.At k fun n => n.instr.operation = .new ∧ n.instr.className = name) ∨
      k = noNode ∧ g.method.isConstructor = true ∧ g.method.static = false)
  nonNull : e.type.isNonNull = true → (e.producer = noNode ∧ g.method.static = false) ∨
    g.At e.producer Node.MakesObject ∨
    g.At e.producer fun n => n.throws = true ∧ n.handlers ≠ []

namespace Entry.Sourced

variable {g : Graph} {e : Entry}

/-- A type that says nothing about null or about an address needs no certain producer. -/
theorem of_silent (hnull : e.type.isNull = false) (hobject : e.type.isNonNull = false)
    (haddr : ∀ a, e.type ≠ .returnAddress a)
    (hp : e.producer = noNode ∨ g.At e.producer fun _ => True) : e.Sourced g where
  producer := hp
  null h := by simp [hnull] at h
  address h := absurd h (haddr _)
  uninitialized h := by simp [h, ValueType.isNonNull] at hobject
  nonNull h := by simp [hobject] at h

theorem of_named (h : Descriptor.Named e.type)
    (hp : e.producer = noNode ∨ g.At e.producer fun _ => True) : e.Sourced g :=
  of_silent h.isNull h.isNonNull h.ne_returnAddress hp

theorem of_top (h : e.type = .top) (hp : e.producer = noNode ∨ g.At e.producer fun _ => True) :
    e.Sourced g := by
  apply of_silent <;> simp [h, ValueType.isNull, ValueType.isNonNull, hp]

theorem of_object {name : String} (h : e.type = .nonNullObject name)
    (hp : (e.producer = noNode ∧ g.method.static = false) ∨ g.At e.producer Node.MakesObject ∨
      g.At e.producer fun n => n.throws = true ∧ n.handlers ≠ []) : e.Sourced g where
  producer := by
    rcases hp with hp | hp | hp
    · exact .inl hp.1
    · exact .inr (hp.imp fun _ _ => trivial)
    · exact .inr (hp.imp fun _ _ => trivial)
  null := by simp [h, ValueType.isNull, ValueType.nonNullObject]
  address := by simp [h, ValueType.nonNullObject]
  uninitialized := by simp [h, ValueType.nonNullObject]
  nonNull _ := hp

theorem moved {x : Entry} (hx : x.Sourced g) (hp : x.producer = e.producer)
    (ht : Effect.Retyped x.type e.type) : e.Sourced g := by
  obtain ⟨t, p⟩ := x
  obtain ⟨t', p'⟩ := e
  cases hp
  cases ht with
  | same => exact hx
  | forgotten hn => exact of_named hn hx.producer
  | object name hn => exact of_object rfl (hx.nonNull hn)

/-- A value has the node that created it for its source, unless it was thrown. -/
theorem created {i : Nat} {n : Node} (hn : g.nodes[i]? = some n) {f : Frame} {t : ValueType}
    (hthrow : n.instr.operation ≠ .throw) (h : Effect.Created i n.instr f t) :
    Entry.Sourced g ⟨t, i⟩ := by
  have here : g.At i fun _ => True := ⟨i, n, rfl, hn, trivial⟩
  cases h with
  | free => exact of_top rfl (.inr here)
  | number k => exact of_named (.number k) (.inr here)
  | null hop =>
    refine ⟨.inr here, fun _ => ⟨i, n, rfl, hn, .inl hop⟩, ?_, ?_, ?_⟩ <;>
      simp [ValueType.isNonNull]
  | @constant form c t hop hc =>
    have object {name : String} : Entry.Sourced g ⟨.nonNullObject name, i⟩ :=
      of_object rfl (.inr (.inl ⟨i, n, rfl, hn, .inr (.inr (.inr (.inr ⟨form, hop⟩)))⟩))
    cases c <;> cases hc
    · exact of_named (.number .int) (.inr here)
    · exact of_named (.number .long) (.inr here)
    · exact of_named (.number .float) (.inr here)
    · exact of_named (.number .double) (.inr here)
    all_goals exact object
  | @element array hop _ =>
    simp only [Effect.elementType]
    split
    · refine ⟨.inr here, fun _ => ⟨i, n, rfl, hn, .inr hop⟩, ?_, ?_, ?_⟩ <;>
        simp [ValueType.isNonNull]
    · split
      · exact of_named (Descriptor.named_element _) (.inr here)
      · exact of_named (.object _) (.inr here)
  | @address long hop =>
    refine ⟨.inr here, by simp [ValueType.isNull], ?_, by simp, by simp [ValueType.isNonNull]⟩
    intro a ha
    exact ⟨⟨i, n, rfl, hn, long, hop⟩, (ValueType.returnAddress.inj ha).symm⟩
  | named ht => exact of_named ht (.inr here)
  | new hop =>
    refine ⟨.inr here, by simp [ValueType.isNull], by simp, ?_,
      fun _ => .inr (.inl ⟨i, n, rfl, hn, .inl hop⟩)⟩
    intro name k hk
    cases hk
    exact ⟨rfl, .inl ⟨i, n, rfl, hn, hop, rfl⟩⟩
  | array hop =>
    refine of_object rfl (.inr (.inl ⟨i, n, rfl, hn, ?_⟩))
    rcases hop with hop | hop | hop
    · exact .inr (.inl hop)
    · exact .inr (.inr (.inl hop))
    · exact .inr (.inr (.inr (.inl hop)))
  | thrown hop => exact absurd hop hthrow

/-- What a method is entered with no node has made, and only its receiver is known to be an object. -/
theorem of_startFrame {start : Frame} {e : Entry} (hs : g.method.startFrame = .ok start)
    (he : e ∈ start.entries) : e.Sourced g := by
  obtain ⟨hp, ht⟩ := Method.mem_startFrame hs he
  rcases ht with ht | ht | ht
  · exact of_top ht (.inl hp)
  · exact of_named ht (.inl hp)
  rw [Method.receiver?] at ht
  split at ht
  · cases ht
  next hstatic =>
    simp only [Bool.not_eq_true] at hstatic
    split at ht
    next hinit =>
      have ht := (Option.some.inj ht).symm
      refine ⟨.inl hp, by simp [ht, ValueType.isNull], by simp [ht], ?_, fun _ => .inl ⟨hp, hstatic⟩⟩
      intro name k hk
      rw [ht] at hk
      cases hk
      exact ⟨hp, .inr ⟨rfl, hinit, hstatic⟩⟩
    next => exact of_object (Option.some.inj ht).symm (.inl ⟨hp, hstatic⟩)

end Entry.Sourced

section

variable {m : Method} {g : Graph} {ctx : Effect.Context} {start : Frame} {c c' : Config}
  {links : List (Config × Config)}

theorem Advances.sourced (hb : Graph.build m = .ok g) (h : Advances g ctx c c')
    (hc : ∀ e ∈ c.frame.entries, e.Sourced g) : ∀ e ∈ c'.frame.entries, e.Sourced g := by
  intro e he
  cases id h with
  | @step n succs t frame hn hs ht happ =>
    rcases (Effect.yields_of_apply happ e he).moved_or_created with ⟨x, hx, hp, ht⟩ | ⟨hcr, hp⟩
    · exact (hc x hx).moved hp ht
    · obtain ⟨t, p⟩ := e
      cases hp
      exact .created hn (h.ne_throw hb hn) hcr

theorem Raises.sourced (h : Raises g c c') (hc : ∀ e ∈ c.frame.entries, e.Sourced g) :
    ∀ e ∈ c'.frame.entries, e.Sourced g := by
  intro e he
  cases h with
  | @exception n hd hn hh =>
    rcases Frame.mem_entries.1 he with he | he
    · exact hc e (Frame.mem_entries.2 (.inl he))
    · rw [List.mem_singleton.1 he]
      have hthrows : n.throws = true := by
        rw [Exploration.handlersOf] at hh
        split at hh
        next ht => exact ht
        next => cases hh
      exact .of_object rfl (.inr (.inr ⟨c.node, n, rfl, hn, hthrows,
        List.ne_nil_of_mem (mem_handlers hh)⟩))

theorem Chain.sourced (hb : Graph.build m = .ok g) (hs : m.startFrame = .ok start)
    (h : Chain g ctx start c links) : ∀ e ∈ c.frame.entries, e.Sourced g := by
  induction h with
  | start =>
    intro e he
    obtain rfl := Graph.method_of_build hb
    exact .of_startFrame hs he
  | link _ hf ih =>
    rcases hf with hf | hf
    · exact hf.sourced hb ih
    · exact hf.sourced ih

/-- Whatever steps and exceptions lead to a node, each entry of its frame has the source that its type
tells of. The bound on the size says that node numbers are words; without it a return address is the
word of the number behind the call. -/
theorem chain_entries_sourced (hb : Graph.build m = .ok g) (hs : m.startFrame = .ok start)
    (declaredLocals : Bool) (h : Chain g ⟨m.code, declaredLocals⟩ start c links) :
    ∀ e ∈ c.frame.entries, e.Sourced g ∧ (g.size ≤ 0x8000000000000000 →
      ∀ a, e.type = .returnAddress a → a = e.producer + 1) := by
  intro e he
  have hsrc := h.sourced hb hs e he
  refine ⟨hsrc, fun hsize a ha => ?_⟩
  obtain ⟨⟨i, n, hp, hn, long, hop⟩, hword⟩ := hsrc.address ha
  have hcall : g.Calls i := ⟨n, long, hn, hop⟩
  rw [hword, hp]
  exact (hcall.returns (Graph.wf_of_build hb) hsize).1

end

/-- A constructor that makes an object and calls a subroutine before it calls any constructor itself. -/
def unfinished : Method where
  className := "a/B"
  name := "<init>"
  descriptor := "()V"
  static := false
  code := {
    instructions := [{ offset := 0, op := ⟨1⟩ }, { offset := 1, op := ⟨76⟩ },
      { offset := 2, op := ⟨187⟩, className := "a/C" }, { offset := 5, op := ⟨78⟩ },
      { offset := 6, op := ⟨168⟩, target := 10 }, { offset := 9, op := ⟨177⟩ },
      { offset := 10, op := ⟨77⟩ }, { offset := 11, op := ⟨169⟩, index := 2 }]
    maxLocals := 4 }

theorem chain_entries_sourced_unfinished : ∃ g start links,
    Graph.build unfinished = .ok g ∧ unfinished.startFrame = .ok start ∧
    Chain g ⟨unfinished.code, true⟩ start ⟨7, [⟨.uninitialized "a/B" (-1), -1⟩, ⟨.null, 0⟩,
      ⟨.returnAddress 5, 4⟩, ⟨.uninitialized "a/C" 2, 2⟩], []⟩ links ∧
    Entry.Sourced g ⟨.uninitialized "a/B" (-1), -1⟩ ∧ Entry.Sourced g ⟨.null, 0⟩ ∧
    Entry.Sourced g ⟨.returnAddress 5, 4⟩ ∧ Entry.Sourced g ⟨.uninitialized "a/C" 2, 2⟩ := by
  have h : (unfinished.walk? true [1, 2, 3, 4, 6, 7]).any fun t => decide (t.2.2 =
      ⟨7, [⟨.uninitialized "a/B" (-1), -1⟩, ⟨.null, 0⟩, ⟨.returnAddress 5, 4⟩,
        ⟨.uninitialized "a/C" 2, 2⟩], []⟩) := by decide +kernel
  obtain ⟨⟨g, start, c⟩, ht, h⟩ := (Option.any_eq_true _ _).1 h
  obtain ⟨hb, hs, links, he⟩ := Method.walk?_eq_some ht
  obtain rfl : c = _ := of_decide_eq_true h
  have hsrc := chain_entries_sourced hb hs true he.chain
  refine ⟨g, start, links, hb, hs, he.chain, (hsrc _ ?_).1, (hsrc _ ?_).1, (hsrc _ ?_).1,
    (hsrc _ ?_).1⟩ <;> simp [Frame.entries]

end BytecodeFlow
