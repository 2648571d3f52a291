import BytecodeFlow.Exploration.Explore
import BytecodeFlow.Proofs.Effect
import BytecodeFlow.Proofs.Graph.Closure
import BytecodeFlow.Proofs.Graph.Layout

/-!
Executions of a method: chains of nodes with frames from the start on, each link a normal step or an
exception. Whatever explores the method, these are what it has to account for.
-/

namespace BytecodeFlow

open Exploration

structure Config where
  node : Nat
  frame : Frame
  deriving DecidableEq

def Exploration.Path.config (path : Path) : Config := ⟨path.node, path.frame⟩

/-- A normal step, to a successor that the frame leaves available. -/
inductive Advances (g : Graph) (ctx : Effect.Context) (c : Config) : Config → Prop
  | step {n : Node} {succs : Successors} {t : Nat} {frame : Frame} :
    g.nodes[c.node]? = some n → n.successors g.size c.frame = .ok succs → t ∈ succs.targets →
    Effect.apply ctx c.node n.instr c.frame = .ok frame → Advances g ctx c ⟨t, frame⟩

/-- An exception, to a handler that protects the node. -/
inductive Raises (g : Graph) (c : Config) : Config → Prop
  | exception {n : Node} {hd : Handler} : g.nodes[c.node]? = some n → hd ∈ handlersOf n →
    Raises g c ⟨hd.entry, handlerFrame c.frame c.node hd⟩

/-- The instruction dereferences null. -/
def Config.HasNullReceiver (g : Graph) (c : Config) : Prop :=
  ∃ n node cause, g.nodes[c.node]? = some n ∧
    Receiver.type? ⟨c.node, n.instr, n.line⟩ c.frame = .error (.nullReceiver node cause)

theorem Receiver.depth?_ne_nullReceiver (instr : Instruction) (node cause : Int) :
    depth? instr ≠ .error (.nullReceiver node cause) := by
  have invoked : depth?.invoked instr ≠ .error (.nullReceiver node cause) := by
    rw [depth?.invoked]
    split
    · simp
    · split <;> simp
  rw [depth?]
  split <;> simp [invoked]

/-- A receiver is refused as null exactly where the frame has null. -/
theorem Receiver.type?_eq_nullReceiver {site : Site} {f : Frame} {node cause : Int} :
    type? site f = .error (.nullReceiver node cause) ↔
      ∃ d e, depth? site.instr = .ok (some d) ∧ f.stack[d]? = some e ∧ e.type.isNull = true ∧
        site.index = node ∧ e.producer = cause := by
  constructor
  · intro h
    cases hd : depth? site.instr with
    | error e =>
      simp only [type?, hd, bind, Except.bind, Except.error.injEq] at h
      exact absurd (h ▸ hd) (depth?_ne_nullReceiver _ _ _)
    | ok d? =>
      cases d? with
      | none => simp [type?, hd, bind, Except.bind, pure, Except.pure] at h
      | some d =>
        simp only [type?, hd, bind, Except.bind] at h
        cases hp : f.peek d with
        | error e => simp [hp] at h
        | ok e =>
          simp only [hp] at h
          split at h
          next hn =>
            cases h
            exact ⟨d, e, rfl, Frame.peek_eq_ok.1 hp, hn, rfl, rfl⟩
          next => cases h
  · rintro ⟨d, e, hd, he, hn, rfl, rfl⟩
    simp [type?, hd, bind, Except.bind, Frame.peek_eq_ok.2 he, hn]

/-- One link of an execution. With a null receiver only an exception is possible. -/
def Follows (g : Graph) (ctx : Effect.Context) (c c' : Config) : Prop :=
  (¬ c.HasNullReceiver g ∧ Advances g ctx c c') ∨ Raises g c c'

/-- The executions from a start frame, by where they are and the links taken, newest first. -/
inductive Execution (g : Graph) (ctx : Effect.Context) (start : Frame) :
    Config → List (Config × Config) → Prop
  | start : Execution g ctx start ⟨0, start⟩ []
  | link {c c' : Config} {links : List (Config × Config)} :
    Execution g ctx start c links → Follows g ctx c c' →
    Execution g ctx start c' ((c, c') :: links)

/-- Like executions, except that a step may also start with a null receiver: a node that is covered is
not checked again. -/
inductive Chain (g : Graph) (ctx : Effect.Context) (start : Frame) :
    Config → List (Config × Config) → Prop
  | start : Chain g ctx start ⟨0, start⟩ []
  | link {c c' : Config} {links : List (Config × Config)} :
    Chain g ctx start c links → Advances g ctx c c' ∨ Raises g c c' →
    Chain g ctx start c' ((c, c') :: links)

theorem Execution.chain {g : Graph} {ctx : Effect.Context} {start : Frame} {c : Config}
    {links : List (Config × Config)} (h : Execution g ctx start c links) :
    Chain g ctx start c links := by
  induction h with
  | start => exact .start
  | link _ hf ih => exact .link ih (hf.imp_left And.right)

theorem Execution.follows {g : Graph} {ctx : Effect.Context} {start : Frame} {c : Config}
    {links : List (Config × Config)} (h : Execution g ctx start c links) {l : Config × Config}
    (hl : l ∈ links) : Follows g ctx l.1 l.2 := by
  induction h with
  | start => cases hl
  | link _ hf ih =>
    rcases List.mem_cons.1 hl with rfl | hl
    · exact hf
    · exact ih hl

theorem Chain.linked {g : Graph} {ctx : Effect.Context} {start : Frame} {c : Config}
    {links : List (Config × Config)} (h : Chain g ctx start c links) {l : Config × Config}
    (hl : l ∈ links) : Advances g ctx l.1 l.2 ∨ Raises g l.1 l.2 := by
  induction h with
  | start => cases hl
  | link _ hf ih =>
    rcases List.mem_cons.1 hl with rfl | hl
    · exact hf
    · exact ih hl

namespace Config

def nullReceiver (g : Graph) (c : Config) : Bool :=
  match g.nodes[c.node]? with
  | none => false
  | some n =>
    match Receiver.type? ⟨c.node, n.instr, n.line⟩ c.frame with
    | .error (.nullReceiver _ _) => true
    | _ => false

def advances (g : Graph) (ctx : Effect.Context) (c : Config) : List Config :=
  match g.nodes[c.node]? with
  | none => []
  | some n =>
    match n.successors g.size c.frame, Effect.apply ctx c.node n.instr c.frame with
    | .ok succs, .ok frame => succs.targets.map (⟨·, frame⟩)
    | _, _ => []

/-- The configuration after normal steps to given nodes, if they are possible. -/
def route (g : Graph) (ctx : Effect.Context) (c : Config) : List Nat → Option Config
  | [] => some c
  | t :: ts =>
    if c.nullReceiver g then none
    else (c.advances g ctx).find? (·.node == t) >>= fun c' => route g ctx c' ts

theorem nullReceiver_iff {g : Graph} {c : Config} :
    c.nullReceiver g = true ↔ c.HasNullReceiver g := by
  rw [nullReceiver, HasNullReceiver]
  cases hn : g.nodes[c.node]? with
  | none => simp
  | some n =>
    simp only
    constructor
    · intro h
      split at h
      next node cause hr => exact ⟨n, node, cause, rfl, hr⟩
      next => cases h
    · rintro ⟨_, node, cause, hn, hr⟩
      cases hn
      simp [hr]

theorem advances_of_mem {g : Graph} {ctx : Effect.Context} {c c' : Config}
    (h : c' ∈ c.advances g ctx) : Advances g ctx c c' := by
  rw [advances] at h
  cases hn : g.nodes[c.node]? with
  | none => simp [hn] at h
  | some n =>
    simp only [hn] at h
    split at h
    next succs frame hs hf =>
      obtain ⟨t, ht, rfl⟩ := List.mem_map.1 h
      exact .step hn hs ht hf
    next => cases h

end Config

theorem Execution.route {g : Graph} {ctx : Effect.Context} {start : Frame} {c c' : Config}
    {links : List (Config × Config)} (h : Execution g ctx start c links) {ts : List Nat}
    (hr : c.route g ctx ts = some c') : ∃ links, Execution g ctx start c' links := by
  induction ts generalizing c links with
  | nil =>
    cases hr
    exact ⟨links, h⟩
  | cons t ts ih =>
    rw [Config.route] at hr
    split at hr
    · cases hr
    next hn =>
      obtain ⟨d, hd, hr⟩ := Option.bind_eq_some_iff.1 hr
      have hf := Config.advances_of_mem (List.mem_of_find?_eq_some hd)
      exact ih (.link h (.inl ⟨fun hn' => hn (Config.nullReceiver_iff.2 hn'), hf⟩)) hr

/-- An exploration of a method beside an execution of it. -/
structure Trial where
  graph : Graph
  result : Result
  config : Config

/-- Explores a method with a visitor that accepts all, and follows normal steps to given nodes. -/
def Method.trial? (m : Method) (o : Options) (ts : List Nat) : Option Trial := do
  let graph ← (Graph.build m).toOption
  let start ← m.startFrame.toOption
  let result ← (o.explore graph (.accepting false) ()).1.toOption
  let config ← Config.route graph ⟨m.code, o.declaredLocals⟩ ⟨0, start⟩ ts
  return ⟨graph, result, config⟩

theorem Method.trial?_eq_some {m : Method} {o : Options} {ts : List Nat} {t : Trial}
    (h : m.trial? o ts = some t) :
    Graph.build m = .ok t.graph ∧
      (∃ p, o.explore t.graph (.accepting false) () = (.ok t.result, p)) ∧
      ∃ start links, m.startFrame = .ok start ∧
        Execution t.graph ⟨m.code, o.declaredLocals⟩ start t.config links := by
  simp only [trial?, Option.bind_eq_bind, Option.bind_eq_some_iff, toOption_eq_some] at h
  obtain ⟨g, hb, start, hs, r, hx, c, hr, h⟩ := h
  cases h
  obtain ⟨links, he⟩ := Execution.start.route hr
  exact ⟨hb, ⟨_, Prod.ext hx rfl⟩, start, links, hs, he⟩

/-- The flow graph of a method and its frame at the start. -/
def Method.opened? (m : Method) : Option (Graph × Frame) := do
  let graph ← (Graph.build m).toOption
  let start ← m.startFrame.toOption
  return (graph, start)

theorem Method.opened?_eq_some {m : Method} {g : Graph} {start : Frame}
    (h : m.opened? = some (g, start)) : Graph.build m = .ok g ∧ m.startFrame = .ok start := by
  simp only [opened?, Option.bind_eq_bind, Option.bind_eq_some_iff, toOption_eq_some] at h
  obtain ⟨_, hb, _, hs, h⟩ := h
  cases h
  exact ⟨hb, hs⟩

/-- The flow graph of a method, its frame at the start, and where normal steps to given nodes lead. -/
def Method.walk? (m : Method) (declaredLocals : Bool) (ts : List Nat) :
    Option (Graph × Frame × Config) := do
  let graph ← (Graph.build m).toOption
  let start ← m.startFrame.toOption
  let config ← Config.route graph ⟨m.code, declaredLocals⟩ ⟨0, start⟩ ts
  return (graph, start, config)

theorem Method.walk?_eq_some {m : Method} {declaredLocals : Bool} {ts : List Nat} {g : Graph}
    {start : Frame} {c : Config} (h : m.walk? declaredLocals ts = some (g, start, c)) :
    Graph.build m = .ok g ∧ m.startFrame = .ok start ∧
      ∃ links, Execution g ⟨m.code, declaredLocals⟩ start c links := by
  simp only [walk?, Option.bind_eq_bind, Option.bind_eq_some_iff, toOption_eq_some] at h
  obtain ⟨_, hb, _, hs, _, hr, h⟩ := h
  cases h
  exact ⟨hb, hs, Execution.start.route hr⟩

/-- The number is that of a node with the property. -/
def Graph.At (g : Graph) (p : Int) (P : Node → Prop) : Prop :=
  ∃ (i : Nat) (n : Node), p = i ∧ g.nodes[i]? = some n ∧ P n

theorem Graph.At.imp {g : Graph} {p : Int} {P Q : Node → Prop} (h : g.At p P) (hPQ : ∀ n, P n → Q n) :
    g.At p Q := by
  obtain ⟨i, n, hp, hn, hP⟩ := h
  exact ⟨i, n, hp, hn, hPQ n hP⟩

def Graph.Calls (g : Graph) (i : Nat) : Prop :=
  ∃ n long, g.nodes[i]? = some n ∧ n.instr.operation = .jsr long

theorem returnNode_eq_ok {slot : Int} {nodes t : Nat} {f : Frame}
    (h : Node.returnNode slot nodes f = .ok t) :
    ∃ e ∈ f.entries, e.type = .returnAddress t := by
  simp only [Node.returnNode, bind_eq_ok] at h
  obtain ⟨e, he, h⟩ := h
  refine ⟨e, Frame.mem_entries.2 (.inl (Frame.mem_of_getLocal he)), ?_⟩
  split at h
  next a ha =>
    split at h
    next hlt =>
      cases h
      rw [ha, Int.toNat_of_nonneg hlt.1]
    next => cases h
  next => cases h

theorem returnNode_lt {slot : Int} {nodes t : Nat} {f : Frame}
    (h : Node.returnNode slot nodes f = .ok t) : t < nodes := by
  simp only [Node.returnNode, bind_eq_ok] at h
  obtain ⟨e, -, h⟩ := h
  split at h
  next a ha =>
    split at h
    next hlt =>
      cases h
      omega
    next => cases h
  next => cases h

theorem mem_flow_of_testNull {b : Bool} {next target t : Nat} {f : Frame} {succs : Successors}
    (h : Node.testNull b next target f = .ok succs) (ht : t ∈ succs.targets) :
    t = next ∨ t = target := by
  simp only [Node.testNull, bind_eq_ok] at h
  obtain ⟨top, -, h⟩ := h
  cases hn : Node.nullness top.type with
  | none =>
    simp only [hn, pure_eq_ok] at h
    subst h
    simpa [Successors.targets] using ht
  | some isNull =>
    simp only [hn] at h
    split at h
    · cases h
      exact .inr (List.mem_singleton.1 ht)
    · cases h
      exact .inl (List.mem_singleton.1 ht)

theorem mem_flow_or_returnNode {n : Node} {size t : Nat} {f : Frame} {succs : Successors}
    (h : n.successors size f = .ok succs) (ht : t ∈ succs.targets) :
    t ∈ n.flow ∨ Node.returnNode n.instr.index size f = .ok t := by
  rw [Node.successors] at h
  split at h
  · split at h
    next next target hf =>
      rw [hf]
      rcases mem_flow_of_testNull h ht with rfl | rfl <;> simp
    next hf =>
      cases h
      exact .inl ht
  · cases h
    simp only [Successors.targets, Option.mem_toList] at ht
    exact .inl (List.mem_of_getLast? ht)
  · simp only [bind_eq_ok, pure_eq_ok] at h
    obtain ⟨t', hr, rfl⟩ := h
    rw [List.mem_singleton.1 ht]
    exact .inr hr
  · cases h
    exact .inl ht

theorem mem_flow_of_successors {n : Node} {size t : Nat} {f : Frame} {succs : Successors}
    (h : n.successors size f = .ok succs) (ht : t ∈ succs.targets) :
    t ∈ n.flow ∨ ∃ e ∈ f.entries, e.type = .returnAddress t :=
  (mem_flow_or_returnNode h ht).imp_right returnNode_eq_ok

theorem successors_lt {g : Graph} (hg : g.Wf) {i t : Nat} {n : Node} (hn : g.nodes[i]? = some n)
    {f : Frame} {succs : Successors} (h : n.successors g.size f = .ok succs)
    (ht : t ∈ succs.targets) : t < g.size := by
  rcases mem_flow_or_returnNode h ht with ht | ht
  · exact hg.flow_lt hn ht
  · exact returnNode_lt ht

theorem Method.mem_slotsOf {t u : ValueType} (h : t ∈ slotsOf u) : t = u ∨ t = .top := by
  rw [slotsOf] at h
  split at h
  · simpa using h
  · exact .inl (List.mem_singleton.1 h)

theorem Method.startFrame_eq_ok {m : Method} {f : Frame} (h : m.startFrame = .ok f) :
    ∃ sig free, Descriptor.method m.descriptor = .ok sig ∧
      f = ⟨((m.receiver?.toList ++ sig.params).flatMap slotsOf ++
        List.replicate free ValueType.top).map (⟨·, noNode⟩), []⟩ := by
  rw [startFrame] at h
  cases hd : Descriptor.method m.descriptor with
  | error e => simp [hd] at h
  | ok sig =>
    simp only [hd] at h
    split at h
    · cases h
    split at h
    · cases h
    cases h
    exact ⟨sig, _, rfl, rfl⟩

/-- A method starts with its receiver, its parameters and free slots, none of them made by a node. -/
theorem Method.mem_startFrame {m : Method} {f : Frame} (h : m.startFrame = .ok f) {e : Entry}
    (he : e ∈ f.entries) : e.producer = noNode ∧
      (e.type = .top ∨ Descriptor.Named e.type ∨ m.receiver? = some e.type) := by
  obtain ⟨sig, free, hd, rfl⟩ := startFrame_eq_ok h
  rcases Frame.mem_entries.1 he with he | he
  · obtain ⟨t, ht, rfl⟩ := List.mem_map.1 he
    refine ⟨rfl, ?_⟩
    rcases List.mem_append.1 ht with ht | ht
    · obtain ⟨u, hu, ht⟩ := List.mem_flatMap.1 ht
      rcases mem_slotsOf ht with rfl | rfl
      · rcases List.mem_append.1 hu with hu | hu
        · exact .inr (.inr (Option.mem_toList.1 hu))
        · exact .inr (.inl (Descriptor.named_of_mem_params hd t hu))
      · exact .inl rfl
    · exact .inl (List.mem_replicate.1 ht).2
  · cases he

theorem Method.startFrame_entries {m : Method} {f : Frame} (h : m.startFrame = .ok f) {e : Entry}
    (he : e ∈ f.entries) (a : Int) : e.type ≠ .returnAddress a := by
  rcases (mem_startFrame h he).2 with ht | ht | ht
  · simp [ht]
  · exact ht.ne_returnAddress a
  · rw [receiver?] at ht
    intro ha
    rw [ha] at ht
    split at ht
    · cases ht
    · split at ht <;> cases ht

section

variable {g : Graph} {ctx : Effect.Context} {start : Frame} {c c' : Config}
  {links : List (Config × Config)}

theorem mem_handlers {n : Node} {hd : Handler} (h : hd ∈ handlersOf n) : hd ∈ n.handlers := by
  rw [handlersOf] at h
  split at h
  · exact h
  · cases h

theorem Raises.mem_succs (hg : g.Wf) (h : Raises g c c') : c'.node ∈ g.succs c.node := by
  cases h with
  | @exception n hd hn hh =>
    rw [Graph.succs_eq hn, hg.mem_succs hn]
    exact .inr ⟨hd, mem_handlers hh, rfl⟩

theorem Advances.mem_succs (hg : g.Wf) (h : Advances g ctx c c') :
    c'.node ∈ g.succs c.node ∨ ∃ e ∈ c.frame.entries, e.type = .returnAddress c'.node := by
  cases h with
  | @step n succs t frame hn hs ht _ =>
    refine (mem_flow_of_successors hs ht).imp_left fun ht => ?_
    rw [Graph.succs_eq hn, hg.mem_succs hn]
    exact .inl ht

theorem Advances.ne_throw {m : Method} (hb : Graph.build m = .ok g) (h : Advances g ctx c c') {n : Node}
    (hn : g.nodes[c.node]? = some n) : n.instr.operation ≠ .throw := by
  intro hop
  cases h with
  | @step n' succs t frame hn' hs ht _ =>
    rw [hn] at hn'
    cases hn'
    simp only [Node.successors, hop, Graph.flow_of_throw hb hn hop, Except.ok.injEq] at hs
    subst hs
    cases ht

/-- A step takes return addresses over from the frame before, unless it is a call. -/
theorem Advances.returnAddress (h : Advances g ctx c c') {e : Entry} (he : e ∈ c'.frame.entries)
    {a : Int} (ha : e.type = .returnAddress a) :
    (∃ x ∈ c.frame.entries, x.type = .returnAddress a) ∨
      (g.Calls c.node ∧ a = word (c.node + 1)) := by
  cases h with
  | @step n succs t frame hn _ _ happ =>
    refine (Effect.yields_of_apply happ e he).returnAddress ha |>.imp_right ?_
    rintro ⟨⟨long, hop⟩, ha⟩
    exact ⟨⟨n, long, hn, hop⟩, ha⟩

theorem Raises.returnAddress (h : Raises g c c') {e : Entry} (he : e ∈ c'.frame.entries) {a : Int}
    (ha : e.type = .returnAddress a) : ∃ x ∈ c.frame.entries, x.type = .returnAddress a := by
  cases h with
  | exception hn hh =>
    rcases Frame.mem_entries.1 he with he | he
    · exact ⟨e, Frame.mem_entries.2 (.inl he), ha⟩
    · rw [List.mem_singleton.1 he] at ha
      cases ha

/-- A return address that a chain holds was pushed by a call that it left before. -/
theorem Chain.returnAddress (h : Chain g ctx start c links)
    (hs : ∀ e ∈ start.entries, ∀ a, e.type ≠ .returnAddress a) {e : Entry}
    (he : e ∈ c.frame.entries) {a : Int} (ha : e.type = .returnAddress a) :
    ∃ l ∈ links, g.Calls l.1.node ∧ a = word (l.1.node + 1) := by
  induction h generalizing e with
  | start => exact absurd ha (hs e he a)
  | @link c c' links _ hf ih =>
    have before {x : Entry} (hx : x ∈ c.frame.entries) (hxa : x.type = .returnAddress a) :
        ∃ l ∈ (c, c') :: links, g.Calls l.1.node ∧ a = word (l.1.node + 1) := by
      obtain ⟨l, hl, hc⟩ := ih hx hxa
      exact ⟨l, List.mem_cons_of_mem _ hl, hc⟩
    rcases hf with hf | hf
    · rcases hf.returnAddress he ha with ⟨x, hx, hxa⟩ | hcall
      · exact before hx hxa
      · exact ⟨_, List.mem_cons_self, hcall⟩
    · obtain ⟨x, hx, hxa⟩ := hf.returnAddress he ha
      exact before hx hxa

/-- Where a call returns to is a node, and the word for it is its number. -/
theorem Graph.Calls.returns (hg : g.Wf) (hsize : g.size ≤ 0x8000000000000000) {i : Nat}
    (h : g.Calls i) : word (i + 1) = ((i + 1 : Nat) : Int) ∧ i + 1 ∈ g.succs i := by
  obtain ⟨n, long, hn, hop⟩ := h
  have hcall := hg.call hn hop
  have hlt := hg.flow_lt hn hcall
  constructor
  · rw [word_eq_self (by omega) (by omega)]
    rfl
  · rw [succs_eq hn, hg.mem_succs hn]
    exact .inl hcall

/-- A chain goes on along an edge of the graph: from the node that it leaves, or from a call that it
left before and now returns from. The bound on the size says that return addresses, which are words,
can name all nodes. -/
theorem Chain.follows_edge (hg : g.Wf) (hsize : g.size ≤ 0x8000000000000000)
    (hs : ∀ e ∈ start.entries, ∀ a, e.type ≠ .returnAddress a) (h : Chain g ctx start c links)
    (hf : Advances g ctx c c' ∨ Raises g c c') :
    c'.node ∈ g.succs c.node ∨ ∃ l ∈ links, g.Calls l.1.node ∧ c'.node ∈ g.succs l.1.node := by
  rcases hf with hf | hf
  · refine (hf.mem_succs hg).imp_right ?_
    rintro ⟨e, he, ha⟩
    obtain ⟨l, hl, hcall, hw⟩ := h.returnAddress hs he ha
    obtain ⟨hword, hsucc⟩ := hcall.returns hg hsize
    refine ⟨l, hl, hcall, ?_⟩
    rwa [Int.ofNat_inj.1 (hw.trans hword)]
  · exact .inl (hf.mem_succs hg)

theorem Chain.node_lt (hg : g.Wf) (hsize : g.size ≤ 0x8000000000000000)
    (hs : ∀ e ∈ start.entries, ∀ a, e.type ≠ .returnAddress a) (h : Chain g ctx start c links) :
    c.node < g.size := by
  cases h with
  | start => exact hg.pos
  | link h hf =>
    rcases h.follows_edge hg hsize hs hf with hc | ⟨l, -, -, hc⟩
    · exact hg.succ_lt hc
    · exact hg.succ_lt hc

theorem Execution.node_lt (hg : g.Wf) (hsize : g.size ≤ 0x8000000000000000)
    (hs : ∀ e ∈ start.entries, ∀ a, e.type ≠ .returnAddress a) (h : Execution g ctx start c links) :
    c.node < g.size :=
  h.chain.node_lt hg hsize hs

end

end BytecodeFlow
