import BytecodeFlow.Proofs.Graph.Closure
import BytecodeFlow.Proofs.Graph.Layout
import BytecodeFlow.Proofs.Pointwise

/-!
The lists of edges at a node. Control flow comes first, the next node before a target and the default of a
switch before its cases; then come the entries of handlers in table order; nothing is listed twice, and
predecessors are the converse of successors.
-/

namespace BytecodeFlow

section Firsts

variable [BEq α] [LawfulBEq α]

theorem firsts_filter (p : α → Bool) (xs : List α) : firsts (xs.filter p) = (firsts xs).filter p := by
  induction xs with
  | nil => rfl
  | cons x xs ih =>
    rw [List.filter_cons, firsts, List.filter_cons]
    split
    next hx =>
      rw [firsts, ih, List.filter_filter, List.filter_filter]
      simp only [Bool.and_comm]
    next hx =>
      rw [ih, List.filter_filter]
      refine List.filter_congr fun a _ => ?_
      by_cases ha : a = x
      · simp [ha, hx]
      · simp [ha]

theorem firsts_eq_eraseDups (xs : List α) : firsts xs = xs.eraseDups := by
  induction hn : xs.length using Nat.strongRecOn generalizing xs with
  | ind n ih =>
    cases xs with
    | nil => rfl
    | cons x xs =>
      have hlen := List.length_filter_le (fun b => !b == x) xs
      rw [firsts, List.eraseDups_cons, ← firsts_filter, ih _ (by simp at hn; omega) _ rfl]

theorem firsts_of_nodup {xs : List α} (h : xs.Nodup) : firsts xs = xs := by
  induction xs with
  | nil => rfl
  | cons x xs ih =>
    obtain ⟨hx, hs⟩ := List.nodup_cons.1 h
    rw [firsts, ih hs, List.filter_eq_self.2]
    intro a ha
    simpa using fun hax : a = x => hx (hax ▸ ha)

theorem firsts_append {xs ys : List α} (h : xs.Nodup) :
    firsts (xs ++ ys) = xs ++ (ys.filter (!xs.contains ·)).eraseDups := by
  rw [firsts_eq_eraseDups, List.eraseDups_append, ← firsts_eq_eraseDups, firsts_of_nodup h]
  rfl

end Firsts

theorem flatMap_filter (p : α → Bool) (f : α → List β) (xs : List α) :
    (xs.filter p).flatMap f = xs.flatMap fun x => if p x then f x else [] := by
  induction xs with
  | nil => rfl
  | cons x xs ih =>
    rw [List.filter_cons, List.flatMap_cons]
    split <;> simp [ih]

theorem filter_zipIdx_add (xs : List α) (n i : Nat) :
    ((xs.zipIdx n).filter fun x => x.2 == i + n) = (xs[i]?.map (·, i + n)).toList := by
  induction xs generalizing n i with
  | nil => rfl
  | cons x xs ih =>
    rw [List.zipIdx_cons, List.filter_cons]
    cases i with
    | zero =>
      have hrest : ((xs.zipIdx (n + 1)).filter fun x => x.2 == n) = [] := by
        refine List.filter_eq_nil_iff.2 fun y hy => ?_
        have := List.le_snd_of_mem_zipIdx hy
        simp only [beq_iff_eq]
        omega
      simp [hrest]
    | succ i =>
      rw [if_neg (by simp), Nat.add_right_comm i 1 n]
      exact ih (n + 1) i

theorem filter_zipIdx (xs : List α) (i : Nat) :
    (xs.zipIdx.filter fun x => x.2 == i) = (xs[i]?.map (·, i)).toList :=
  filter_zipIdx_add xs 0 i

namespace Graph

namespace Wiring

variable {w : Wiring} {i : Nat}

theorem flowEdges_from {flow : List Nat} (h : w.flow[i]? = some flow) :
    (w.flowEdges.filter (·.1 == i)).map Prod.snd = flow := by
  have edges (x : List Nat × Nat) : ((x.1.map (x.2, ·)).filter (·.1 == i)).map Prod.snd =
      if x.2 == i then x.1 else [] := by
    cases hx : x.2 == i <;> simp [List.filter_map, Function.comp_def, hx]
  calc
    _ = w.flow.zipIdx.flatMap fun x => if x.2 == i then x.1 else [] := by
      rw [flowEdges, List.filter_flatMap, List.map_flatMap]
      exact congrArg (List.flatMap · _) (funext edges)
    _ = (w.flow.zipIdx.filter (·.2 == i)).flatMap Prod.fst := (flatMap_filter _ _ _).symm
    _ = flow := by simp [filter_zipIdx, h]

theorem handlerEdges_from {instr : Instruction} (h : w.code.instructions[i]? = some instr) :
    (w.handlerEdges.filter (·.1 == i)).map Prod.snd = (w.handlersOf instr).map Handler.entry := by
  have edges (x : Protection × Nat) :
      ((((w.code.instructions.zipIdx.filter fun y => x.1.covers y.1.offset).map
        fun y => (y.2, x.2)).filter (·.1 == i)).map Prod.snd) =
      if x.1.covers instr.offset then [x.2] else [] := by
    rw [List.filter_map, List.filter_comm]
    change (((w.code.instructions.zipIdx.filter (·.2 == i)).filter _).map _).map _ = _
    rw [filter_zipIdx, h]
    cases hc : x.1.covers instr.offset <;> simp [hc]
  calc
    _ = w.handlers.flatMap fun x => if x.1.covers instr.offset then [x.2] else [] := by
      rw [handlerEdges, List.filter_flatMap, List.map_flatMap]
      exact congrArg (List.flatMap · _) (funext edges)
    _ = (w.handlers.filter fun x => x.1.covers instr.offset).flatMap fun x => [x.2] :=
      (flatMap_filter _ _ _).symm
    _ = (w.handlersOf instr).map Handler.entry := by
      rw [handlersOf, List.map_map]
      exact List.map_eq_flatMap.symm

end Wiring

/-- The instruction with a number stands at an offset. -/
def StandsAt (c : Code) (offset : Int) (t : Nat) : Prop :=
  ∃ instr, c.instructions[t]? = some instr ∧ instr.offset = offset

/-- The successors of instruction `i` by control flow, in their order. -/
inductive FlowsTo (c : Code) (i : Nat) (instr : Instruction) : List Nat → Prop
  | ends : instr.op.flow = .leave ∨ instr.op.flow = .throw ∨ instr.op.flow = .ret →
    FlowsTo c i instr []
  | next : instr.op.flow = .next → FlowsTo c i instr [i + 1]
  | goto {t : Nat} : instr.op.flow = .goto → StandsAt c instr.target t → FlowsTo c i instr [t]
  | forks {t : Nat} : instr.op.flow = .branch ∨ instr.op.flow = .jsr → StandsAt c instr.target t →
    FlowsTo c i instr (if t = i + 1 then [i + 1] else [i + 1, t])
  | switch {t : Nat} {ts : List Nat} : instr.op.flow = .switch → StandsAt c instr.target t →
    List.Forall₂ (StandsAt c) (instr.cases.map SwitchCase.target) ts →
    FlowsTo c i instr (t :: ts).eraseDups

/-- A handler is an entry of the exception table with its offset resolved. -/
structure Handler.Resolves (c : Code) (p : Protection) (hd : Handler) : Prop where
  entry : StandsAt c p.entry hd.entry
  catchType : hd.catchType = p.catchType

/-- How the edges at node `i` are listed. -/
structure Listed (c : Code) (i : Nat) (n : Node) : Prop where
  instr : c.instructions[i]? = some n.instr
  flow : FlowsTo c i n.instr n.flow
  handlers : List.Forall₂ (Handler.Resolves c)
    (c.handlers.filter fun p => p.first ≤ n.instr.offset ∧ n.instr.offset < p.last) n.handlers
  succs : n.succs = n.flow ++ ((n.handlers.map Handler.entry).filter (· ∉ n.flow)).eraseDups
  nodup : n.flow.Nodup ∧ n.succs.Nodup ∧ n.preds.Nodup
  lt : ∀ t, t ∈ n.flow ∨ t ∈ n.succs ∨ t ∈ n.preds → t < c.instructions.length

section Listed

variable {c : Code} {instr : Instruction} {i : Nat} {ts : List Nat}

theorem standsAt_of_nodeAt? {offset : Int} {t : Nat} (h : nodeAt? c offset = some t) :
    StandsAt c offset t := by
  obtain ⟨hlt, hoff, -⟩ := List.findIdx?_eq_some_iff_getElem.1 h
  exact ⟨_, List.getElem?_eq_getElem hlt, by simpa using hoff⟩

theorem flowsTo_of_flowOf (h : flowOf c instr i = .ok ts) : FlowsTo c i instr ts := by
  have forks (hf : instr.op.flow = .branch ∨ instr.op.flow = .jsr) : FlowsTo c i instr ts := by
    obtain ⟨t, ht, rfl⟩ := flowOf_eq_firsts h hf
    have hfirsts : firsts [i + 1, t] = if t = i + 1 then [i + 1] else [i + 1, t] := by
      by_cases ht : t = i + 1 <;> simp [firsts, ht]
    exact hfirsts ▸ .forks hf (standsAt_of_nodeAt? ht)
  cases hf : instr.op.flow with
  | leave | throw | ret =>
    simp only [flowOf, hf, Except.ok.injEq] at h
    exact h ▸ .ends (by simp [hf])
  | goto =>
    simp only [flowOf, hf, bind_eq_ok, pure_eq_ok, targetNode_eq_ok] at h
    obtain ⟨t, ht, rfl⟩ := h
    exact .goto hf (standsAt_of_nodeAt? ht)
  | branch => exact forks (.inl hf)
  | jsr => exact forks (.inr hf)
  | switch =>
    simp only [flowOf, hf, Instruction.targets, bind_eq_ok, pure_eq_ok] at h
    obtain ⟨us, hm, rfl⟩ := h
    have hus := (forall₂_of_mapM hm).imp fun _ _ ht => standsAt_of_nodeAt? (targetNode_eq_ok.1 ht)
    obtain ⟨t, ts, ht, hts, rfl⟩ := List.forall₂_cons_left_iff.1 hus
    rw [firsts_eq_eraseDups]
    exact .switch hf ht hts
  | next =>
    simp only [flowOf, hf, bind_eq_ok, pure_eq_ok] at h
    obtain ⟨t, hn, rfl⟩ := h
    obtain ⟨-, rfl⟩ := nextNode_eq_ok.1 hn
    exact .next hf

theorem FlowsTo.nodup (h : FlowsTo c i instr ts) : ts.Nodup := by
  cases h with
  | ends => exact List.nodup_nil
  | next | goto => simp
  | forks =>
    split
    next => simp
    next ht => simpa using Ne.symm ht
  | switch =>
    rw [← firsts_eq_eraseDups]
    exact nodup_firsts _

end Listed

section Build

variable {m : Method} {g : Graph} {w : Wiring} {i : Nat} {n : Node}

theorem Wiring.Resolves.entryOf_eq (hw : w.Resolves) {k : Nat} {x : Protection × Nat}
    (h : w.handlers[k]? = some x) :
    w.code.handlers[k]? = some x.1 ∧ StandsAt w.code x.1.entry x.2 := by
  have hk := hw.handlers k
  rw [h] at hk
  obtain ⟨p, hp, he⟩ := Option.map_eq_some_iff.1 hk
  rw [entryOf] at he
  cases hn : nodeAt? w.code p.entry with
  | none => simp [hn] at he
  | some t =>
    simp only [hn, Except.ok.injEq] at he
    subst he
    exact ⟨hp, standsAt_of_nodeAt? hn⟩

theorem Wiring.Resolves.map_fst_handlers (hw : w.Resolves) :
    w.handlers.map Prod.fst = w.code.handlers := by
  apply List.ext_getElem?
  intro k
  rw [List.getElem?_map]
  cases hk : w.handlers[k]? with
  | some x => exact (hw.entryOf_eq hk).1.symm
  | none =>
    have hnone := hw.handlers k
    rw [hk] at hnone
    exact (Option.map_eq_none_iff.1 hnone).symm

theorem Wiring.Resolves.forall₂_handlersOf (hw : w.Resolves) (instr : Instruction) :
    List.Forall₂ (Handler.Resolves w.code)
      (w.code.handlers.filter fun p => p.first ≤ instr.offset ∧ instr.offset < p.last)
      (w.handlersOf instr) := by
  have hcovers : (w.code.handlers.filter fun p => p.first ≤ instr.offset ∧ instr.offset < p.last) =
      (w.handlers.filter fun x => x.1.covers instr.offset).map Prod.fst := by
    rw [← hw.map_fst_handlers, List.filter_map]
    simp [Protection.covers, Function.comp_def]
  rw [hcovers, handlersOf, List.forall₂_map_left_iff, List.forall₂_map_right_iff, List.forall₂_same]
  intro x hx
  obtain ⟨k, hk⟩ := List.getElem?_of_mem (List.mem_filter.1 hx).1
  exact ⟨(hw.entryOf_eq hk).2, rfl⟩

theorem succs_of_wiring (hn : (ofWiring m w).nodes[i]? = some n)
    (hflow : n.flow.Nodup) :
    n.succs = n.flow ++ ((n.handlers.map Handler.entry).filter (· ∉ n.flow)).eraseDups := by
  obtain ⟨instr, flow, hi, hf, rfl⟩ := Wiring.getElem?_nodes (getElem?_ofWiring hn)
  rw [Wiring.edges, List.filter_append, List.map_append, Wiring.flowEdges_from hf,
    Wiring.handlerEdges_from hi, firsts_append hflow]
  simp

theorem size_of_build (hb : build m = .ok g) : g.size = m.code.instructions.length := by
  obtain ⟨-, w, hc, hw, rfl⟩ := build_eq_ok hb
  rw [size_ofWiring hw, hc]

theorem Wf.pred_lt (hwf : g.Wf) {t : Nat} (ht : t ∈ g.preds i) : t < g.size := by
  obtain ⟨_, ht, -⟩ := exists_of_mem_succs (hwf.mem_preds.1 ht)
  exact node_lt ht

theorem listed_of_build (hb : build m = .ok g) (hn : g.nodes[i]? = some n) : Listed m.code i n := by
  have hwf := wf_of_build hb
  have hsize := size_of_build hb
  have hinstr := instr_of_build hb hn
  have hflow := flowsTo_of_flowOf (flow_of_build hb hn)
  obtain ⟨-, w, hc, hw, rfl⟩ := build_eq_ok hb
  obtain ⟨instr, flow, -, -, heq⟩ := Wiring.getElem?_nodes (getElem?_ofWiring hn)
  constructor
  case instr => exact hinstr
  case flow => exact hflow
  case handlers =>
    rw [← hc, heq]
    exact hw.forall₂_handlersOf instr
  case succs => exact succs_of_wiring hn hflow.nodup
  case nodup =>
    refine ⟨hflow.nodup, ?_, ?_⟩ <;> rw [heq] <;> exact nodup_firsts _
  case lt =>
    rw [← hsize]
    rintro t (ht | ht | ht)
    · exact hwf.flow_lt hn ht
    · exact hwf.succ_lt (succs_eq hn ▸ ht)
    · exact hwf.pred_lt (preds_eq hn ▸ ht)

/-- Each node lists its edges in order and once, and the lists tell of the same edges: a node is a successor
of another if and only if that is one of its predecessors, which is to say that control flows to it or that
it is the entry of a handler there. -/
theorem edges_listed (hb : build m = .ok g) :
    g.size = m.code.instructions.length ∧
    (∀ (i : Nat) (n : Node), g.nodes[i]? = some n → Listed m.code i n) ∧
    ∀ (i j : Nat) (n k : Node), g.nodes[i]? = some n → g.nodes[j]? = some k →
      (j ∈ n.succs ↔ i ∈ k.preds) ∧
      (j ∈ n.succs ↔ j ∈ n.flow ∨ ∃ hd ∈ n.handlers, hd.entry = j) := by
  have hwf := wf_of_build hb
  refine ⟨size_of_build hb, fun i n hn => listed_of_build hb hn, fun i j n k hn hk => ?_⟩
  refine ⟨?_, hwf.mem_succs hn⟩
  rw [← succs_eq hn, ← preds_eq hk, hwf.mem_preds]

end Build

/-- A switch with repeated targets, one of them itself, under handlers that share their entries. -/
def tangled : Method where
  className := "a/B"
  name := "m"
  descriptor := "(I)V"
  static := true
  code := {
    instructions := [{ offset := 0, op := ⟨26⟩ },
      { offset := 1, op := ⟨171⟩, target := 36, cases := [⟨1, 0⟩, ⟨2, 36⟩, ⟨3, 1⟩] },
      { offset := 36, op := ⟨177⟩ }, { offset := 37, op := ⟨191⟩ }]
    handlers := [⟨0, 36, 37, "x/E"⟩, ⟨1, 2, 1, ""⟩, ⟨0, 37, 37, ""⟩]
    maxLocals := 1 }

theorem edges_listed_tangled : ∃ g n, build tangled = .ok g ∧ g.nodes[1]? = some n ∧
    Listed tangled.code 1 n ∧ n.flow = [2, 0, 1] ∧ n.succs = [2, 0, 1, 3] ∧
    (1 ∈ n.succs ↔ 1 ∈ n.preds) := by
  have h : (build tangled).toOption.any fun g => g.nodes[1]?.any fun n =>
      decide (n.flow = [2, 0, 1] ∧ n.succs = [2, 0, 1, 3]) := by decide +kernel
  obtain ⟨g, hb, h⟩ := (Option.any_eq_true _ _).1 h
  obtain ⟨n, hn, h⟩ := (Option.any_eq_true _ _).1 h
  obtain ⟨hflow, hsuccs⟩ := of_decide_eq_true h
  obtain ⟨-, hlisted, hedge⟩ := edges_listed (toOption_eq_some.1 hb)
  exact ⟨g, n, toOption_eq_some.1 hb, hn, hlisted 1 n hn, hflow, hsuccs, (hedge 1 1 n n hn hn).1⟩

end Graph

end BytecodeFlow
