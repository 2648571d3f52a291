import BytecodeFlow.Graph
import BytecodeFlow.Proofs.Except

namespace BytecodeFlow

namespace Graph

theorem nodeAt?_lt {c : Code} {offset : Int} {n : Nat} (h : nodeAt? c offset = some n) :
    n < c.instructions.length :=
  (List.findIdx?_eq_some_iff_getElem.1 h).1

theorem nextNode_eq_ok {c : Code} {i t : Nat} {instr : Instruction} :
    nextNode c i instr = .ok t ↔ i + 1 < c.instructions.length ∧ t = i + 1 := by
  rw [nextNode]
  split
  next h => simp [h, eq_comm]
  next h => simp [h]

theorem targetNode_lt {c : Code} {instr : Instruction} {offset : Int} {t : Nat}
    (h : targetNode c instr offset = .ok t) : t < c.instructions.length := by
  rw [targetNode] at h
  cases hn : nodeAt? c offset with
  | none => simp [hn] at h
  | some n =>
    simp only [hn, Except.ok.injEq] at h
    exact h ▸ nodeAt?_lt hn

theorem both_eq_ok {c : Code} {instr : Instruction} {i : Nat} {ts : List Nat}
    (h : flowOf.both c instr i = .ok ts) :
    ∃ t, i + 1 < c.instructions.length ∧ t < c.instructions.length ∧ ts = firsts [i + 1, t] := by
  simp only [flowOf.both, bind_eq_ok, pure_eq_ok] at h
  obtain ⟨next, hn, t, ht, rfl⟩ := h
  obtain ⟨hlt, rfl⟩ := nextNode_eq_ok.1 hn
  exact ⟨t, hlt, targetNode_lt ht, rfl⟩

theorem flowOf_lt {c : Code} {instr : Instruction} {i t : Nat} {ts : List Nat}
    (h : flowOf c instr i = .ok ts) (ht : t ∈ ts) : t < c.instructions.length := by
  have both (h : flowOf.both c instr i = .ok ts) : t < c.instructions.length := by
    obtain ⟨t', hlt, ht', rfl⟩ := both_eq_ok h
    rw [mem_firsts, List.mem_cons, List.mem_singleton] at ht
    rcases ht with rfl | rfl <;> assumption
  rw [flowOf] at h
  cases hf : instr.op.flow with
  | leave | throw | ret =>
    simp only [hf, Except.ok.injEq] at h
    simp [← h] at ht
  | goto =>
    simp only [hf, bind_eq_ok, pure_eq_ok] at h
    obtain ⟨t', hg, rfl⟩ := h
    rw [List.mem_singleton.1 ht]
    exact targetNode_lt hg
  | branch | jsr =>
    simp only [hf] at h
    exact both h
  | switch =>
    simp only [hf, bind_eq_ok, pure_eq_ok] at h
    obtain ⟨ts', hm, rfl⟩ := h
    obtain ⟨k, hk⟩ := List.getElem?_of_mem ((mem_firsts _).1 ht)
    have hk' := getElem?_mapM hm k
    rw [hk] at hk'
    obtain ⟨offset, -, ho⟩ := Option.map_eq_some_iff.1 hk'
    exact targetNode_lt ho
  | next =>
    simp only [hf, bind_eq_ok, pure_eq_ok] at h
    obtain ⟨t', hn, rfl⟩ := h
    obtain ⟨hlt, rfl⟩ := nextNode_eq_ok.1 hn
    rw [List.mem_singleton.1 ht]
    exact hlt

theorem succ_mem_flowOf_jsr {c : Code} {instr : Instruction} {i : Nat} {ts : List Nat}
    (h : flowOf c instr i = .ok ts) (hj : instr.op.flow = .jsr) : i + 1 ∈ ts := by
  rw [flowOf] at h
  simp only [hj] at h
  obtain ⟨t, -, -, rfl⟩ := both_eq_ok h
  rw [mem_firsts]
  exact List.mem_cons_self

namespace Wiring

/-- A wiring whose jumps and handlers are those of its code. -/
structure Resolves (w : Wiring) : Prop where
  flow : ∀ i, w.code.instructions[i]?.map (flowOf w.code · i) = w.flow[i]?.map .ok
  handlers : ∀ k, w.code.handlers[k]?.map (entryOf w.code · k) = w.handlers[k]?.map .ok

theorem resolves_of_wire {c : Code} {w : Wiring} (h : wire c = .ok w) :
    w.code = c ∧ w.Resolves := by
  simp only [wire, bind_eq_ok, pure_eq_ok] at h
  obtain ⟨flow, hf, handlers, hh, rfl⟩ := h
  refine ⟨rfl, fun i => ?_, fun k => ?_⟩
  · rw [← getElem?_mapM hf i, List.getElem?_zipIdx]
    cases c.instructions[i]? <;> simp
  · rw [← getElem?_mapM hh k, List.getElem?_zipIdx]
    cases c.handlers[k]? <;> simp

variable {w : Wiring}

theorem Resolves.flow_eq_some (hw : w.Resolves) {i : Nat} {ts : List Nat} (h : w.flow[i]? = some ts) :
    ∃ instr, w.code.instructions[i]? = some instr ∧ flowOf w.code instr i = .ok ts := by
  have hi := hw.flow i
  rw [h] at hi
  exact Option.map_eq_some_iff.1 hi

theorem Resolves.length_flow (hw : w.Resolves) : w.flow.length = w.code.instructions.length := by
  apply Nat.le_antisymm <;> refine Nat.le_of_not_lt fun h => ?_
  · have hi := hw.flow w.code.instructions.length
    rw [List.getElem?_eq_none (Nat.le_refl _), List.getElem?_eq_getElem h] at hi
    cases hi
  · have hi := hw.flow w.flow.length
    rw [List.getElem?_eq_none (Nat.le_refl _), List.getElem?_eq_getElem h] at hi
    cases hi

theorem Resolves.entry_lt (hw : w.Resolves) {p : Protection} {entry : Nat}
    (h : (p, entry) ∈ w.handlers) : entry < w.code.instructions.length := by
  obtain ⟨k, hk⟩ := List.getElem?_of_mem h
  have hh := hw.handlers k
  rw [hk] at hh
  obtain ⟨p', -, he⟩ := Option.map_eq_some_iff.1 hh
  rw [entryOf] at he
  cases hn : nodeAt? w.code p'.entry with
  | none => simp [hn] at he
  | some n =>
    simp only [hn, Except.ok.injEq, Prod.mk.injEq] at he
    exact he.2 ▸ nodeAt?_lt hn

theorem mem_flowEdges {i t : Nat} : (i, t) ∈ w.flowEdges ↔ ∃ ts, w.flow[i]? = some ts ∧ t ∈ ts := by
  simp only [flowEdges, List.mem_flatMap, List.mem_map, Prod.mk.injEq, Prod.exists,
    List.mk_mem_zipIdx_iff_getElem?]
  constructor
  · rintro ⟨ts, _, h, _, ht, rfl, rfl⟩
    exact ⟨ts, h, ht⟩
  · rintro ⟨ts, h, ht⟩
    exact ⟨ts, i, h, t, ht, rfl, rfl⟩

theorem mem_handlerEdges {i t : Nat} : (i, t) ∈ w.handlerEdges ↔
    ∃ p, (p, t) ∈ w.handlers ∧ ∃ instr, w.code.instructions[i]? = some instr ∧
      p.covers instr.offset = true := by
  simp only [handlerEdges, List.mem_flatMap, List.mem_map, List.mem_filter, Prod.mk.injEq,
    Prod.exists, List.mk_mem_zipIdx_iff_getElem?]
  constructor
  · rintro ⟨p, _, hp, instr, _, ⟨hi, hc⟩, rfl, rfl⟩
    exact ⟨p, hp, instr, hi, hc⟩
  · rintro ⟨p, hp, instr, hi, hc⟩
    exact ⟨p, t, hp, instr, i, ⟨hi, hc⟩, rfl, rfl⟩

theorem mem_handlersOf {instr : Instruction} {t : Nat} :
    (∃ hd ∈ w.handlersOf instr, hd.entry = t) ↔
      ∃ p, (p, t) ∈ w.handlers ∧ p.covers instr.offset = true := by
  simp only [handlersOf, List.mem_map, List.mem_filter, Prod.exists]
  constructor
  · rintro ⟨_, ⟨p, _, ⟨hp, hc⟩, rfl⟩, rfl⟩
    exact ⟨p, hp, hc⟩
  · rintro ⟨p, hp, hc⟩
    exact ⟨_, ⟨p, t, ⟨hp, hc⟩, rfl⟩, rfl⟩

theorem getElem?_nodes {edges twins : List (Nat × Nat)} {i : Nat} {n : Node}
    (h : (w.nodes edges twins)[i]? = some n) :
    ∃ instr flow, w.code.instructions[i]? = some instr ∧ w.flow[i]? = some flow ∧
      n = {
        instr
        line := w.code.lineAt instr.offset
        flow
        handlers := w.handlersOf instr
        succs := firsts ((edges.filter (·.1 == i)).map Prod.snd)
        preds := firsts ((edges.filter (·.2 == i)).map Prod.fst)
        sameLine := .ofList (i :: (twins.filter (·.1 == i)).map Prod.snd) } := by
  rw [nodes, List.getElem?_map, List.getElem?_zipIdx] at h
  simp only [Nat.zero_add, Option.map_map, Option.map_eq_some_iff, Function.comp_apply] at h
  obtain ⟨⟨instr, flow⟩, hz, rfl⟩ := h
  obtain ⟨hi, hf⟩ := List.getElem?_zip_eq_some.1 hz
  exact ⟨instr, flow, hi, hf, rfl⟩

end Wiring

theorem wire_of_build {m : Method} {g : Graph} (h : build m = .ok g) :
    m.defect? = none ∧ ∃ w, wire m.code = .ok w ∧ g = ofWiring m w := by
  rw [build] at h
  cases hd : m.defect? with
  | some d => simp [hd] at h
  | none =>
    simp only [hd, bind_eq_ok, pure_eq_ok] at h
    obtain ⟨w, hw, rfl⟩ := h
    exact ⟨rfl, w, hw, rfl⟩

theorem build_eq_ok {m : Method} {g : Graph} (h : build m = .ok g) :
    m.defect? = none ∧ ∃ w, w.code = m.code ∧ w.Resolves ∧ g = ofWiring m w := by
  obtain ⟨hd, w, hw, rfl⟩ := wire_of_build h
  obtain ⟨hc, hr⟩ := Wiring.resolves_of_wire hw
  exact ⟨hd, w, hc, hr, rfl⟩

end Graph

theorem LineRun.exists_instruction {c : Code} {es : List LineEntry} {r : LineRun}
    (hr : r ∈ ofEntries c es) {n : Nat} {op : Opcode} (hm : (n, op) ∈ r.members) :
    ∃ instr, c.instructions[n]? = some instr ∧ instr.op = op := by
  induction es with
  | nil => simp [ofEntries] at hr
  | cons e es ih =>
    rw [ofEntries, List.mem_cons] at hr
    rcases hr with rfl | hr
    · obtain ⟨⟨instr, i⟩, hi, he⟩ := List.mem_map.1 hm
      cases he
      exact ⟨instr, List.mk_mem_zipIdx_iff_getElem?.1 (List.mem_filter.1 hi).1, rfl⟩
    · exact ih hr

theorem Code.exists_of_twins {c : Code} {i j : Nat} (h : (i, j) ∈ c.twins) :
    ∃ instr instr', c.instructions[i]? = some instr ∧ c.instructions[j]? = some instr' ∧
      instr.op = instr'.op := by
  simp only [twins, List.mem_flatMap, List.mem_filter, LineRun.matching, Bool.and_eq_true,
    beq_iff_eq] at h
  obtain ⟨r, hr, s, ⟨hs, -, hops⟩, hz⟩ := h
  obtain ⟨k, hk⟩ := List.getElem?_of_mem hz
  obtain ⟨hi, hj⟩ := List.getElem?_zip_eq_some.1 hk
  simp only [LineRun.nodes, List.getElem?_map, Option.map_eq_some_iff] at hi hj
  obtain ⟨⟨_, op⟩, hi, rfl⟩ := hi
  obtain ⟨⟨_, op'⟩, hj, rfl⟩ := hj
  obtain ⟨instr, hinstr, rfl⟩ := LineRun.exists_instruction hr (List.mem_of_getElem? hi)
  obtain ⟨instr', hinstr', rfl⟩ := LineRun.exists_instruction hs (List.mem_of_getElem? hj)
  refine ⟨instr, instr', hinstr, hinstr', ?_⟩
  have hk := congrArg (·[k]?) hops
  simpa [LineRun.opcodes, hi, hj] using hk

theorem Code.twins_lt {c : Code} {i j : Nat} (h : (i, j) ∈ c.twins) :
    j < c.instructions.length := by
  obtain ⟨_, _, -, hj, -⟩ := exists_of_twins h
  exact (List.getElem?_eq_some_iff.1 hj).1

end BytecodeFlow
