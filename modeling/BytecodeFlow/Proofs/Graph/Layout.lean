import BytecodeFlow.Proofs.Defects
import BytecodeFlow.Proofs.Graph.WellFormed

/-!
The nodes of a graph are the instructions of its method in order. Offsets increase, so that an offset
names at most one of them.
-/

namespace BytecodeFlow

namespace Graph

theorem nodeAt?_of_offset {c : Code} {t : Nat} {instr : Instruction}
    (h : c.instructions.Pairwise fun a b => a.offset < b.offset)
    (ht : c.instructions[t]? = some instr) : nodeAt? c instr.offset = some t := by
  obtain ⟨hlt, rfl⟩ := List.getElem?_eq_some_iff.1 ht
  rw [nodeAt?, List.findIdx?_eq_some_iff_getElem]
  refine ⟨hlt, by simp, fun j hj => ?_⟩
  have := List.pairwise_iff_getElem.1 h j t (by omega) hlt hj
  simp only [Bool.not_eq_true, beq_eq_false_iff_ne]
  omega

theorem targetNode_eq_ok {c : Code} {instr : Instruction} {offset : Int} {t : Nat} :
    targetNode c instr offset = .ok t ↔ nodeAt? c offset = some t := by
  rw [targetNode]
  cases nodeAt? c offset <;> simp

section

variable {c : Code} {instr : Instruction} {i t : Nat} {ts : List Nat}

theorem mem_flowOf_next (h : flowOf c instr i = .ok ts) (hf : instr.op.flow = .next) : i + 1 ∈ ts := by
  simp only [flowOf, hf, bind_eq_ok, pure_eq_ok] at h
  obtain ⟨t, hn, rfl⟩ := h
  simp [(nextNode_eq_ok.1 hn).2]

theorem mem_flowOf_goto (h : flowOf c instr i = .ok ts) (hf : instr.op.flow = .goto)
    (ht : nodeAt? c instr.target = some t) : t ∈ ts := by
  simp only [flowOf, hf, bind_eq_ok, pure_eq_ok, targetNode_eq_ok, ht] at h
  obtain ⟨t, ht, rfl⟩ := h
  cases ht
  exact List.mem_singleton_self t

theorem mem_flowOf_switch (h : flowOf c instr i = .ok ts) (hf : instr.op.flow = .switch) {offset : Int}
    (ho : offset ∈ instr.target :: instr.cases.map SwitchCase.target)
    (ht : nodeAt? c offset = some t) : t ∈ ts := by
  simp only [flowOf, hf, Instruction.targets, bind_eq_ok, pure_eq_ok] at h
  obtain ⟨us, hm, rfl⟩ := h
  obtain ⟨k, hk⟩ := List.getElem?_of_mem ho
  have hu := getElem?_mapM hm k
  rw [hk, Option.map_some, targetNode_eq_ok.2 ht] at hu
  obtain ⟨_, hu, heq⟩ := Option.map_eq_some_iff.1 hu.symm
  cases heq
  exact (mem_firsts us).2 (List.mem_of_getElem? hu)

/-- A conditional jump and a call both have the next node before their target. -/
theorem flowOf_eq_firsts (h : flowOf c instr i = .ok ts)
    (hf : instr.op.flow = .branch ∨ instr.op.flow = .jsr) :
    ∃ t, nodeAt? c instr.target = some t ∧ ts = firsts [i + 1, t] := by
  have hb : flowOf.both c instr i = .ok ts := by
    rcases hf with hf | hf <;> simpa only [flowOf, hf] using h
  simp only [flowOf.both, bind_eq_ok, pure_eq_ok, targetNode_eq_ok] at hb
  obtain ⟨next, hn, t, ht, rfl⟩ := hb
  obtain ⟨-, rfl⟩ := nextNode_eq_ok.1 hn
  exact ⟨t, ht, rfl⟩

end

theorem Wiring.Resolves.mem_handlers {w : Wiring} (hw : w.Resolves) {p : Protection} {t : Nat}
    (hp : p ∈ w.code.handlers) (ht : nodeAt? w.code p.entry = some t) : (p, t) ∈ w.handlers := by
  obtain ⟨k, hk⟩ := List.getElem?_of_mem hp
  have hh := hw.handlers k
  simp only [hk, Option.map_some, entryOf, ht] at hh
  obtain ⟨_, hm, he⟩ := Option.map_eq_some_iff.1 hh.symm
  cases he
  exact List.mem_of_getElem? hm

theorem exists_node_of_build {m : Method} {g : Graph} (hb : build m = .ok g) {i : Nat}
    {instr : Instruction} (hi : m.code.instructions[i]? = some instr) :
    ∃ n, g.nodes[i]? = some n ∧ n.instr = instr ∧ flowOf m.code instr i = .ok n.flow ∧
      ∀ p ∈ m.code.handlers, p.covers instr.offset = true → ∀ t, nodeAt? m.code p.entry = some t →
        ⟨t, p.catchType⟩ ∈ n.handlers := by
  obtain ⟨-, w, hc, hw, rfl⟩ := build_eq_ok hb
  rw [← hc] at hi ⊢
  have hlt : i < (ofWiring m w).nodes.size := by
    rw [← size, size_ofWiring hw]
    exact (List.getElem?_eq_some_iff.1 hi).1
  have hn := Array.getElem?_eq_getElem hlt
  obtain ⟨instr', flow, hi', hf, he⟩ := Wiring.getElem?_nodes (getElem?_ofWiring hn)
  rw [hi] at hi'
  cases hi'
  obtain ⟨instr', hi', hfl⟩ := hw.flow_eq_some hf
  rw [hi] at hi'
  cases hi'
  refine ⟨_, hn, ?_, ?_, ?_⟩ <;> rw [he]
  · exact hfl
  · intro p hp hcov t ht
    exact List.mem_map.2 ⟨(p, t), List.mem_filter.2 ⟨hw.mem_handlers hp ht, hcov⟩, rfl⟩

theorem flow_of_build {m : Method} {g : Graph} (hb : build m = .ok g) {i : Nat} {n : Node}
    (hn : g.nodes[i]? = some n) : flowOf m.code n.instr i = .ok n.flow := by
  obtain ⟨n', hn', -, hf, -⟩ := exists_node_of_build hb (instr_of_build hb hn)
  rw [hn] at hn'
  cases hn'
  exact hf

theorem flow_of_throw {m : Method} {g : Graph} (hb : build m = .ok g) {i : Nat} {n : Node}
    (hn : g.nodes[i]? = some n) (hop : n.instr.operation = .throw) : n.flow = [] := by
  have hf := flow_of_build hb hn
  have hfl : n.instr.op.flow = .throw := by
    change n.instr.operation.flow = _
    rw [hop]
    rfl
  simp only [flowOf, hfl, Except.ok.injEq] at hf
  exact hf.symm

end Graph

end BytecodeFlow
