import BytecodeFlow.Proofs.Graph.Edges

namespace BytecodeFlow

theorem mem_of_mem_unreached {next : Nat → List Nat} {outside : NodeSet} {work : List Nat} {i : Nat}
    (h : i ∈ unreached next outside work) : i ∈ outside := by
  fun_induction unreached next outside work with
  | case1 outside => exact h
  | case2 outside n work found ih => exact (OrderedSet.mem_filter.1 (ih h)).1

/-- No edge leads into what is unreached. The hypothesis is the invariant of the search: only nodes of
the worklist have edges to the outside. -/
theorem not_mem_unreached {next : Nat → List Nat} {outside : NodeSet} {work : List Nat}
    (h : ∀ n, n ∉ outside → n ∉ work → ∀ t ∈ next n, t ∉ outside) {n t : Nat}
    (hn : n ∉ unreached next outside work) (ht : t ∈ next n) :
    t ∉ unreached next outside work := by
  fun_induction unreached next outside work with
  | case1 outside => exact h n hn List.not_mem_nil t ht
  | case2 outside k work found ih =>
    refine ih (fun j hj hw u hu hmem => ?_) hn
    obtain ⟨hout, hk⟩ := OrderedSet.mem_filter.1 hmem
    have hjout : j ∉ outside := by
      intro hin
      by_cases hc : j ∈ next k
      · have hf : j ∈ found := OrderedSet.mem_filter.2 ⟨hin, List.contains_iff_mem.2 hc⟩
        exact hw (List.mem_append_left _ hf)
      · exact hj (OrderedSet.mem_filter.2 ⟨hin, by simpa using hc⟩)
    have hjw : j ∉ work := fun hin => hw (List.mem_append_right _ hin)
    by_cases hjk : j = k
    · subst hjk
      simp [hu] at hk
    · exact h j hjout (by simp [hjk, hjw]) u hu hout

namespace Graph

/-- A graph whose parts fit together. -/
structure Wf (g : Graph) : Prop where
  pos : 0 < g.size
  flow_lt : ∀ {i t : Nat} {n : Node}, g.nodes[i]? = some n → t ∈ n.flow → t < g.size
  entry_lt : ∀ {i : Nat} {n : Node} {hd : Handler}, g.nodes[i]? = some n → hd ∈ n.handlers →
    hd.entry < g.size
  mem_succs : ∀ {i t : Nat} {n : Node}, g.nodes[i]? = some n →
    (t ∈ n.succs ↔ t ∈ n.flow ∨ ∃ hd ∈ n.handlers, hd.entry = t)
  mem_preds : ∀ {i t : Nat}, i ∈ g.preds t ↔ t ∈ g.succs i
  mem_sameLine : ∀ {i : Nat} {n : Node}, g.nodes[i]? = some n → i ∈ n.sameLine
  sameLine_lt : ∀ {i j : Nat} {n : Node}, g.nodes[i]? = some n → j ∈ n.sameLine → j < g.size
  /-- A subroutine call falls through to where it returns. -/
  call : ∀ {i : Nat} {n : Node} {long : Bool}, g.nodes[i]? = some n →
    n.instr.operation = .jsr long → i + 1 ∈ n.flow
  dead_lt : ∀ {i : Nat}, i ∈ g.dead → i < g.size
  entry_live : 0 ∉ g.dead
  dead_pred : ∀ {i t : Nat}, t ∈ g.dead → t ∈ g.succs i → i ∈ g.dead

theorem node_lt {g : Graph} {i : Nat} {n : Node} (h : g.nodes[i]? = some n) : i < g.size :=
  (Array.getElem?_eq_some_iff.1 h).1

theorem succs_eq {g : Graph} {i : Nat} {n : Node} (h : g.nodes[i]? = some n) : g.succs i = n.succs := by
  simp [succs, succsIn, h]

theorem preds_eq {g : Graph} {i : Nat} {n : Node} (h : g.nodes[i]? = some n) : g.preds i = n.preds := by
  simp [preds, h]

theorem exists_of_mem_succs {g : Graph} {i t : Nat} (h : t ∈ g.succs i) :
    ∃ n, g.nodes[i]? = some n ∧ t ∈ n.succs := by
  rw [succs, succsIn] at h
  cases hn : g.nodes[i]? with
  | none => simp [hn] at h
  | some n => exact ⟨n, rfl, by simpa [hn] using h⟩

namespace Wiring

variable {w : Wiring}

theorem Resolves.edge_lt (hw : w.Resolves) {i t : Nat} (h : (i, t) ∈ w.edges) :
    i < w.code.instructions.length ∧ t < w.code.instructions.length := by
  rcases List.mem_append.1 h with h | h
  · obtain ⟨ts, hf, ht⟩ := mem_flowEdges.1 h
    obtain ⟨instr, hi, hfl⟩ := hw.flow_eq_some hf
    exact ⟨(List.getElem?_eq_some_iff.1 hi).1, flowOf_lt hfl ht⟩
  · obtain ⟨p, hp, instr, hi, -⟩ := mem_handlerEdges.1 h
    exact ⟨(List.getElem?_eq_some_iff.1 hi).1, hw.entry_lt hp⟩

theorem length_nodes (hw : w.Resolves) (edges twins : List (Nat × Nat)) :
    (w.nodes edges twins).length = w.code.instructions.length := by
  simp [nodes, hw.length_flow]

end Wiring

section Build

variable {m : Method} {w : Wiring}

theorem size_ofWiring (hw : w.Resolves) : (ofWiring m w).size = w.code.instructions.length := by
  simp [size, ofWiring, Wiring.length_nodes hw]

theorem getElem?_ofWiring {i : Nat} {n : Node} (h : (ofWiring m w).nodes[i]? = some n) :
    (w.nodes w.edges w.code.twins)[i]? = some n := by
  simpa [ofWiring] using h

theorem mem_succs_ofWiring (hw : w.Resolves) {i t : Nat} :
    t ∈ (ofWiring m w).succs i ↔ (i, t) ∈ w.edges := by
  constructor
  · intro h
    obtain ⟨n, hn, ht⟩ := exists_of_mem_succs h
    obtain ⟨instr, flow, -, -, rfl⟩ := Wiring.getElem?_nodes (getElem?_ofWiring hn)
    simpa [mem_firsts] using ht
  · intro h
    have hlt : i < (ofWiring m w).nodes.size := by
      rw [← size, size_ofWiring hw]
      exact (hw.edge_lt h).1
    have hn := Array.getElem?_eq_getElem hlt
    obtain ⟨instr, flow, -, -, he⟩ := Wiring.getElem?_nodes (getElem?_ofWiring hn)
    rw [succs_eq hn, he]
    simpa [mem_firsts] using h

theorem mem_preds_ofWiring (hw : w.Resolves) {i t : Nat} :
    i ∈ (ofWiring m w).preds t ↔ (i, t) ∈ w.edges := by
  by_cases hlt : t < (ofWiring m w).nodes.size
  · have hn := Array.getElem?_eq_getElem hlt
    obtain ⟨instr, flow, -, -, he⟩ := Wiring.getElem?_nodes (getElem?_ofWiring hn)
    rw [preds_eq hn, he]
    simp [mem_firsts]
  · have hn := Array.getElem?_eq_none (Nat.le_of_not_lt hlt)
    constructor
    · intro h
      simp [preds, hn] at h
    · intro h
      rw [← size, size_ofWiring hw] at hlt
      exact absurd (hw.edge_lt h).2 hlt

theorem mem_sameLine_ofWiring {i : Nat} {n : Node} (hn : (ofWiring m w).nodes[i]? = some n) {j : Nat} :
    j ∈ n.sameLine ↔ j = i ∨ (i, j) ∈ w.code.twins := by
  obtain ⟨instr, flow, -, -, rfl⟩ := Wiring.getElem?_nodes (getElem?_ofWiring hn)
  simp [OrderedSet.mem_ofList]

theorem not_mem_dead_ofWiring {i t : Nat} (hi : i ∉ (ofWiring m w).dead)
    (ht : t ∈ (ofWiring m w).succs i) : t ∉ (ofWiring m w).dead := by
  refine not_mem_unreached (fun n hn hw u hu => ?_) hi ht
  obtain ⟨node, hnode, -⟩ := exists_of_mem_succs (g := ofWiring m w) hu
  have hlt := (Array.getElem?_eq_some_iff.1 hnode).1
  exact absurd (OrderedSet.mem_erase.2 ⟨NodeSet.mem_below.2 hlt, by simpa using hw⟩) hn

theorem wf_ofWiring (hw : w.Resolves) (hne : w.code.instructions ≠ []) : (ofWiring m w).Wf where
  pos := by
    rw [size_ofWiring hw]
    exact List.length_pos_iff.2 hne
  flow_lt := by
    intro i t n hn ht
    obtain ⟨instr, flow, -, hf, rfl⟩ := Wiring.getElem?_nodes (getElem?_ofWiring hn)
    obtain ⟨instr', -, hfl⟩ := hw.flow_eq_some hf
    rw [size_ofWiring hw]
    exact flowOf_lt hfl ht
  entry_lt := by
    intro i n hd hn hh
    obtain ⟨instr, flow, -, -, rfl⟩ := Wiring.getElem?_nodes (getElem?_ofWiring hn)
    obtain ⟨p, hp, -⟩ := Wiring.mem_handlersOf.1 ⟨hd, hh, rfl⟩
    rw [size_ofWiring hw]
    exact hw.entry_lt hp
  mem_succs := by
    intro i t n hn
    rw [← succs_eq hn, mem_succs_ofWiring hw, Wiring.edges, List.mem_append, Wiring.mem_flowEdges,
      Wiring.mem_handlerEdges]
    obtain ⟨instr, flow, hi, hf, rfl⟩ := Wiring.getElem?_nodes (getElem?_ofWiring hn)
    rw [Wiring.mem_handlersOf]
    simp [hi, hf]
  mem_preds := by
    intro i t
    rw [mem_preds_ofWiring hw, mem_succs_ofWiring hw]
  mem_sameLine := by
    intro i n hn
    exact (mem_sameLine_ofWiring hn).2 (.inl rfl)
  sameLine_lt := by
    intro i j n hn hj
    rw [size_ofWiring hw]
    rcases (mem_sameLine_ofWiring hn).1 hj with rfl | hj
    · rw [← @size_ofWiring m w hw]
      exact (Array.getElem?_eq_some_iff.1 hn).1
    · exact Code.twins_lt hj
  call := by
    intro i n long hn hj
    obtain ⟨instr, flow, hi, hf, rfl⟩ := Wiring.getElem?_nodes (getElem?_ofWiring hn)
    obtain ⟨instr', hi', hfl⟩ := hw.flow_eq_some hf
    rw [hi] at hi'
    cases hi'
    refine succ_mem_flowOf_jsr hfl ?_
    change instr.operation.flow = _
    rw [hj]
    rfl
  dead_lt := by
    intro i hi
    exact NodeSet.mem_below.1 (OrderedSet.mem_erase.1 (mem_of_mem_unreached hi)).1
  entry_live := by
    intro h
    exact (OrderedSet.mem_erase.1 (mem_of_mem_unreached h)).2 rfl
  dead_pred := by
    intro i t ht hi
    exact Classical.byContradiction fun hn => not_mem_dead_ofWiring hn hi ht

end Build

theorem wf_of_build {m : Method} {g : Graph} (h : build m = .ok g) : g.Wf := by
  obtain ⟨hd, w, hc, hr, rfl⟩ := build_eq_ok h
  refine wf_ofWiring hr ?_
  rw [hc]
  intro hi
  simp [Method.defect?, hi] at hd

theorem method_of_build {m : Method} {g : Graph} (h : build m = .ok g) : g.method = m := by
  obtain ⟨-, w, -, -, rfl⟩ := build_eq_ok h
  rfl

theorem instr_of_build {m : Method} {g : Graph} (h : build m = .ok g) {i : Nat} {n : Node}
    (hn : g.nodes[i]? = some n) : m.code.instructions[i]? = some n.instr := by
  obtain ⟨-, w, hc, -, rfl⟩ := build_eq_ok h
  obtain ⟨instr, flow, hi, -, rfl⟩ := Wiring.getElem?_nodes (getElem?_ofWiring hn)
  rw [← hc]
  exact hi

theorem op_of_sameLine {m : Method} {g : Graph} (h : build m = .ok g) {i j : Nat} {n n' : Node}
    (hn : g.nodes[i]? = some n) (hn' : g.nodes[j]? = some n') (hj : j ∈ n.sameLine) :
    n.instr.op = n'.instr.op := by
  have hi := instr_of_build h hn
  have hi' := instr_of_build h hn'
  obtain ⟨-, w, hc, -, rfl⟩ := build_eq_ok h
  rcases (mem_sameLine_ofWiring hn).1 hj with rfl | htwin
  · rw [hn] at hn'
    cases hn'
    rfl
  · obtain ⟨instr, instr', hinstr, hinstr', hop⟩ := Code.exists_of_twins htwin
    rw [hc, hi] at hinstr
    rw [hc, hi'] at hinstr'
    cases hinstr
    cases hinstr'
    exact hop

end Graph

end BytecodeFlow
