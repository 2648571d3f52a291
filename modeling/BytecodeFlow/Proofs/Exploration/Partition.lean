import BytecodeFlow.Proofs.Exploration.Accounting
import BytecodeFlow.Proofs.Exploration.Paths

namespace BytecodeFlow

namespace Ledger

variable {g : Graph} {l : Ledger}

theorem Wf.closeOff (hl : l.Wf g) : (l.closeOff g).Wf g where
  covered := hl.covered
  dead := by
    intro i hi
    rcases OrderedSet.mem_union.1 hi with hi | hi
    · exact hl.dead i hi
    · have hu := (OrderedSet.mem_diff.1 hi).1
      simp only [unaccounted, OrderedSet.mem_diff, NodeSet.mem_below] at hu
      exact ⟨hu.1.1, hu.1.2⟩

/-- Nodes without context are live as well. -/
structure Sound (g : Graph) (l : Ledger) : Prop extends l.Wf g where
  noContext : ∀ i ∈ l.noContext, i < g.size ∧ i ∉ g.dead

theorem Sound.cover (hg : g.Wf) (hl : l.Sound g) {i : Nat} {n : Node} (hn : g.nodes[i]? = some n) :
    (l.cover g n).Sound g :=
  ⟨hl.toWf.cover hg hn, fun j hj => hl.noContext j (OrderedSet.mem_diff.1 hj).1⟩

theorem Sound.cut (hg : g.Wf) (hl : l.Sound g) {node : Nat} (hn : node < g.size ∧ node ∉ g.dead)
    (cause : Int) : (l.cut g node cause).2.Sound g := by
  refine ⟨hl.toWf.cut hg hn.1 cause, fun j hj => ?_⟩
  have hj' : j ∈ l.noContext.insert node := by
    rw [Ledger.cut] at hj
    split at hj <;> exact hj
  rcases OrderedSet.mem_insert.1 hj' with hj | rfl
  · exact hl.noContext j hj
  · exact hn

theorem Sound.prune (hg : g.Wf) (hl : l.Sound g) {unavailable : Nat} (hu : unavailable < g.size)
    (node : Nat) (cause : Int) : (l.prune g node unavailable cause).2.Sound g := by
  refine ⟨hl.toWf.prune hg hu node cause, fun j hj => hl.noContext j ?_⟩
  rw [Ledger.prune] at hj
  split at hj <;> exact hj

end Ledger

namespace Exploration

theorem steady_sound {s : Setting σ} {start : Frame} (hg : s.graph.Wf)
    (hsize : s.graph.size ≤ 0x8000000000000000) (hs : s.method.startFrame = .ok start) :
    Steady s start fun p => p.ledger.Sound s.graph where
  step := by
    intro n path p q out hn ha h hp
    have advanced {p q : Progress σ} (h : Advanced s n path p out q) (hp : p.ledger.Sound s.graph) :
        q.ledger.Sound s.graph := by
      cases h with
      | all _ _ => exact hp
      | decided hs _ => exact hp.prune hg (hg.flow_lt hn (successors_eq_decided hs).2.2) _ _
    cases h with
    | again _ ha => exact advanced ha hp
    | null _ _ | refused _ _ _ => exact hp.cut hg (ha.live hg hsize hs).node _
    | shown _ _ _ ha => exact advanced ha (hp.cover hg hn)
  failure := by
    intro n path p q hn _ h hp
    cases h with
    | idle => exact hp
    | declined _ _ _ => exact hp
    | shown _ _ _ => exact hp.cover hg hn
  stats _ hp := hp
  note _ hp := hp
  closeOff hp := ⟨hp.toWf.closeOff, hp.noContext⟩

/-- The sets into which a result sorts the nodes. -/
def Result.parts (r : Result) : List NodeSet := [r.covered, r.noContext, r.dead, r.notCovered]

section

variable {g : Graph} {l : Ledger}

theorem parts_disjoint (hl : l.Sound g) (stats : Stats) :
    (result g l stats).parts.Pairwise fun a b => ∀ i ∈ a, i ∉ b := by
  have hcd : ∀ i ∈ l.covered, i ∉ l.knownDead g := by
    intro i hc hd
    rcases OrderedSet.mem_union.1 hd with hd | hd
    · exact (hl.covered i hc).2 hd
    · exact (hl.dead i hd).2 hc
  simp only [Result.parts, result, List.pairwise_cons, List.forall_mem_cons, OrderedSet.mem_diff]
  refine ⟨⟨?_, ?_, ?_, by simp⟩, ⟨?_, ?_, by simp⟩, ⟨?_, by simp⟩, by simp⟩
  · intro i hc hn
    exact hn.2 hc
  · intro i hc hd
    exact hcd i hc hd.1
  · intro i hc hn
    exact hn.1.1.2 hc
  · intro i hn hd
    exact hd.2 hn
  · intro i hn ho
    exact ho.2 hn
  · intro i hd ho
    exact ho.1.2 hd

theorem mem_parts_iff (hg : g.Wf) (hl : l.Sound g) (stats : Stats) (i : Nat) :
    (∃ part ∈ (result g l stats).parts, i ∈ part) ↔ i < g.size := by
  simp only [Result.parts, result, List.exists_mem_cons_iff, OrderedSet.mem_diff, NodeSet.mem_below]
  constructor
  · rintro (hc | ⟨hn, -⟩ | ⟨hd, -⟩ | ⟨⟨⟨hi, -⟩, -⟩, -⟩ | ⟨_, h, -⟩)
    · exact (hl.covered i hc).1
    · exact (hl.noContext i hn).1
    · exact hl.toWf.knownDead_lt hg i hd
    · exact hi
    · cases h
  · intro hi
    by_cases hc : i ∈ l.covered
    · exact .inl hc
    by_cases hn : i ∈ l.noContext
    · exact .inr (.inl ⟨hn, hc⟩)
    by_cases hd : i ∈ l.knownDead g
    · exact .inr (.inr (.inl ⟨hd, fun h => hn h.1⟩))
    · exact .inr (.inr (.inr (.inl ⟨⟨⟨hi, hc⟩, fun h => hd h.1⟩, fun h => hn h.1⟩)))

end

/-- A result sorts every node into one of its sets, and no node into two. The nodes that no walk leads
to are among the dead ones. -/
theorem result_partition {m : Method} {g : Graph} {o : Options} {v : Visitor σ} {init : σ} {r : Result}
    {p : Progress σ} (hb : Graph.build m = .ok g) (hsize : g.size ≤ 0x8000000000000000)
    (h : o.explore g v init = (.ok r, p)) :
    r.parts.Pairwise (fun a b => ∀ i ∈ a, i ∉ b) ∧
      (∀ i, (∃ part ∈ r.parts, i ∈ part) ↔ i < g.size) ∧
      ∀ i < g.size, ¬ g.Walk 0 i → i ∈ r.dead := by
  have hg := Graph.wf_of_build hb
  have hl : p.ledger.Sound g := by
    have hl := steady_explore (fun start hs => steady_sound hg hsize hs)
      (explore_leaves o g v init)
      ⟨Ledger.wf_empty, fun i hi => absurd hi (OrderedSet.not_mem_empty i)⟩
    rwa [h] at hl
  obtain ⟨-, -, -, rfl⟩ := explore_eq_ok h
  refine ⟨parts_disjoint hl _, mem_parts_iff hg hl _, fun i hi hw => ?_⟩
  have hd := (Graph.mem_dead_iff hb hi).2 hw
  refine OrderedSet.mem_diff.2 ⟨OrderedSet.mem_union.2 (.inl hd), fun hn => ?_⟩
  exact (hl.noContext i (OrderedSet.mem_diff.1 hn).1).2 hd

/-- A call on null in a block whose handler has two tests, with a node behind the last return. -/
def cutShort : Method where
  className := "a/B"
  name := "m"
  descriptor := "(I)V"
  static := true
  code := {
    instructions := [
      { offset := 0, op := ⟨178⟩, member := some ⟨"a/B", "f", "I"⟩ }, { offset := 3, op := ⟨87⟩ },
      { offset := 4, op := ⟨1⟩ },
      { offset := 5, op := ⟨182⟩, member := some ⟨"java/lang/Object", "notify", "()V"⟩ },
      { offset := 8, op := ⟨177⟩ }, { offset := 9, op := ⟨87⟩ }, { offset := 10, op := ⟨26⟩ },
      { offset := 11, op := ⟨154⟩, target := 19 }, { offset := 14, op := ⟨26⟩ },
      { offset := 15, op := ⟨154⟩, target := 19 }, { offset := 18, op := ⟨177⟩ },
      { offset := 19, op := ⟨177⟩ }, { offset := 20, op := ⟨177⟩ }]
    handlers := [⟨0, 8, 9, ""⟩]
    maxLocals := 1 }

theorem result_partition_cutShort : ∃ g r p, Graph.build cutShort = .ok g ∧
    ({ cutoff := 2, exhaustive := true } : Options).explore g (.accepting false) () = (.ok r, p) ∧
    r.stats.cutOff = true ∧ (∀ part ∈ r.parts, part.isEmpty = false) ∧
    r.parts.Pairwise (fun a b => ∀ i ∈ a, i ∉ b) ∧
      (∀ i, (∃ part ∈ r.parts, i ∈ part) ↔ i < g.size) ∧
      ∀ i < g.size, ¬ g.Walk 0 i → i ∈ r.dead := by
  have h : (cutShort.trial? { cutoff := 2, exhaustive := true } []).any fun t =>
      decide (t.graph.size ≤ 0x8000000000000000) && t.result.stats.cutOff &&
        t.result.parts.all fun part => !part.isEmpty := by
    decide +kernel
  obtain ⟨t, ht, h⟩ := (Option.any_eq_true _ _).1 h
  simp only [Bool.and_eq_true, decide_eq_true_eq, List.all_eq_true, Bool.not_eq_true'] at h
  obtain ⟨⟨hsize, hcut⟩, hparts⟩ := h
  obtain ⟨hb, ⟨p, hx⟩, -⟩ := Method.trial?_eq_some ht
  exact ⟨_, _, p, hb, hx, hcut, hparts, result_partition hb hsize hx⟩

end Exploration

end BytecodeFlow
