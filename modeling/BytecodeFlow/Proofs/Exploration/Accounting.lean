import BytecodeFlow.Proofs.Execution
import BytecodeFlow.Proofs.Exploration.Invariants
import Mathlib.Data.List.Perm.Subperm

/-!
The books of an exploration: covered and dead nodes are disjoint and live, so that comparing their
number with that of the live nodes tells whether any is left.
-/

namespace BytecodeFlow

theorem OrderedSet.eq_empty {s : NodeSet} (h : ∀ a, a ∉ s) : s = ∅ := by
  match s, h with
  | ⟨[], _⟩, _ => rfl
  | ⟨a :: _, _⟩, h => exact absurd List.mem_cons_self (h a)

/-- So many different numbers below `n` as there are leave none out. -/
theorem mem_of_length_le {xs : List Nat} {n : Nat} (hn : xs.Nodup) (hlt : ∀ x ∈ xs, x < n)
    (hlen : n ≤ xs.length) {i : Nat} (hi : i < n) : i ∈ xs := by
  have hsub : xs.Subperm (List.range n) := hn.subperm fun x hx => List.mem_range.2 (hlt x hx)
  have hperm := hsub.perm_of_length_le (by simpa using hlen)
  exact hperm.mem_iff.2 (List.mem_range.2 hi)

namespace Ledger

/-- Covered and dead nodes are nodes that are not dead by the edges, and no node is both. -/
structure Wf (g : Graph) (l : Ledger) : Prop where
  covered : ∀ i ∈ l.covered, i < g.size ∧ i ∉ g.dead
  dead : ∀ i ∈ l.dead, (i < g.size ∧ i ∉ g.dead) ∧ i ∉ l.covered

variable {g : Graph} {l : Ledger}

theorem wf_empty : ({} : Ledger).Wf g :=
  ⟨fun i hi => absurd hi (OrderedSet.not_mem_empty i),
    fun i hi => absurd hi (OrderedSet.not_mem_empty i)⟩

theorem Wf.knownDead_lt (hg : g.Wf) (hl : l.Wf g) : ∀ x ∈ l.knownDead g, x < g.size := by
  intro x hx
  rcases OrderedSet.mem_union.1 hx with hx | hx
  · exact hg.dead_lt hx
  · exact (hl.dead x hx).1.1

theorem Wf.cover (hg : g.Wf) (hl : l.Wf g) {i : Nat} {n : Node} (hn : g.nodes[i]? = some n) :
    (l.cover g n).Wf g where
  covered := by
    intro j hj
    rcases OrderedSet.mem_union.1 hj with hj | hj
    · exact hl.covered j hj
    · obtain ⟨hs, hd⟩ := OrderedSet.mem_diff.1 hj
      exact ⟨hg.sameLine_lt hn hs, hd⟩
  dead := by
    intro j hj
    obtain ⟨hj, hs⟩ := OrderedSet.mem_diff.1 hj
    obtain ⟨hlive, hc⟩ := hl.dead j hj
    refine ⟨hlive, fun h => ?_⟩
    rcases OrderedSet.mem_union.1 h with h | h
    · exact hc h
    · exact hs h

theorem Wf.addDead (hl : l.Wf g) {set : NodeSet} (hset : ∀ x ∈ set, x < g.size) :
    (l.addDead g set).Wf g where
  covered := hl.covered
  dead := by
    intro i hi
    rcases OrderedSet.mem_union.1 hi with hi | hi
    · exact hl.dead i hi
    · obtain ⟨hi, hc⟩ := OrderedSet.mem_diff.1 hi
      obtain ⟨hi, hd⟩ := OrderedSet.mem_diff.1 hi
      exact ⟨⟨hset i hi, hd⟩, hc⟩

theorem Wf.cut (hg : g.Wf) (hl : l.Wf g) {node : Nat} (hn : node < g.size) (cause : Int) :
    (l.cut g node cause).2.Wf g := by
  have hl' : ({ l with noContext := l.noContext.insert node } : Ledger).Wf g :=
    ⟨hl.covered, hl.dead⟩
  rw [Ledger.cut]
  split
  · refine hl'.addDead fun x hx => ?_
    exact hg.successorClosure_lt (hl.knownDead_lt hg) hn x (OrderedSet.mem_erase.1 hx).1
  · exact hl'

theorem Wf.prune (hg : g.Wf) (hl : l.Wf g) {unavailable : Nat} (hu : unavailable < g.size)
    (node : Nat) (cause : Int) : (l.prune g node unavailable cause).2.Wf g := by
  rw [Ledger.prune]
  split
  · refine hl.addDead ?_
    split
    · exact hg.successorClosure_lt (hl.knownDead_lt hg) hu
    · exact hl.knownDead_lt hg
  · exact hl

theorem Wf.settled (hg : g.Wf) (hl : l.Wf g) (h : g.size - g.dead.size ≤ l.accounted) {i : Nat}
    (hi : i < g.size) : i ∈ l.covered ∨ i ∈ l.knownDead g := by
  have hnodup : (g.dead.toList ++ (l.covered.toList ++ l.dead.toList)).Nodup := by
    refine List.nodup_append.2 ⟨g.dead.nodup, List.nodup_append.2 ⟨l.covered.nodup, l.dead.nodup, ?_⟩, ?_⟩
    · rintro a ha _ hb rfl
      exact (hl.dead a hb).2 ha
    · rintro a ha _ hb rfl
      rcases List.mem_append.1 hb with hb | hb
      · exact (hl.covered a hb).2 ha
      · exact (hl.dead a hb).1.2 ha
  have hlt : ∀ x ∈ g.dead.toList ++ (l.covered.toList ++ l.dead.toList), x < g.size := by
    intro x hx
    rcases List.mem_append.1 hx with hx | hx
    · exact hg.dead_lt hx
    · rcases List.mem_append.1 hx with hx | hx
      · exact (hl.covered x hx).1
      · exact (hl.dead x hx).1.1
  have hlen : g.size ≤ (g.dead.toList ++ (l.covered.toList ++ l.dead.toList)).length := by
    simp only [accounted, OrderedSet.size, List.length_append] at h ⊢
    omega
  rcases List.mem_append.1 (mem_of_length_le hnodup hlt hlen hi) with hd | hd
  · exact .inr (OrderedSet.mem_union.2 (.inl hd))
  · rcases List.mem_append.1 hd with hd | hd
    · exact .inl hd
    · exact .inr (OrderedSet.mem_union.2 (.inr hd))

/-- Once a ledger is closed off, a node that is not settled was reached with a null receiver only. -/
theorem settled_closeOff {i : Nat} (hi : i < g.size) :
    i ∈ l.covered ∨ i ∈ (l.closeOff g).knownDead g ∨ i ∈ l.noContext := by
  by_cases hc : i ∈ l.covered
  · exact .inl hc
  by_cases hn : i ∈ l.noContext
  · exact .inr (.inr hn)
  refine .inr (.inl ?_)
  by_cases hg : i ∈ g.dead
  · exact OrderedSet.mem_union.2 (.inl hg)
  by_cases hd : i ∈ l.dead
  · exact OrderedSet.mem_union.2 (.inr (OrderedSet.mem_union.2 (.inl hd)))
  have hu : i ∈ l.unaccounted g :=
    OrderedSet.mem_diff.2 ⟨OrderedSet.mem_diff.2 ⟨OrderedSet.mem_diff.2
      ⟨NodeSet.mem_below.2 hi, hg⟩, hc⟩, hd⟩
  exact OrderedSet.mem_union.2 (.inr (OrderedSet.mem_union.2 (.inr (OrderedSet.mem_diff.2 ⟨hu, hn⟩))))

end Ledger

namespace Exploration

theorem kept_wf {s : Setting σ} (hg : s.graph.Wf) : Kept s fun p => p.ledger.Wf s.graph where
  step := by
    intro n path p q out hn h hp
    have advanced {p q : Progress σ} (h : Advanced s n path p out q) (hp : p.ledger.Wf s.graph) :
        q.ledger.Wf s.graph := by
      cases h with
      | all _ _ => exact hp
      | decided hs _ => exact hp.prune hg (hg.flow_lt hn (successors_eq_decided hs).2.2) _ _
    have hlt : path.node < s.graph.size := (Array.getElem?_eq_some_iff.1 hn).1
    cases h with
    | again _ ha => exact advanced ha hp
    | null _ _ => exact hp.cut hg hlt _
    | refused _ _ _ => exact hp.cut hg hlt _
    | shown _ _ _ ha => exact advanced ha (hp.cover hg hn)
  stats := fun _ hp => hp
  note := fun _ hp => hp

theorem mem_result {g : Graph} {l : Ledger} {stats : Stats} {i : Nat}
    (h : i ∈ l.covered ∨ i ∈ l.knownDead g ∨ i ∈ l.noContext) :
    i ∈ (result g l stats).covered ∨ i ∈ (result g l stats).noContext ∨
      i ∈ (result g l stats).dead := by
  by_cases hc : i ∈ l.covered
  · exact .inl hc
  by_cases hn : i ∈ l.noContext
  · exact .inr (.inl (OrderedSet.mem_diff.2 ⟨hn, hc⟩))
  have hd : i ∈ l.knownDead g := (h.resolve_left hc).resolve_right hn
  exact .inr (.inr (OrderedSet.mem_diff.2 ⟨hd, fun h => hn (OrderedSet.mem_diff.1 h).1⟩))

theorem notCovered_eq_empty {g : Graph} {l : Ledger} {stats : Stats}
    (h : ∀ i < g.size, i ∈ (result g l stats).covered ∨ i ∈ (result g l stats).noContext ∨
      i ∈ (result g l stats).dead) : (result g l stats).notCovered = ∅ := by
  refine OrderedSet.eq_empty fun i hi => ?_
  obtain ⟨hi, hn⟩ := OrderedSet.mem_diff.1 hi
  obtain ⟨hi, hd⟩ := OrderedSet.mem_diff.1 hi
  obtain ⟨hi, hc⟩ := OrderedSet.mem_diff.1 hi
  rcases h i (NodeSet.mem_below.1 hi) with h | h | h
  · exact hc h
  · exact hn h
  · exact hd h

theorem explore_eq_ok {o : Options} {g : Graph} {v : Visitor σ} {init : σ} {r : Result}
    {p : Progress σ} (h : o.explore g v init = (.ok r, p)) :
    ∃ start, g.method.startFrame = .ok start ∧
      Course ⟨g, v, o.declaredLocals⟩ o start ⟨{}, {}, init, []⟩ p ∧
      r = result g p.ledger p.stats := by
  rw [Options.explore] at h
  cases he : explore ⟨g, v, o.declaredLocals⟩ o ⟨{}, {}, init, []⟩ with
  | error e q => simp [he] at h
  | ok r' q =>
    simp only [he, Prod.mk.injEq, Except.ok.injEq] at h
    obtain ⟨rfl, rfl⟩ := h
    exact course_of_explore he

/-- An exploration that was not cut off leaves no node open: each is covered, reached with a null
receiver only, or dead. -/
theorem explore_accounts_for_all {m : Method} {g : Graph} {o : Options} {v : Visitor σ} {init : σ}
    {r : Result} {p : Progress σ} (hb : Graph.build m = .ok g)
    (h : o.explore g v init = (.ok r, p)) (hc : r.stats.cutOff = false) :
    r.notCovered = ∅ ∧ ∀ i < g.size, i ∈ r.covered ∨ i ∈ r.noContext ∨ i ∈ r.dead := by
  have hg := Graph.wf_of_build hb
  obtain ⟨start, -, hcourse, rfl⟩ := explore_eq_ok h
  suffices hall : ∀ i < g.size, i ∈ p.ledger.covered ∨ i ∈ p.ledger.knownDead g ∨
      i ∈ p.ledger.noContext by
    have := fun i hi => @mem_result g p.ledger p.stats i (hall i hi)
    exact ⟨notCovered_eq_empty this, this⟩
  intro i hi
  rcases (kept_wf hg).course hcourse Ledger.wf_empty with
    ⟨hw, hf | hf⟩ | ⟨turns, q, q', -, -, rfl, hl, -⟩
  · exact (hw.settled hg (of_decide_eq_true hf) hi).imp_right .inl
  · have hf' : p.stats.cutOff = false := hc
    rw [hf] at hf'
    cases hf'
  · rw [hl]
    exact @Ledger.settled_closeOff g q'.ledger i hi

/-- A test of the null constant, which always jumps over the node that follows. -/
def nullTest : Method where
  className := "a/B"
  name := "m"
  descriptor := "()V"
  static := true
  code := {
    instructions := [{ offset := 0, op := ⟨1⟩ }, { offset := 1, op := ⟨198⟩, target := 5 },
      { offset := 4, op := ⟨177⟩ }, { offset := 5, op := ⟨177⟩ }] }

theorem explore_accounts_for_all_nullTest :
    ∃ g r p, Graph.build nullTest = .ok g ∧
      ({} : Options).explore g (.accepting false) () = (.ok r, p) ∧ r.stats.cutOff = false ∧
      r.dead.toList = [2] ∧ r.notCovered = ∅ := by
  have h : (nullTest.trial? {} []).any fun t =>
      !t.result.stats.cutOff && t.result.dead.toList == [2] := by decide +kernel
  obtain ⟨t, ht, h⟩ := (Option.any_eq_true _ _).1 h
  simp only [Bool.and_eq_true, Bool.not_eq_true', beq_iff_eq] at h
  obtain ⟨hb, ⟨p, hx⟩, -⟩ := Method.trial?_eq_some ht
  exact ⟨_, _, p, hb, hx, h.1, h.2, (explore_accounts_for_all hb hx h.1).1⟩

end Exploration

end BytecodeFlow
