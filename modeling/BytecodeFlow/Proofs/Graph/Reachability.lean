import BytecodeFlow.Proofs.Graph.WellFormed
import Mathlib.Logic.Relation
import Mathlib.Order.Bounds.Basic

namespace BytecodeFlow

/-- What the worklist has, and edges pass on, holds of all that the search takes out. -/
theorem of_not_mem_unreached {next : Nat → List Nat} {P : Nat → Prop}
    (step : ∀ {n t}, P n → t ∈ next n → P t) {outside : NodeSet} {work : List Nat}
    (hwork : ∀ n ∈ work, P n) {i : Nat} (hi : i ∈ outside) (h : i ∉ unreached next outside work) :
    P i := by
  fun_induction unreached next outside work with
  | case1 outside => exact absurd hi h
  | case2 outside n work found ih =>
    have hn := hwork n List.mem_cons_self
    by_cases hc : i ∈ next n
    · exact step hn hc
    · refine ih (fun k hk => ?_) (OrderedSet.mem_filter.2 ⟨hi, by simpa using hc⟩) h
      rcases List.mem_append.1 hk with hk | hk
      · exact step hn (List.contains_iff_mem.1 (OrderedSet.mem_filter.1 hk).2)
      · exact hwork k (List.mem_cons_of_mem _ hk)

namespace Graph

/-- A walk along the edges, those to handlers among them. -/
def Walk (g : Graph) : Nat → Nat → Prop := Relation.ReflTransGen fun i t => t ∈ g.succs i

theorem Wf.live_succ {g : Graph} (hg : g.Wf) {i t : Nat} (hi : i ∉ g.dead) (ht : t ∈ g.succs i) :
    t ∉ g.dead :=
  fun hd => hi (hg.dead_pred hd ht)

/-- A set of nodes without the entry, with all predecessors of its nodes. -/
structure PredClosed (g : Graph) (S : Set Nat) : Prop where
  lt : ∀ i ∈ S, i < g.size
  entry : 0 ∉ S
  preds : ∀ i ∈ S, ∀ p ∈ g.preds i, p ∈ S

theorem Wf.predClosed_dead {g : Graph} (hg : g.Wf) : g.PredClosed {i | i ∈ g.dead} where
  lt _ := hg.dead_lt
  entry := hg.entry_live
  preds _ hi _ hp := hg.dead_pred hi (hg.mem_preds.1 hp)

theorem PredClosed.not_mem_of_walk {g : Graph} {S : Set Nat} (hS : g.PredClosed S) (hg : g.Wf) {i : Nat}
    (h : g.Walk 0 i) : i ∉ S := by
  induction h with
  | refl => exact hS.entry
  | tail _ ht ih => exact fun hi => ih (hS.preds _ hi _ (hg.mem_preds.2 ht))

theorem mem_dead_iff {m : Method} {g : Graph} (hb : build m = .ok g) {i : Nat} (hi : i < g.size) :
    i ∈ g.dead ↔ ¬ g.Walk 0 i := by
  have hg := wf_of_build hb
  obtain ⟨-, w, -, -, rfl⟩ := build_eq_ok hb
  constructor
  · intro hd hw
    exact hg.predClosed_dead.not_mem_of_walk hg hw hd
  · intro hw
    refine Classical.byContradiction fun hd => ?_
    have hne : i ≠ 0 := by
      rintro rfl
      exact hw .refl
    refine hw (of_not_mem_unreached (P := (ofWiring m w).Walk 0) (fun hn ht => hn.tail ht) ?_
      (OrderedSet.mem_erase.2 ⟨NodeSet.mem_below.2 hi, hne⟩) hd)
    intro n hn
    obtain rfl := List.mem_singleton.1 hn
    exact .refl

/-- The dead nodes are those that no walk from the entry leads to, and the greatest set that is closed
under predecessors and does not have the entry. -/
theorem dead_greatest_unwalked {m : Method} {g : Graph} (hb : build m = .ok g) :
    (∀ i, i ∈ g.dead ↔ i < g.size ∧ ¬ g.Walk 0 i) ∧
    IsGreatest {S | g.PredClosed S} {i | i ∈ g.dead} := by
  have hg := wf_of_build hb
  refine ⟨fun i => ⟨fun hi => ?_, fun ⟨hlt, hw⟩ => (mem_dead_iff hb hlt).2 hw⟩, ?_⟩
  · have hlt := hg.dead_lt hi
    exact ⟨hlt, (mem_dead_iff hb hlt).1 hi⟩
  · refine ⟨hg.predClosed_dead, fun S hS i hi => ?_⟩
    exact (mem_dead_iff hb (hS.lt i hi)).2 fun hw => hS.not_mem_of_walk hg hw hi

/-- Dead code around a live node: one instruction before it, a loop after it, and the handler of the
loop. -/
def deserted : Method where
  className := "a/B"
  name := "m"
  descriptor := "()V"
  static := true
  code := {
    instructions := [{ offset := 0, op := ⟨167⟩, target := 4 }, { offset := 3, op := ⟨0⟩ },
      { offset := 4, op := ⟨177⟩ }, { offset := 5, op := ⟨0⟩ },
      { offset := 6, op := ⟨167⟩, target := 5 }, { offset := 9, op := ⟨191⟩ }]
    handlers := [⟨5, 9, 9, ""⟩] }

theorem dead_greatest_unwalked_deserted : ∃ g, build deserted = .ok g ∧ g.dead.toList = [1, 3, 4, 5] ∧
    ¬ g.Walk 0 4 ∧ g.Walk 0 2 ∧ IsGreatest {S | g.PredClosed S} {i | i ∈ g.dead} := by
  have h : (build deserted).toOption.any fun g => g.size == 6 && g.dead.toList == [1, 3, 4, 5] := by
    decide +kernel
  obtain ⟨g, hb, h⟩ := (Option.any_eq_true _ _).1 h
  simp only [Bool.and_eq_true, beq_iff_eq] at h
  obtain ⟨hsize, hdead⟩ := h
  obtain ⟨hwalk, hgreatest⟩ := dead_greatest_unwalked (toOption_eq_some.1 hb)
  have hmem (i : Nat) : i ∈ g.dead ↔ i ∈ [1, 3, 4, 5] := by rw [OrderedSet.mem_def, hdead]
  refine ⟨g, toOption_eq_some.1 hb, hdead, ((hwalk 4).1 ((hmem 4).2 (by decide))).2, ?_, hgreatest⟩
  have hlive := mt (hwalk 2).2 (mt (hmem 2).1 (by decide))
  exact Classical.not_not.1 fun hw => hlive ⟨by omega, hw⟩

end Graph

end BytecodeFlow
