import BytecodeFlow.Analysis
import BytecodeFlow.Proofs.Exploration.Accounting
import BytecodeFlow.Proofs.Exploration.Calls
import BytecodeFlow.Proofs.Graph.SameLine

/-!
What a report tells of the members that covered instructions name. A node is covered as soon as one of
its copies on the same line is shown, and copies are told by their opcodes alone: the member that is
recorded is that of the copy.
-/

namespace BytecodeFlow

namespace Dependency

theorem exists_of_ofSite? {site : Site} {f : Frame} {found : Option Dependency}
    (h : ofSite? site f = .ok found) {member : Member} (hm : memberOf site.instr = some member)
    (ho : member.owner ≠ "") :
    ∃ d, found = some d ∧ d.node = site.index ∧ d.op = site.instr.op ∧ d.member = some member := by
  simp only [ofSite?, bind_eq_ok, pure_eq_ok] at h
  obtain ⟨receiver, -, rfl⟩ := h
  have hc : classOf site.instr ≠ "" := by
    rw [classOf, hm]
    exact ho
  exact ⟨_, if_neg fun hempty => hc hempty.1, rfl, rfl, hm⟩

theorem mem_sorted {found : List Dependency} (h : ∀ d ∈ found, 0 ≤ d.node) {d : Dependency} :
    d ∈ sorted found ↔ d ∈ found := by
  rw [sorted_eq h, List.mem_mergeSort]

end Dependency

namespace Exploration

/-- What holds of covered nodes and dependencies that were collected: each node has a copy that was
shown, and what that depends on was recorded. -/
structure Recorded (g : Graph) (covered : NodeSet) (found : List Dependency) : Prop where
  node : ∀ d ∈ found, 0 ≤ d.node
  shown : ∀ i ∈ covered, ∃ (j : Nat) (n : Node) (f : Frame) (d? : Option Dependency),
    g.nodes[j]? = some n ∧ i ∈ n.sameLine ∧
      Dependency.ofSite? ⟨j, n.instr, n.line⟩ f = .ok d? ∧ ∀ d ∈ d?, d ∈ found

theorem steady_recorded (g : Graph) (o : Options) (stop : Bool) (start : Frame) :
    Steady ⟨g, .collector stop, o.declaredLocals⟩ start
      fun p => Recorded g p.ledger.covered p.seen := by
  apply steady_of_asked (J := Recorded g)
  intro n path covered covered' found found' hn _ h hp
  cases h with
  | unasked => exact hp
  | declined _ _ hv =>
    rw [Visitor.visit_collector_error hv]
    exact hp
  | accepted _ _ hv =>
    obtain ⟨d?, hd, rfl⟩ := Visitor.visit_collector_ok hv
    constructor
    · intro d hmem
      rcases List.mem_append.1 hmem with hmem | hmem
      · exact hp.node d hmem
      · rw [Option.mem_toList] at hmem
        cases hmem
        rw [Dependency.node_of_ofSite? hd]
        exact Int.natCast_nonneg _
    · intro i hi
      rcases OrderedSet.mem_union.1 hi with hi | hi
      · obtain ⟨j, n', f, d?', hn', hline, hd', hfound⟩ := hp.shown i hi
        exact ⟨j, n', f, d?', hn', hline, hd', fun d hmem => List.mem_append_left _ (hfound d hmem)⟩
      · refine ⟨path.node, n, path.frame, d?, hn, (OrderedSet.mem_diff.1 hi).1, hd, fun d hmem => ?_⟩
        exact List.mem_append_right _ (Option.mem_toList.2 hmem)

end Exploration

namespace Analysis

open Exploration

theorem method_of_explore {o : Options} {v : Visitor σ} {init : σ} {m : Method} {g : Graph}
    {r : Result} {p : Progress σ} (hb : Graph.build m = .ok g)
    (hx : o.explore g v init = (.ok r, p)) :
    (method o v init m).report = .ok (reportOf g r (v.dependencies p.seen)) := by
  simp only [method, hb, hx]

theorem method_eq_ok {o : Options} {v : Visitor σ} {init : σ} {m : Method} {report : Report}
    (h : (method o v init m).report = .ok report) :
    ∃ g r p, Graph.build m = .ok g ∧ o.explore g v init = (.ok r, p) ∧
      report = reportOf g r (v.dependencies p.seen) := by
  cases hb : Graph.build m with
  | error e => simp [method, hb] at h
  | ok g =>
    cases hx : o.explore g v init with
    | mk result p =>
      cases result with
      | ok r =>
        rw [method_of_explore hb hx] at h
        cases h
        exact ⟨g, r, p, rfl, hx, rfl⟩
      | error e =>
        simp only [method, hb, hx] at h
        split at h
        next heq => cases heq
        next => cases h
        next => split at h <;> cases h

/-- Each covered node that names a member has a copy on its line, with the same opcode, whose own member
is reported if that has an owner. So a member with an owner is reported if all copies of the node name
it. -/
theorem covered_member_reported {o : Options} {stop : Bool} {m : Method} {report : Report}
    (h : (method o (.collector stop) [] m).report = .ok report) :
    ∃ g r p, Graph.build m = .ok g ∧ o.explore g (.collector stop) [] = (.ok r, p) ∧
      ∀ i ∈ r.covered, ∀ n member, g.nodes[i]? = some n → n.instr.member = some member →
        n.instr.operation ≠ .invoke .dynamic →
        (∃ (j : Nat) (n' : Node), g.nodes[j]? = some n' ∧ i ∈ n'.sameLine ∧
          n'.instr.op = n.instr.op ∧
          ∀ member', n'.instr.member = some member' → member'.owner ≠ "" →
            ∃ d ∈ report.dependencies,
              d.node = j ∧ d.op = n.instr.op ∧ d.member = some member') ∧
        (member.owner ≠ "" → (∀ n' ∈ g.nodes, i ∈ n'.sameLine → n'.instr.member = some member) →
          ∃ d ∈ report.dependencies, d.op = n.instr.op ∧ d.member = some member) := by
  obtain ⟨g, r, p, hb, hx, rfl⟩ := method_eq_ok h
  refine ⟨g, r, p, hb, hx, fun i hi n member hn hm hdyn => ?_⟩
  have hrec := steady_explore (fun start _ => steady_recorded g o stop start)
    (explore_leaves o g _ []) ⟨by simp, fun i hi => absurd hi (OrderedSet.not_mem_empty i)⟩
  rw [hx] at hrec
  obtain ⟨-, -, -, rfl⟩ := explore_eq_ok hx
  obtain ⟨j, n', f, d?, hn', hline, hd, hfound⟩ := hrec.shown i hi
  have hop := Graph.op_of_sameLine hb hn' hn hline
  have reported {member' : Member} (hm' : n'.instr.member = some member') (ho : member'.owner ≠ "") :
      ∃ d ∈ Dependency.sorted p.seen,
        d.node = j ∧ d.op = n.instr.op ∧ d.member = some member' := by
    have hof : Dependency.memberOf n'.instr = some member' := by
      rw [Instruction.operation, ← hop] at hdyn
      exact (if_neg hdyn).trans hm'
    obtain ⟨d, rfl, hnode, hdop, hdm⟩ := Dependency.exists_of_ofSite? hd hof ho
    exact ⟨d, (Dependency.mem_sorted hrec.node).2 (hfound d rfl), hnode, hdop.trans hop, hdm⟩
  refine ⟨⟨j, n', hn', hline, hop, fun member' => reported⟩, fun ho hall => ?_⟩
  obtain ⟨d, hmem, -, hdop, hdm⟩ := reported (hall n' (Array.mem_of_getElem? hn') hline) ho
  exact ⟨d, hmem, hdop, hdm⟩

/-- Two calls, with something else between them. -/
def twoCalls (first second : Member) (lines : List LineEntry) : Method where
  className := "a/B"
  name := "m"
  descriptor := "()V"
  static := true
  code := {
    instructions := [{ offset := 0, op := ⟨184⟩, member := some first }, { offset := 3, op := ⟨0⟩ },
      { offset := 4, op := ⟨184⟩, member := some second }, { offset := 7, op := ⟨177⟩ }]
    lines }

/-- Both calls on line 7. -/
def onOneLine : List LineEntry := [⟨0, 7⟩, ⟨3, 8⟩, ⟨4, 7⟩, ⟨7, 9⟩]

theorem twins_onOneLine (first second : Member) :
    (twoCalls first second onOneLine).code.twins = [(0, 2), (2, 0)] := by
  have hc : (onOneLine.map LineEntry.start).Nodup := by decide
  have hs : (twoCalls first second onOneLine).code.sortedLines = onOneLine :=
    Code.sortedLines_eq hc (.refl _) (by decide)
  rw [Code.twins, hs]
  rfl

theorem covered_member_reported_once :
    ∃ g r p report, Graph.build (twoCalls ⟨"a/B", "f", "()V"⟩ ⟨"a/B", "f", "()V"⟩ onOneLine) = .ok g ∧
      ({} : Options).explore g (.collector false) [] = (.ok r, p) ∧
      (method {} (.collector false) []
        (twoCalls ⟨"a/B", "f", "()V"⟩ ⟨"a/B", "f", "()V"⟩ onOneLine)).report = .ok report ∧
      p.seen.length = 1 ∧ 2 ∈ r.covered ∧
      ∃ d ∈ report.dependencies, d.op = ⟨184⟩ ∧ d.member = some ⟨"a/B", "f", "()V"⟩ := by
  have h : (Graph.build (twoCalls ⟨"a/B", "f", "()V"⟩ ⟨"a/B", "f", "()V"⟩ onOneLine)).toOption.any
      fun g => (({} : Options).explore g (.collector false) []).1.toOption.any (·.covered.contains 2) &&
        (({} : Options).explore g (.collector false) []).2.seen.length == 1 &&
        g.nodes[2]?.isSome && g.nodes.all fun n => !n.sameLine.contains 2 ||
          n.instr.op == ⟨184⟩ && n.instr.member == some ⟨"a/B", "f", "()V"⟩ := by
    rw [Graph.build_of_twins (twins_onOneLine _ _) (by decide +kernel)]
    decide +kernel
  obtain ⟨g, hb, h⟩ := (Option.any_eq_true _ _).1 h
  simp only [Bool.and_eq_true, Option.any_eq_true, toOption_eq_some, OrderedSet.contains_iff,
    beq_iff_eq, Option.isSome_iff_exists, Array.all_eq_true', Bool.or_eq_true, Bool.not_eq_true'] at h
  obtain ⟨⟨⟨⟨r, hr, hcov⟩, hlen⟩, n, hn⟩, hall⟩ := h
  have hb := toOption_eq_some.1 hb
  have hx : ({} : Options).explore g (.collector false) [] = (.ok r, _) := Prod.ext hr rfl
  have hreport := method_of_explore hb hx
  have copies : ∀ n' ∈ g.nodes, 2 ∈ n'.sameLine →
      n'.instr.op = ⟨184⟩ ∧ n'.instr.member = some ⟨"a/B", "f", "()V"⟩ := by
    intro n' hn' hline
    refine (hall n' hn').resolve_left fun hno => ?_
    rw [OrderedSet.contains_iff.2 hline] at hno
    cases hno
  have hself := (Graph.wf_of_build hb).mem_sameLine hn
  obtain ⟨hop, hm⟩ := copies n (Array.mem_of_getElem? hn) hself
  have hdyn : n.instr.operation ≠ .invoke .dynamic := by
    rw [Instruction.operation, hop]
    decide
  obtain ⟨_, _, _, hb', hx', hmem⟩ := covered_member_reported hreport
  cases hb.symm.trans hb'
  cases hx.symm.trans hx'
  obtain ⟨d, hd, hdop, hdm⟩ := (hmem 2 hcov n _ hn hm hdyn).2 (by decide)
    fun n' hn' hline => (copies n' hn' hline).2
  exact ⟨g, r, _, _, hb, hx, hreport, hlen, hcov, d, hd, hdop.trans hop, hdm⟩

/-- The second call is covered, but what it names is not reported. -/
def loses (second : Member) (g : Graph) : Bool :=
  (({} : Options).explore g (.collector false) []).1.toOption.any (·.covered.contains 2) &&
    g.nodes[2]?.any (fun n => n.instr.op == ⟨184⟩ && n.instr.member == some second) &&
    (({} : Options).explore g (.collector false) []).2.seen.all fun d =>
      decide (0 ≤ d.node) && d.member != some second

theorem unreported {m : Method} {second : Member}
    (h : (Graph.build m).toOption.any (loses second) = true) :
    ∃ g r p report n, Graph.build m = .ok g ∧
      ({} : Options).explore g (.collector false) [] = (.ok r, p) ∧
      (method {} (.collector false) [] m).report = .ok report ∧
      2 ∈ r.covered ∧ g.nodes[2]? = some n ∧ n.instr.op = ⟨184⟩ ∧ n.instr.member = some second ∧
      ∀ d ∈ report.dependencies, d.member ≠ some second := by
  obtain ⟨g, hb, h⟩ := (Option.any_eq_true _ _).1 h
  have hb := toOption_eq_some.1 hb
  simp only [loses, Bool.and_eq_true, Option.any_eq_true, toOption_eq_some, OrderedSet.contains_iff,
    beq_iff_eq, List.all_eq_true, decide_eq_true_eq, bne_iff_ne] at h
  obtain ⟨⟨⟨r, hr, hcov⟩, n, hn, hop, hm⟩, hall⟩ := h
  have hx : ({} : Options).explore g (.collector false) [] = (.ok r, _) := Prod.ext hr rfl
  refine ⟨g, r, _, _, n, hb, hx, method_of_explore hb hx, hcov, hn, hop, hm, fun d hd => ?_⟩
  exact (hall d ((Dependency.mem_sorted fun d hd => (hall d hd).1).1 hd)).2

/-- A copy on the same line may name another member, which is then not reported. Neither is a static
member without an owner. -/
theorem covered_member_unreported :
    (∃ g r p report n,
      Graph.build (twoCalls ⟨"a/B", "f", "()V"⟩ ⟨"a/B", "g", "()V"⟩ onOneLine) = .ok g ∧
      ({} : Options).explore g (.collector false) [] = (.ok r, p) ∧
      (method {} (.collector false) []
        (twoCalls ⟨"a/B", "f", "()V"⟩ ⟨"a/B", "g", "()V"⟩ onOneLine)).report = .ok report ∧
      2 ∈ r.covered ∧ g.nodes[2]? = some n ∧ n.instr.op = ⟨184⟩ ∧
      n.instr.member = some ⟨"a/B", "g", "()V"⟩ ∧
      ∀ d ∈ report.dependencies, d.member ≠ some ⟨"a/B", "g", "()V"⟩) ∧
    ∃ g r p report n, Graph.build (twoCalls ⟨"", "f", "()V"⟩ ⟨"", "f", "()V"⟩ []) = .ok g ∧
      ({} : Options).explore g (.collector false) [] = (.ok r, p) ∧
      (method {} (.collector false) []
        (twoCalls ⟨"", "f", "()V"⟩ ⟨"", "f", "()V"⟩ [])).report = .ok report ∧
      2 ∈ r.covered ∧ g.nodes[2]? = some n ∧ n.instr.op = ⟨184⟩ ∧
      n.instr.member = some ⟨"", "f", "()V"⟩ ∧
      ∀ d ∈ report.dependencies, d.member ≠ some ⟨"", "f", "()V"⟩ := by
  constructor
  · refine unreported ?_
    rw [Graph.build_of_twins (twins_onOneLine _ _) (by decide +kernel)]
    decide +kernel
  · exact unreported (by decide +kernel)

end Analysis

end BytecodeFlow
