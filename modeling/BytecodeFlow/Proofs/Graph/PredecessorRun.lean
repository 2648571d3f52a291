import BytecodeFlow.Proofs.Graph.EdgeOrder

/-!
The straight run before a node. A walk from the entry goes through it backwards for as long as it lasts,
so that all walks have passed the nodes of the run up to the entry. Behind the entry the run goes on if
some edge leads back there, and a walk need not have come that way.
-/

namespace BytecodeFlow.Graph

/-- A walk from the entry to a node, with the nodes that it has passed before, the last of them first. -/
inductive EntryWalk (g : Graph) : (passed : List Nat) → (n : Nat) → Prop
  | entry : EntryWalk g [] 0
  | step {passed : List Nat} {i t : Nat} : EntryWalk g passed i → t ∈ g.succs i →
    EntryWalk g (i :: passed) t

theorem EntryWalk.entry_mem {g : Graph} {passed : List Nat} {n : Nat} (h : g.EntryWalk passed n) :
    0 ∈ n :: passed := by
  induction h with
  | entry => exact List.mem_cons_self
  | step _ _ ih => exact List.mem_cons_of_mem _ ih

/-- Going back from a node by only predecessors, until there is none or several or it was `seen`. -/
inductive Backtrack (g : Graph) : (seen : List Nat) → (n : Nat) → (run : List Nat) → Prop
  | stop {seen : List Nat} {n : Nat} : (∀ p, g.preds n = [p] → p ∈ seen) → Backtrack g seen n []
  | back {seen run : List Nat} {n p : Nat} : g.preds n = [p] → p ∉ seen →
    Backtrack g (p :: seen) p run → Backtrack g seen n (p :: run)

namespace Backtrack

variable {g : Graph} {seen run passed before : List Nat} {n : Nat}

theorem nodup (h : g.Backtrack seen n run) : run.Nodup ∧ ∀ r ∈ run, r ∉ seen := by
  induction h with
  | stop _ => exact ⟨List.nodup_nil, by simp⟩
  | back _ hp _ ih =>
    obtain ⟨hnodup, hnew⟩ := ih
    refine ⟨List.nodup_cons.2 ⟨fun hin => hnew _ hin List.mem_cons_self, hnodup⟩, ?_⟩
    rw [List.forall_mem_cons]
    exact ⟨hp, fun r hr hin => hnew r hr (List.mem_cons_of_mem _ hin)⟩

theorem walk_along (hg : g.Wf) (h : g.Backtrack seen n run) (hw : g.EntryWalk passed n) :
    run <+: passed ∨ passed <+: run := by
  induction h generalizing passed with
  | stop _ => exact .inl List.nil_prefix
  | back hpreds _ _ ih =>
    cases hw with
    | entry => exact .inr List.nil_prefix
    | @step _ i _ hw ht =>
      have hi := hg.mem_preds.2 ht
      rw [hpreds, List.mem_singleton] at hi
      subst hi
      exact (ih hw).imp (List.cons_prefix_cons.2 ⟨rfl, ·⟩) (List.cons_prefix_cons.2 ⟨rfl, ·⟩)

theorem exists_walk (hg : g.Wf) (h : g.Backtrack seen n run) (hbefore : before <+: run)
    (hentry : 0 ∈ n :: before) : ∃ passed, g.EntryWalk passed n ∧ passed <+: before := by
  induction h generalizing before with
  | stop _ =>
    obtain rfl := List.prefix_nil.1 hbefore
    obtain rfl := List.mem_singleton.1 hentry
    exact ⟨[], .entry, List.nil_prefix⟩
  | @back _ _ n p hpreds _ _ ih =>
    rcases List.mem_cons.1 hentry with rfl | hentry
    · exact ⟨[], .entry, List.nil_prefix⟩
    · obtain ⟨before, rfl⟩ : ∃ l, before = p :: l := by
        cases before with
        | nil => exact absurd hentry List.not_mem_nil
        | cons b l => exact ⟨l, by rw [(List.cons_prefix_cons.1 hbefore).1]⟩
      obtain ⟨passed, hw, hpassed⟩ := ih (List.cons_prefix_cons.1 hbefore).2 hentry
      have hn : n ∈ g.succs p := hg.mem_preds.1 (by rw [hpreds]; exact List.mem_singleton_self p)
      exact ⟨p :: passed, hw.step hn, List.cons_prefix_cons.2 ⟨rfl, hpassed⟩⟩

theorem passed_iff (hg : g.Wf) {r : Nat} {after : List Nat}
    (h : g.Backtrack seen n (before ++ r :: after)) :
    (∀ passed, g.EntryWalk passed n → r ∈ passed) ↔ 0 ∉ n :: before := by
  have hr : before ++ [r] <+: before ++ r :: after := ⟨after, by simp⟩
  constructor
  · intro hall hentry
    obtain ⟨passed, hw, hpassed⟩ := h.exists_walk hg (List.prefix_append before _) hentry
    have hin := hpassed.subset (hall passed hw)
    exact (List.nodup_append.1 h.nodup.1).2.2 r hin r List.mem_cons_self rfl
  · intro hentry passed hw
    have hcomparable : before ++ [r] <+: passed ∨ passed <+: before ++ [r] :=
      (h.walk_along hg hw).elim (fun hrun => .inl (hr.trans hrun))
        (fun hpassed => List.prefix_or_prefix_of_prefix hr hpassed)
    rcases hcomparable with hle | hle
    · exact hle.subset (List.mem_append_right _ (List.mem_singleton_self r))
    · rcases List.prefix_concat_iff.1 hle with rfl | hle
      · exact List.mem_append_right _ (List.mem_singleton_self r)
      · exact absurd ((List.cons_prefix_cons.2 ⟨rfl, hle⟩).subset hw.entry_mem) hentry

end Backtrack

theorem backtrack_runFrom {g : Graph} (hg : g.Wf) {seen left : List Nat} {n : Nat}
    (hnodup : left.Nodup) (hleft : ∀ p, p ∈ left ↔ p < g.size ∧ p ∉ seen) :
    g.Backtrack seen n (g.runFrom left n) := by
  fun_induction runFrom g left n generalizing seen with
  | case1 left n p hpreds hp ih =>
    refine .back hpreds ((hleft p).1 hp).2 (ih (hnodup.erase p) fun q => ?_)
    rw [hnodup.mem_erase_iff, hleft, List.mem_cons, not_or]
    exact and_left_comm
  | case2 left n p hpreds hp =>
    refine .stop fun q hq => ?_
    have hlt : q < g.size := hg.pred_lt (hq ▸ List.mem_singleton_self q)
    obtain rfl : p = q := List.singleton_inj.1 (hpreds.symm.trans hq)
    by_contra hseen
    exact hp ((hleft p).2 ⟨hlt, hseen⟩)
  | case3 left n hpreds => exact .stop fun p hp => absurd hp (hpreds p)

theorem backtrack_predecessorRun {g : Graph} (hg : g.Wf) (n : Nat) :
    g.Backtrack [n] n (g.predecessorRun n) := by
  refine backtrack_runFrom hg (List.nodup_range.erase n) fun p => ?_
  rw [List.nodup_range.mem_erase_iff, List.mem_range, List.mem_singleton, and_comm]

/-- Going back by only predecessors ends on every graph, with a run in which no node repeats. All walks
to the node have passed those of the run that the entry does not come before, and only those. -/
theorem run_passed_up_to_entry {m : Method} {g : Graph} (hb : build m = .ok g) (n : Nat) :
    g.Backtrack [n] n (g.predecessorRun n) ∧ (n :: g.predecessorRun n).Nodup ∧
    ∀ before r after, g.predecessorRun n = before ++ r :: after →
      ((∀ passed, g.EntryWalk passed n → r ∈ passed) ↔ 0 ∉ n :: before) := by
  have hg := wf_of_build hb
  have h := backtrack_predecessorRun hg n
  obtain ⟨hnodup, hseen⟩ := h.nodup
  refine ⟨h, List.nodup_cons.2 ⟨fun hn => hseen n hn List.mem_cons_self, hnodup⟩, ?_⟩
  intro before r after hrun
  exact Backtrack.passed_iff hg (hrun ▸ h)

/-- A loop back to the entry, and a node behind it. -/
def retried : Method where
  className := "a/B"
  name := "m"
  descriptor := "(I)V"
  static := true
  code := {
    instructions := [{ offset := 0, op := ⟨26⟩ }, { offset := 1, op := ⟨154⟩, target := 7 },
      { offset := 4, op := ⟨167⟩, target := 0 }, { offset := 7, op := ⟨177⟩ }]
    maxLocals := 1 }

theorem run_passed_up_to_entry_retried : ∃ g, build retried = .ok g ∧
    g.predecessorRun 3 = [1, 0, 2] ∧ (∀ passed, g.EntryWalk passed 3 → 1 ∈ passed) ∧
    (∀ passed, g.EntryWalk passed 3 → 0 ∈ passed) ∧ ¬ ∀ passed, g.EntryWalk passed 3 → 2 ∈ passed := by
  have h : (build retried).toOption.any fun g => g.predecessorRun 3 == [1, 0, 2] := by decide +kernel
  obtain ⟨g, hb, h⟩ := (Option.any_eq_true _ _).1 h
  have hrun := eq_of_beq h
  obtain ⟨-, -, hpassed⟩ := run_passed_up_to_entry (toOption_eq_some.1 hb) 3
  refine ⟨g, toOption_eq_some.1 hb, hrun, (hpassed [] 1 [0, 2] hrun).2 (by decide),
    (hpassed [1] 0 [2] hrun).2 (by decide), fun hall => ?_⟩
  exact (hpassed [1, 0] 2 [] hrun).1 hall (by decide)

end BytecodeFlow.Graph
