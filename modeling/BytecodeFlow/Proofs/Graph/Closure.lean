import BytecodeFlow.Proofs.Graph.WellFormed
import Mathlib.Order.Bounds.Basic

/-!
Closure under successors whose predecessors are all inside. It is the least set that is closed so, and a
search that tests the successors of all that it adds ends with it, in whatever order it goes.
-/

namespace BytecodeFlow

theorem OrderedSet.nodup (s : NodeSet) : s.toList.Nodup :=
  s.increasing.imp fun h => Nat.ne_of_lt (Nat.compare_eq_lt.1 h)

theorem NodeSet.setOf_insert (s : NodeSet) (i : Nat) :
    {x | x ∈ s.insert i} = insert i {x | x ∈ s} := by
  ext x
  exact OrderedSet.mem_insert.trans or_comm

namespace Graph

theorem Wf.succ_lt {g : Graph} (hg : g.Wf) {n s : Nat} (h : s ∈ g.succs n) : s < g.size := by
  obtain ⟨node, hn, hs⟩ := exists_of_mem_succs h
  rcases (hg.mem_succs hn).1 hs with hs | ⟨hd, hh, rfl⟩
  · exact hg.flow_lt hn hs
  · exact hg.entry_lt hn hh

/-- A set with `S` and `start` in it, and with every successor of `start` or of a node of its own that
is not in `S` as soon as it has all predecessors of that successor. -/
structure ClosedFrom (g : Graph) (start : Nat) (S C : Set Nat) : Prop where
  subset : S ⊆ C
  start_mem : start ∈ C
  succ_mem : ∀ {n s : Nat}, n = start ∨ n ∈ C ∧ n ∉ S → s ∈ g.succs n → (∀ p ∈ g.preds s, p ∈ C) →
    s ∈ C

/-- A search for the closure in any order. It looks at the nodes that are due: one that is new and has
all its predecessors in the set joins the set and the worklist. When none is due it takes some node
from the worklist, whose successors are due next, in some order. -/
inductive Search (g : Graph) : (set : Set Nat) → (due work : List Nat) → (out : Set Nat) → Prop
  | done {set : Set Nat} : Search g set [] [] set
  | take {set out : Set Nat} {due work rest : List Nat} {n : Nat} : work.Perm (n :: rest) →
    (∀ s, s ∈ due ↔ s ∈ g.succs n) → Search g set due rest out → Search g set [] work out
  | join {set out : Set Nat} {due work : List Nat} {s : Nat} : s ∉ set → (∀ p ∈ g.preds s, p ∈ set) →
    Search g (insert s set) due (s :: work) out → Search g set (s :: due) work out
  | pass {set out : Set Nat} {due work : List Nat} {s : Nat} : s ∈ set ∨ (∃ p ∈ g.preds s, p ∉ set) →
    Search g set due work out → Search g set (s :: due) work out

namespace Search

variable {g : Graph} {start : Nat} {S C set out : Set Nat} {due work : List Nat}

theorem subset_closedFrom (hC : g.ClosedFrom start S C) (h : g.Search set due work out)
    (hS : S ⊆ set) (hset : set ⊆ C)
    (hdue : ∀ s ∈ due, ∃ n, (n = start ∨ n ∈ C ∧ n ∉ S) ∧ s ∈ g.succs n)
    (hwork : ∀ n ∈ work, n = start ∨ n ∈ C ∧ n ∉ S) : out ⊆ C := by
  induction h with
  | done => exact hset
  | @take _ _ _ _ _ n hw hd _ ih =>
    apply ih hS hset
    · intro s hs
      exact ⟨n, hwork n (hw.mem_iff.2 List.mem_cons_self), (hd s).1 hs⟩
    · intro k hk
      exact hwork k (hw.mem_iff.2 (List.mem_cons_of_mem _ hk))
  | @join set _ _ _ s hs hp _ ih =>
    obtain ⟨n, hn, hns⟩ := hdue s List.mem_cons_self
    have hsC : s ∈ C := hC.succ_mem hn hns fun p hps => hset (hp p hps)
    apply ih (hS.trans (Set.subset_insert s set)) (Set.insert_subset hsC hset)
    · intro t ht
      exact hdue t (List.mem_cons_of_mem _ ht)
    · intro k hk
      rcases List.mem_cons.1 hk with rfl | hk
      · exact .inr ⟨hsC, fun hin => hs (hS hin)⟩
      · exact hwork k hk
  | pass _ _ ih =>
    apply ih hS hset _ hwork
    intro t ht
    exact hdue t (List.mem_cons_of_mem _ ht)

/-- The last hypothesis is the invariant of the search: what the closure must hold, and the set does
not, is due or follows a node of the worklist. -/
theorem closedFrom (hg : g.Wf) (h : g.Search set due work out) (hS : S ⊆ set) (hstart : start ∈ set)
    (hopen : ∀ {n s : Nat}, n = start ∨ n ∈ set ∧ n ∉ S → s ∈ g.succs n →
      (∀ p ∈ g.preds s, p ∈ set) → s ∈ set ∨ s ∈ due ∨ ∃ q ∈ work, s ∈ g.succs q) :
    g.ClosedFrom start S out := by
  induction h with
  | done =>
    refine ⟨hS, hstart, fun hn hs hp => ?_⟩
    simpa using hopen hn hs hp
  | take hw hd _ ih =>
    apply ih hS hstart
    intro n s hn hs hp
    rcases hopen hn hs hp with hin | hdue | ⟨q, hq, hqs⟩
    · exact .inl hin
    · exact absurd hdue List.not_mem_nil
    · rcases List.mem_cons.1 (hw.mem_iff.1 hq) with rfl | hq
      · exact .inr (.inl ((hd s).2 hqs))
      · exact .inr (.inr ⟨q, hq, hqs⟩)
  | @join set _ _ _ t ht _ _ ih =>
    apply ih (hS.trans (Set.subset_insert t set)) (Set.mem_insert_of_mem t hstart)
    intro n s hn hs hp
    -- the successors of the new node are found from the worklist, all others as before
    by_cases hts : s ∈ g.succs t
    · exact .inr (.inr ⟨t, List.mem_cons_self, hts⟩)
    · have hn' : n = start ∨ n ∈ set ∧ n ∉ S := by
        refine hn.imp_right fun ⟨hin, hnS⟩ => ⟨hin.resolve_left ?_, hnS⟩
        rintro rfl
        exact hts hs
      have hp' : ∀ p ∈ g.preds s, p ∈ set := by
        intro p hps
        refine (hp p hps).resolve_left ?_
        rintro rfl
        exact hts (hg.mem_preds.1 hps)
      rcases hopen hn' hs hp' with hin | hdue | ⟨q, hq, hqs⟩
      · exact .inl (.inr hin)
      · exact (List.mem_cons.1 hdue).imp .inl .inl
      · exact .inr (.inr ⟨q, List.mem_cons_of_mem _ hq, hqs⟩)
  | pass ht _ ih =>
    apply ih hS hstart
    intro n s hn hs hp
    rcases hopen hn hs hp with hin | hdue | hq
    · exact .inl hin
    · rcases List.mem_cons.1 hdue with rfl | hdue
      · exact ht.imp_right fun ⟨p, hps, hout⟩ => absurd (hp p hps) hout
      · exact .inr (.inl hdue)
    · exact .inr (.inr hq)

theorem isLeast (hg : g.Wf) (h : g.Search (insert start S) [] [start] C) :
    IsLeast {C | g.ClosedFrom start S C} C := by
  constructor
  · refine h.closedFrom hg (Set.subset_insert start S) (Set.mem_insert start S) ?_
    intro n s hn hs _
    -- nothing but the start has joined so far, and it is on the worklist
    obtain rfl : n = start := hn.elim id fun ⟨hin, hnS⟩ => hin.resolve_right hnS
    exact .inr (.inr ⟨n, List.mem_singleton_self n, hs⟩)
  · intro D hD
    have hset : insert start S ⊆ D := Set.insert_subset hD.start_mem hD.subset
    exact subset_closedFrom hD h (Set.subset_insert start S) hset (by simp) (by simp)

theorem pass_all {ss : List Nat} (hss : ∀ s ∈ ss, s ∈ set ∨ ∃ p ∈ g.preds s, p ∉ set)
    (h : g.Search set due work out) : g.Search set (ss ++ due) work out := by
  induction ss with
  | nil => exact h
  | cons s ss ih =>
    rw [List.forall_mem_cons] at hss
    exact .pass hss.1 (ih hss.2)

theorem join_all {ss : List Nat} (hnew : ∀ s ∈ ss, s ∉ set)
    (hpreds : ∀ s ∈ ss, ∀ p ∈ g.preds s, p ∈ set) (hnodup : ss.Nodup)
    (h : g.Search (set ∪ {s | s ∈ ss}) [] (ss.reverse ++ work) out) : g.Search set ss work out := by
  induction ss generalizing set work with
  | nil => simpa using h
  | cons s ss ih =>
    rw [List.forall_mem_cons] at hnew hpreds
    obtain ⟨hs, hnodup⟩ := List.nodup_cons.1 hnodup
    refine .join hnew.1 hpreds.1 (ih ?_ ?_ hnodup ?_)
    · rintro t ht (rfl | hin)
      · exact hs ht
      · exact hnew.2 t ht hin
    · intro t ht p hp
      exact .inr (hpreds.2 t ht p hp)
    · have hset : insert s set ∪ {t | t ∈ ss} = set ∪ {t | t ∈ s :: ss} := by
        ext t
        simp only [Set.mem_union, Set.mem_insert_iff, Set.mem_ofPred_eq, List.mem_cons]
        rw [or_assoc, or_left_comm]
      rw [hset]
      simpa using h

/-- The successors that can join at once do so after the others were looked at. -/
theorem turn {n : Nat} {ready : List Nat}
    (hready : ∀ s, s ∈ ready ↔ s ∉ set ∧ s ∈ g.succs n ∧ ∀ p ∈ g.preds s, p ∈ set)
    (hnodup : ready.Nodup) (h : g.Search (set ∪ {s | s ∈ ready}) [] (ready ++ work) out) :
    g.Search set [] (n :: work) out := by
  have hdue : ∀ s, s ∈ (g.succs n).filter (· ∉ ready) ++ ready.reverse ↔ s ∈ g.succs n := by
    intro s
    rw [List.mem_append, List.mem_filter, decide_eq_true_iff, List.mem_reverse]
    by_cases hs : s ∈ ready
    · simp [hs, ((hready s).1 hs).2.1]
    · simp [hs]
  refine .take (.refl _) hdue (.pass_all ?_ (.join_all ?_ ?_ ?_ ?_))
  · intro s hs
    obtain ⟨hs, hnot⟩ := List.mem_filter.1 hs
    refine Classical.or_iff_not_imp_left.2 fun hnew => ?_
    by_contra hall
    refine of_decide_eq_true hnot ((hready s).2 ⟨hnew, hs, fun p hp => ?_⟩)
    exact Classical.not_not.1 fun hout => hall ⟨p, hp, hout⟩
  · intro s hs
    exact ((hready s).1 (List.mem_reverse.1 hs)).1
  · intro s hs
    exact ((hready s).1 (List.mem_reverse.1 hs)).2.2
  · exact (List.reverse_perm ready).nodup_iff.2 hnodup
  · simpa using h

end Search

section Closure

variable {g : Graph}

theorem closedBy_iff {set : NodeSet} {n s : Nat} :
    g.closedBy set n s = true ↔ s ∈ g.succs n ∧ ∀ p ∈ g.preds s, p ∈ set := by
  simp only [closedBy, Bool.and_eq_true, List.contains_iff_mem, List.all_eq_true,
    OrderedSet.contains_iff]

theorem search_grow (hg : g.Wf) {outside set : NodeSet} {work : List Nat}
    (hout : ∀ x, x ∈ outside ↔ x < g.size ∧ x ∉ set) :
    g.Search {x | x ∈ set} [] work {x | x ∈ g.grow outside set work} := by
  fun_induction grow g outside set work with
  | case1 outside set => exact .done
  | case2 outside set n work ready ih =>
    have hready : ∀ s, s ∈ ready ↔ s ∉ set ∧ s ∈ g.succs n ∧ ∀ p ∈ g.preds s, p ∈ set := by
      intro s
      rw [OrderedSet.mem_filter, hout, closedBy_iff]
      constructor
      · rintro ⟨⟨-, hnew⟩, hs⟩
        exact ⟨hnew, hs⟩
      · rintro ⟨hnew, hs⟩
        exact ⟨⟨hg.succ_lt hs.1, hnew⟩, hs⟩
    have hset : {x | x ∈ set} ∪ {x | x ∈ ready.toList} = {x | x ∈ set.union ready} := by
      ext x
      exact OrderedSet.mem_union.symm
    refine .turn hready (OrderedSet.nodup ready) ?_
    rw [hset]
    refine ih fun x => ?_
    rw [OrderedSet.mem_filter, hout, OrderedSet.mem_union, hready, Bool.not_eq_true',
      ← Bool.not_eq_true, closedBy_iff]
    constructor
    · rintro ⟨⟨hlt, hnew⟩, hnot⟩
      exact ⟨hlt, fun h => h.elim hnew fun h => hnot h.2⟩
    · rintro ⟨hlt, hnot⟩
      have hnew : x ∉ set := fun h => hnot (.inl h)
      exact ⟨⟨hlt, hnew⟩, fun h => hnot (.inr ⟨hnew, h⟩)⟩

theorem search_successorClosure (hg : g.Wf) (start : Nat) (S : NodeSet) :
    g.Search (insert start {x | x ∈ S}) [] [start] {x | x ∈ g.successorClosure start S} := by
  rw [← NodeSet.setOf_insert]
  refine search_grow hg fun x => ?_
  rw [OrderedSet.mem_diff, NodeSet.mem_below]

/-- What holds of the nodes to begin with, and passes on to a node from all its predecessors, holds of
the whole closure. -/
theorem Wf.successorClosure_induction (hg : g.Wf) {P : Nat → Prop}
    (step : ∀ {n s}, s ∈ g.succs n → (∀ p ∈ g.preds s, P p) → P s) {start : Nat} {set : NodeSet}
    (hset : ∀ x ∈ set, P x) (hstart : P start) : ∀ x ∈ g.successorClosure start set, P x := by
  have hclosed : g.ClosedFrom start {x | x ∈ set} {x | P x} := ⟨hset, hstart, fun _ => step⟩
  intro x hx
  exact ((search_successorClosure hg start set).isLeast hg).2 hclosed hx

theorem Wf.successorClosure_lt (hg : g.Wf) {start : Nat} {set : NodeSet}
    (hset : ∀ x ∈ set, x < g.size) (hstart : start < g.size) :
    ∀ x ∈ g.successorClosure start set, x < g.size :=
  hg.successorClosure_induction (fun hs _ => hg.succ_lt hs) hset hstart

/-- The closure is the least set that is closed, and what a search in any order ends with. -/
theorem successorClosure_least {m : Method} (hb : build m = .ok g) (start : Nat) (S : NodeSet) :
    IsLeast {C | g.ClosedFrom start {x | x ∈ S} C} {x | x ∈ g.successorClosure start S} ∧
    ∀ C, g.Search (insert start {x | x ∈ S}) [] [start] C ↔
      C = {x | x ∈ g.successorClosure start S} := by
  have hg := wf_of_build hb
  have hsearch := search_successorClosure hg start S
  refine ⟨hsearch.isLeast hg, fun C => ?_⟩
  constructor
  · intro h
    exact (h.isLeast hg).unique (hsearch.isLeast hg)
  · rintro rfl
    exact hsearch

end Closure

/-- A loop behind a test, and a last node to which the loop and the test both lead. -/
def skippedLoop : Method where
  className := "a/B"
  name := "m"
  descriptor := "(I)V"
  static := true
  code := {
    instructions := [{ offset := 0, op := ⟨26⟩ }, { offset := 1, op := ⟨153⟩, target := 9 },
      { offset := 4, op := ⟨26⟩ }, { offset := 5, op := ⟨154⟩, target := 4 },
      { offset := 8, op := ⟨0⟩ }, { offset := 9, op := ⟨177⟩ }]
    maxLocals := 1 }

theorem successorClosure_least_skippedLoop : ∃ g, build skippedLoop = .ok g ∧
    (g.successorClosure 2 (.singleton 1)).toList = [1, 2, 3, 4, 5] ∧
    IsLeast {C | g.ClosedFrom 2 {x | x ∈ OrderedSet.singleton 1} C} {x | x ∈ [1, 2, 3, 4, 5]} ∧
    g.Search (insert 2 {x | x ∈ OrderedSet.singleton 1}) [] [2] {x | x ∈ [1, 2, 3, 4, 5]} := by
  have h : (build skippedLoop).toOption.any fun g =>
      (g.successorClosure 2 (.singleton 1)).toList == [1, 2, 3, 4, 5] := by decide +kernel
  obtain ⟨g, hb, h⟩ := (Option.any_eq_true _ _).1 h
  obtain ⟨hleast, hsearch⟩ := successorClosure_least (toOption_eq_some.1 hb) 2 (.singleton 1)
  have hlist := eq_of_beq h
  have hset : {x | x ∈ g.successorClosure 2 (.singleton 1)} = {x | x ∈ [1, 2, 3, 4, 5]} := by
    ext x
    rw [Set.mem_ofPred_eq, OrderedSet.mem_def, hlist]
    rfl
  exact ⟨g, toOption_eq_some.1 hb, hlist, hset ▸ hleast, hset ▸ (hsearch _).2 rfl⟩

end Graph

end BytecodeFlow
