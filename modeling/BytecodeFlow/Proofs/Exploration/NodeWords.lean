import BytecodeFlow.Exploration.Step
import BytecodeFlow.Proofs.Graph.EdgeOrder
import BytecodeFlow.Proofs.Graph.SameLine
import Mathlib.Data.Finset.Card

/-!
Sets that hold the numbers of nodes as words of 32 bits. What a graph and an exploration ask of their sets
is written here with words. They only ask for nodes, so that nothing changes in a graph of up to 2³² nodes.
-/

namespace BytecodeFlow

theorem OrderedSet.eq_of_mem_iff {s t : NodeSet} (h : ∀ i, i ∈ s ↔ i ∈ t) : s = t := by
  have hperm : s.toList.Perm t.toList :=
    (List.perm_ext_iff_of_nodup s.nodup t.nodup).2 h
  have hlist := hperm.eq_of_pairwise (fun _ _ _ _ hab hba => absurd hab (Nat.lt_asymm hba))
    s.pairwise_lt t.pairwise_lt
  cases s
  cases t
  cases hlist
  rfl

namespace NodeSet

def word32 (i : Nat) : Nat := i % 0x100000000

theorem word32_lt (i : Nat) : word32 i < 0x100000000 := Nat.mod_lt _ (by decide)

theorem word32_eq {i : Nat} (h : i < 0x100000000) : word32 i = i := Nat.mod_eq_of_lt h

def inWords (s : NodeSet) : NodeSet := .ofList (s.toList.map word32)

theorem inWords_eq {s : NodeSet} (h : ∀ i ∈ s, i < 0x100000000) : inWords s = s := by
  refine OrderedSet.eq_of_mem_iff fun i => ?_
  have hmap : s.toList.map word32 = s.toList.map id :=
    List.map_congr_left fun i hi => word32_eq (h i hi)
  rw [inWords, hmap, List.map_id, OrderedSet.mem_ofList]
  rfl

/-- The words that a set does not hold. -/
def absent (s : NodeSet) : Finset Nat := (Finset.range 0x100000000).filter (s.contains · = false)

theorem mem_absent {s : NodeSet} {i : Nat} : i ∈ absent s ↔ i < 0x100000000 ∧ i ∉ s := by
  rw [absent, Finset.mem_filter, Finset.mem_range, ← OrderedSet.contains_iff, Bool.not_eq_true]

theorem card_absent_insert_lt {s : NodeSet} {i : Nat} (h : word32 i ∉ s) :
    (absent (s.insert (word32 i))).card < (absent s).card := by
  refine Finset.card_lt_card ((Finset.ssubset_iff_of_subset fun j hj => ?_).2 ⟨word32 i, ?_, ?_⟩)
  · obtain ⟨hlt, hj⟩ := mem_absent.1 hj
    exact mem_absent.2 ⟨hlt, fun hmem => hj (OrderedSet.mem_insert.2 (.inl hmem))⟩
  · exact mem_absent.2 ⟨word32_lt i, h⟩
  · exact fun hmem => (mem_absent.1 hmem).2 (OrderedSet.mem_insert.2 (.inr rfl))

end NodeSet

open NodeSet

namespace Graph

/-- The closure, looked for by taking one node after the other, and its successors one by one. -/
def closeWords (g : Graph) (set : NodeSet) : (due work : List Nat) → NodeSet
  | [], [] => set
  | [], n :: work => closeWords g set (g.succs n) work
  | s :: due, work =>
    if set.contains (word32 s) then closeWords g set due work
    else if (g.preds s).all fun p => set.contains (word32 p) then
      closeWords g (set.insert (word32 s)) due (s :: work)
    else closeWords g set due work
termination_by due work => ((absent set).card, work.length, due.length)
decreasing_by
  · exact .right _ (.left _ _ (Nat.lt_succ_self _))
  · exact .right _ (.right _ (Nat.lt_succ_self _))
  · rename_i hnew _
    exact .left _ _ (card_absent_insert_lt (mt OrderedSet.contains_iff.2 hnew))
  · exact .right _ (.right _ (Nat.lt_succ_self _))

def closureWords (g : Graph) (start : Nat) (set : NodeSet) : NodeSet :=
  g.closeWords (set.insert (word32 start)) [] [start]

theorem word32_of_lt {g : Graph} (hsize : g.size ≤ 0x100000000) {i : Nat} (h : i < g.size) :
    word32 i = i :=
  word32_eq (Nat.lt_of_lt_of_le h hsize)

section

variable {g : Graph} (hg : g.Wf) (hsize : g.size ≤ 0x100000000)
include hg hsize

theorem all_preds_words (set : NodeSet) (s : Nat) :
    ((g.preds s).all fun p => set.contains (word32 p)) = true ↔ ∀ p ∈ g.preds s, p ∈ set := by
  rw [List.all_eq_true]
  refine forall₂_congr fun p hp => ?_
  rw [word32_of_lt hsize (hg.pred_lt hp), OrderedSet.contains_iff]

theorem search_closeWords {set : NodeSet} {due work : List Nat} (hdue : ∀ s ∈ due, s < g.size) :
    g.Search {x | x ∈ set} due work {x | x ∈ g.closeWords set due work} := by
  fun_induction closeWords g set due work with
  | case1 set => exact .done
  | case2 set n work ih => exact .take (.refl _) (fun _ => Iff.rfl) (ih fun s hs => hg.succ_lt hs)
  | case3 set s due work hin ih =>
    rw [List.forall_mem_cons] at hdue
    rw [word32_of_lt hsize hdue.1, OrderedSet.contains_iff] at hin
    exact .pass (.inl hin) (ih hdue.2)
  | case4 set s due work hnew hall ih =>
    rw [List.forall_mem_cons] at hdue
    rw [word32_of_lt hsize hdue.1] at hnew ih ⊢
    refine .join (mt OrderedSet.contains_iff.2 hnew) ((all_preds_words hg hsize set s).1 hall) ?_
    rw [← NodeSet.setOf_insert]
    exact ih hdue.2
  | case5 set s due work hnew hall ih =>
    rw [List.forall_mem_cons] at hdue
    rw [all_preds_words hg hsize] at hall
    exact .pass (.inr (by simpa using hall)) (ih hdue.2)

theorem closureWords_eq {start : Nat} (hstart : start < g.size) (set : NodeSet) :
    g.closureWords start set = g.successorClosure start set := by
  have hsearch : g.Search (insert start {x | x ∈ set}) [] [start]
      {x | x ∈ g.closureWords start set} := by
    rw [closureWords, word32_of_lt hsize hstart, ← NodeSet.setOf_insert]
    exact search_closeWords hg hsize (List.forall_mem_nil _)
  have hleast := (search_successorClosure hg start set).isLeast hg
  exact OrderedSet.eq_of_mem_iff fun i =>
    Set.ext_iff.1 ((hsearch.isLeast hg).unique hleast) i

end

end Graph

namespace Ledger

def coverWords (g : Graph) (n : Node) (l : Ledger) : Ledger :=
  let same := (inWords n.sameLine).diff g.dead
  { covered := l.covered.union same
    noContext := l.noContext.diff same
    dead := l.dead.diff same }

def cutWords (g : Graph) (node : Nat) (cause : Int) (l : Ledger) : Bool × Ledger :=
  let l := { l with noContext := l.noContext.insert (word32 node) }
  if precedes g cause node then
    (true, l.addDead g ((g.closureWords node (l.knownDead g)).erase (word32 node)))
  else (false, l)

def pruneWords (g : Graph) (node unavailable : Nat) (cause : Int) (l : Ledger) : Bool × Ledger :=
  if precedes g cause node then
    let dead := l.knownDead g
    let dead :=
      if !l.covered.contains (word32 unavailable) &&
          (g.preds unavailable).all fun p => p == node || dead.contains (word32 p) then
        g.closureWords unavailable dead
      else dead
    (true, l.addDead g dead)
  else (false, l)

section

variable {g : Graph} (hg : g.Wf) (hsize : g.size ≤ 0x100000000) (l : Ledger)
include hg hsize

theorem coverWords_eq {i : Nat} {n : Node} (hn : g.nodes[i]? = some n) :
    l.coverWords g n = l.cover g n := by
  have hlt : ∀ j ∈ n.sameLine, j < 0x100000000 := fun j hj =>
    Nat.lt_of_lt_of_le (hg.sameLine_lt hn hj) hsize
  rw [coverWords, inWords_eq hlt]
  rfl

theorem cutWords_eq {node : Nat} (h : node < g.size) (cause : Int) :
    l.cutWords g node cause = l.cut g node cause := by
  simp only [cutWords, cut, Graph.closureWords_eq hg hsize h, Graph.word32_of_lt hsize h]

theorem pruneWords_eq (node : Nat) {unavailable : Nat} (h : unavailable < g.size) (cause : Int) :
    l.pruneWords g node unavailable cause = l.prune g node unavailable cause := by
  have hpreds (dead : NodeSet) :
      ((g.preds unavailable).all fun p => p == node || dead.contains (word32 p)) =
        onlyReachedFrom g unavailable node dead := by
    rw [Bool.eq_iff_iff, onlyReachedFrom, List.all_eq_true, List.all_eq_true]
    refine forall₂_congr fun p hp => ?_
    rw [Graph.word32_of_lt hsize (hg.pred_lt hp)]
  simp only [pruneWords, prune, hpreds, Graph.closureWords_eq hg hsize h, Graph.word32_of_lt hsize h]

end

end Ledger

/-- In a graph of up to 2³² nodes, all that is asked of sets of nodes is the same in words: whether a node is
dead by the edges or is in a set, what its closure is, and what a ledger becomes when the node is covered,
ends a path or is left out by a decided test. -/
theorem asked_in_words {m : Method} {g : Graph} (hb : Graph.build m = .ok g)
    (hsize : g.size ≤ 0x100000000) :
    inWords g.dead = g.dead ∧ ∀ (i : Nat) (n : Node), g.nodes[i]? = some n →
      (∀ set : NodeSet, set.contains (word32 i) = set.contains i ∧
        g.closureWords i set = g.successorClosure i set) ∧
      ∀ l : Ledger, l.coverWords g n = l.cover g n ∧
        (∀ cause, l.cutWords g i cause = l.cut g i cause) ∧
        ∀ node cause, l.pruneWords g node i cause = l.prune g node i cause := by
  have hg := Graph.wf_of_build hb
  refine ⟨inWords_eq fun i hi => Nat.lt_of_lt_of_le (hg.dead_lt hi) hsize, fun i n hn => ?_⟩
  have hi := Graph.node_lt hn
  refine ⟨fun set => ⟨?_, Graph.closureWords_eq hg hsize hi set⟩, fun l => ⟨?_, ?_, ?_⟩⟩
  · rw [Graph.word32_of_lt hsize hi]
  · exact l.coverWords_eq hg hsize hn
  · exact l.cutWords_eq hg hsize hi
  · exact fun node => l.pruneWords_eq hg hsize node hi

end BytecodeFlow
