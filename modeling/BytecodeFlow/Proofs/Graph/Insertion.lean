import BytecodeFlow.Proofs.Graph.EdgeOrder
import BytecodeFlow.Proofs.Graph.SameLine
import Mathlib.Data.List.Induction

/-!
The lists at a node as they come about. Edges are added one after the other, each to the successors of its
source and to the predecessors of its target unless it is known; so are the members of a group, which is
sorted in the end.
-/

namespace BytecodeFlow

section Firsts

variable [BEq α] [LawfulBEq α] {xs : List α} {a : α}

theorem firsts_concat_of_mem (h : a ∈ xs) : firsts (xs ++ [a]) = firsts xs := by
  rw [firsts_eq_eraseDups, firsts_eq_eraseDups, List.eraseDups_append]
  simp [List.removeAll, h]

theorem firsts_concat_of_not_mem (h : a ∉ xs) : firsts (xs ++ [a]) = firsts xs ++ [a] := by
  rw [firsts_eq_eraseDups, firsts_eq_eraseDups, List.eraseDups_append]
  simp [List.removeAll, List.eraseDups_cons, h]

end Firsts

theorem OrderedSet.toList_ofList (xs : List Nat) : (ofList xs).toList = (firsts xs).mergeSort := by
  have hsorted : (firsts xs).mergeSort.Pairwise (· ≤ ·) := by
    refine (List.pairwise_mergeSort ?_ ?_ (firsts xs)).imp of_decide_eq_true
    · intro a b c hab hbc
      exact decide_eq_true (Nat.le_trans (of_decide_eq_true hab) (of_decide_eq_true hbc))
    · intro a b
      simpa using Nat.le_total a b
  have hperm : (ofList xs).toList.Perm (firsts xs).mergeSort := by
    refine (List.perm_ext_iff_of_nodup ?_ ?_).2 fun a => ?_
    · exact (ofList xs).pairwise_lt.imp Nat.ne_of_lt
    · exact ((List.mergeSort_perm _ _).nodup_iff).2 (nodup_firsts xs)
    · rw [List.mem_mergeSort, mem_firsts]
      exact mem_ofList
  exact hperm.eq_of_pairwise (fun _ _ _ _ => Nat.le_antisymm)
    ((ofList xs).pairwise_lt.imp Nat.le_of_lt) hsorted

namespace Graph

def addEdge (nodes : Array Node) (e : Nat × Nat) : Array Node :=
  if (succsIn nodes e.1).contains e.2 then nodes
  else
    (nodes.modify e.1 fun n => { n with succs := n.succs ++ [e.2] }).modify e.2
      fun n => { n with preds := n.preds ++ [e.1] }

def addMember (groups : Array (List Nat)) (e : Nat × Nat) : Array (List Nat) :=
  groups.modify e.1 fun group => if group.contains e.2 then group else group ++ [e.2]

section Row

variable {f g : Nat × Nat → Nat} {es : List (Nat × Nat)} {e : Nat × Nat} {i : Nat}

theorem filter_concat (es : List (Nat × Nat)) (e : Nat × Nat) (i : Nat) :
    ((es ++ [e]).filter (f · == i)).map g =
      (es.filter (f · == i)).map g ++ if f e = i then [g e] else [] := by
  rw [List.filter_append, List.map_append]
  by_cases hi : f e = i <;> simp [hi]

theorem firsts_row_of_mem (h : e ∈ es) :
    firsts (((es ++ [e]).filter (f · == i)).map g) = firsts ((es.filter (f · == i)).map g) := by
  rw [filter_concat]
  split
  next hi =>
    exact firsts_concat_of_mem (List.mem_map_of_mem (List.mem_filter.2 ⟨h, beq_iff_eq.2 hi⟩))
  next => rw [List.append_nil]

/-- An edge is known by its two ends, so that one which is new is new in its row. -/
theorem firsts_row_of_not_mem (hfg : ∀ a b, f a = f b → g a = g b → a = b) (h : e ∉ es) :
    firsts (((es ++ [e]).filter (f · == i)).map g) =
      firsts ((es.filter (f · == i)).map g) ++ if f e = i then [g e] else [] := by
  rw [filter_concat]
  split
  next hi =>
    refine firsts_concat_of_not_mem fun hmem => ?_
    obtain ⟨a, ha, hg⟩ := List.mem_map.1 hmem
    obtain ⟨ha, hf⟩ := List.mem_filter.1 ha
    exact h (hfg a e ((beq_iff_eq.1 hf).trans hi.symm) hg ▸ ha)
  next => rw [List.append_nil, List.append_nil]

end Row

namespace Wiring

variable {w : Wiring} {twins : List (Nat × Nat)}

theorem getElem?_nodes_eq (edges : List (Nat × Nat)) (i : Nat) :
    (w.nodes edges twins)[i]? = (w.nodes [] twins)[i]?.map fun n => { n with
      succs := firsts ((edges.filter (·.1 == i)).map Prod.snd)
      preds := firsts ((edges.filter (·.2 == i)).map Prod.fst) } := by
  simp only [nodes, List.getElem?_map, List.getElem?_zipIdx, Option.map_map, Nat.zero_add]
  rfl

theorem succsIn_nodes {edges : List (Nat × Nat)} {i : Nat} (h : i < (w.nodes [] twins).length) :
    succsIn (w.nodes edges twins).toArray i = firsts ((edges.filter (·.1 == i)).map Prod.snd) := by
  simp [succsIn, getElem?_nodes_eq, List.getElem?_eq_getElem h]

theorem addEdge_nodes {edges : List (Nat × Nat)} {e : Nat × Nat}
    (h : e.1 < (w.nodes [] twins).length) :
    addEdge (w.nodes edges twins).toArray e = (w.nodes (edges ++ [e]) twins).toArray := by
  have hknown : (succsIn (w.nodes edges twins).toArray e.1).contains e.2 = true ↔ e ∈ edges := by
    rw [succsIn_nodes h, List.contains_iff_mem, mem_firsts]
    simp
  rw [addEdge]
  by_cases he : e ∈ edges
  · rw [if_pos (hknown.2 he)]
    congr 1
    refine List.ext_getElem? fun i => ?_
    rw [getElem?_nodes_eq edges, getElem?_nodes_eq (edges ++ [e]), firsts_row_of_mem he,
      firsts_row_of_mem he]
  · rw [if_neg (mt hknown.1 he)]
    refine Array.ext_getElem? fun i => ?_
    simp only [Array.getElem?_modify, List.getElem?_toArray]
    rw [getElem?_nodes_eq edges, getElem?_nodes_eq (edges ++ [e]),
      firsts_row_of_not_mem (by simp [Prod.ext_iff]) he, firsts_row_of_not_mem (by simp [Prod.ext_iff]) he]
    cases (w.nodes [] twins)[i]? with
    | none => simp
    | some n => by_cases h₁ : e.1 = i <;> by_cases h₂ : e.2 = i <;> simp [h₁, h₂]

/-- Adding the edges one by one to nodes without any gives all their lists. -/
theorem foldl_addEdge {edges : List (Nat × Nat)} (h : ∀ e ∈ edges, e.1 < (w.nodes [] twins).length) :
    edges.foldl addEdge (w.nodes [] twins).toArray = (w.nodes edges twins).toArray := by
  induction edges using List.reverseRecOn with
  | nil => rfl
  | append_singleton es e ih =>
    rw [List.foldl_concat, ih fun a ha => h a (List.mem_append_left _ ha)]
    exact addEdge_nodes (h e (List.mem_append_right _ (List.mem_singleton_self e)))

end Wiring

/-- Adding copies one by one to groups of one gives groups in the order in which members first come. -/
theorem foldl_addMember (twins : List (Nat × Nat)) {size i : Nat} (h : i < size) :
    (twins.foldl addMember ((Array.range size).map ([·])))[i]? =
      some (firsts (i :: (twins.filter (·.1 == i)).map Prod.snd)) := by
  induction twins using List.reverseRecOn with
  | nil => simp [h, firsts]
  | append_singleton es e ih =>
    rw [List.foldl_concat, addMember, Array.getElem?_modify, ih, filter_concat, ← List.cons_append]
    split
    next =>
      rw [Option.map_some, Option.some_inj]
      split
      next hknown =>
        exact (firsts_concat_of_mem ((mem_firsts _).1 (List.contains_iff_mem.1 hknown))).symm
      next hnew =>
        refine (firsts_concat_of_not_mem fun hmem => hnew ?_).symm
        exact List.contains_iff_mem.2 ((mem_firsts _).2 hmem)
    next => rw [List.append_nil]

/-- The nodes of a graph are those that adding its edges one by one ends with, and each group is the one
that adding its copies ends with, sorted. -/
theorem build_inserts {m : Method} {g : Graph} (hb : build m = .ok g) :
    ∃ w, wire m.code = .ok w ∧
      g.nodes = w.edges.foldl addEdge (w.nodes [] m.code.twins).toArray ∧
      ∀ (i : Nat) (n : Node), g.nodes[i]? = some n →
        (m.code.twins.foldl addMember ((Array.range g.size).map ([·])))[i]?.map List.mergeSort =
          some n.sameLine.toList := by
  obtain ⟨-, w, hw, rfl⟩ := wire_of_build hb
  obtain ⟨hc, hr⟩ := Wiring.resolves_of_wire hw
  refine ⟨w, hw, ?_, fun i n hn => ?_⟩
  · rw [Wiring.foldl_addEdge, ← hc]
    · rfl
    · rintro ⟨i, t⟩ he
      rw [Wiring.length_nodes hr]
      exact (hr.edge_lt he).1
  · rw [foldl_addMember _ (node_lt hn)]
    obtain ⟨instr, flow, -, -, rfl⟩ := Wiring.getElem?_nodes (getElem?_ofWiring hn)
    rw [OrderedSet.toList_ofList, hc]
    rfl

end Graph

end BytecodeFlow
