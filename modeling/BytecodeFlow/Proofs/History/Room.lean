import BytecodeFlow.Proofs.History
import Mathlib.Data.Finset.Prod
import Mathlib.Data.Finset.Range

/-!
The room that is left in a history. Whatever an operation reports as new takes some of it, and nothing
gives any back.
-/

namespace BytecodeFlow.History

/-- A history of so many nodes, in which nothing but these is recorded. -/
structure Within (n : Nat) (h : History Nat) : Prop where
  size : h.size = n
  seen : ∀ {m x : Nat}, x ∈ h.seenAt m → x < n

/-- The pairs of a node and another that is not recorded there. -/
def free (n : Nat) (h : History Nat) : Finset (Nat × Nat) :=
  (Finset.range n ×ˢ Finset.range n).filter fun p => h.contains p.1 p.2 = false

def room (n : Nat) (h : History Nat) : Nat := (h.free n).card

variable {n : Nat} {h h' : History Nat}

theorem mem_free {m x : Nat} : (m, x) ∈ h.free n ↔ (m < n ∧ x < n) ∧ x ∉ h.seenAt m := by
  simp only [free, Finset.mem_filter, Finset.mem_product, Finset.mem_range]
  rw [contains, ← OrderedSet.contains_iff, Bool.not_eq_true]

theorem free_subset (hs : ∀ m x, x ∈ h.seenAt m → x ∈ h'.seenAt m) : h'.free n ⊆ h.free n := by
  rintro ⟨m, x⟩ hp
  rw [mem_free] at hp ⊢
  exact ⟨hp.1, fun hx => hp.2 (hs m x hx)⟩

theorem room_le (n : Nat) (h : History Nat) : h.room n ≤ n * n := by
  refine (Finset.card_filter_le _ _).trans ?_
  rw [Finset.card_product, Finset.card_range]

theorem room_mono (hs : ∀ m x, x ∈ h.seenAt m → x ∈ h'.seenAt m) : h'.room n ≤ h.room n :=
  Finset.card_le_card (free_subset hs)

theorem room_lt (hs : ∀ m x, x ∈ h.seenAt m → x ∈ h'.seenAt m) {m x : Nat} (hm : m < n)
    (hx : x < n) (hold : x ∉ h.seenAt m) (hnew : x ∈ h'.seenAt m) : h'.room n < h.room n := by
  refine Finset.card_lt_card ((Finset.ssubset_iff_of_subset (free_subset hs)).2 ⟨(m, x), ?_, ?_⟩)
  · exact mem_free.2 ⟨⟨hm, hx⟩, hold⟩
  · exact fun hp => (mem_free.1 hp).2 hnew

@[simp] theorem room_copy : h.copy.room n = h.room n := rfl

@[simp] theorem room_mark : h.mark.room n = h.room n := rfl

theorem within_empty (n : Nat) : Within n (empty n) :=
  ⟨size_empty n, fun hx => absurd hx not_mem_seenAt_empty⟩

theorem Within.copy (hw : Within n h) : Within n h.copy := ⟨hw.size, hw.seen⟩

theorem Within.mark (hw : Within n h) : Within n h.mark := ⟨hw.size, hw.seen⟩

theorem Within.unite (hw : Within n h) {node : Nat} {set : NodeSet} (hset : ∀ x ∈ set, x < n) :
    Within n (h.unite node set).2 := by
  refine ⟨(size_unite h node set).trans hw.size, fun hx => ?_⟩
  rcases mem_seenAt_unite.1 hx with hx | ⟨-, -, hx⟩
  · exact hw.seen hx
  · exact hset _ hx

theorem room_unite_le (node : Nat) (set : NodeSet) : (h.unite node set).2.room n ≤ h.room n :=
  room_mono fun _ _ hx => mem_seenAt_unite.2 (.inl hx)

theorem room_unite_lt (hw : Within n h) {node : Nat} {set : NodeSet} (hn : node < n)
    (hset : ∀ x ∈ set, x < n) (hg : (h.unite node set).1 = true) :
    (h.unite node set).2.room n < h.room n := by
  have hnew : ¬ ∀ x ∈ set, x ∈ h.seenAt node := by
    rw [← unite_fst_eq_false, hg]
    exact Bool.noConfusion
  simp only [not_forall] at hnew
  obtain ⟨x, hx, hold⟩ := hnew
  refine room_lt (fun _ _ hx => mem_seenAt_unite.2 (.inl hx)) hn (hset x hx) hold ?_
  exact mem_seenAt_unite.2 (.inr ⟨rfl, hn.trans_eq hw.size.symm, hx⟩)

theorem lt_of_mem_singleton {x y : Nat} (hx : x < n) (hy : y ∈ OrderedSet.singleton x) : y < n := by
  rwa [List.mem_singleton.1 hy]

theorem Within.add (hw : Within n h) (node : Nat) {x : Nat} (hx : x < n) :
    Within n (h.add node x).2 :=
  hw.unite fun _ => lt_of_mem_singleton hx

theorem room_add_le (node x : Nat) : (h.add node x).2.room n ≤ h.room n := room_unite_le _ _

theorem Within.addAll (hw : Within n h) (node source : Nat) : Within n (h.addAll node source).2 :=
  hw.unite fun _ hx => hw.seen hx

theorem room_addAll_le (node source : Nat) : (h.addAll node source).2.room n ≤ h.room n :=
  room_unite_le _ _

theorem room_addAll_lt (hw : Within n h) {node source : Nat} (hn : node < n)
    (hg : (h.addAll node source).1 = true) : (h.addAll node source).2.room n < h.room n :=
  room_unite_lt hw hn (fun _ hx => hw.seen hx) hg

theorem Within.merge {other : History Nat} (hw : Within n h) (ho : Within n other) :
    Within n (h.merge other) := by
  have hs : other.size = h.size := ho.size.trans hw.size.symm
  refine ⟨(size_merge hs).trans hw.size, fun hx => ?_⟩
  rcases (mem_seenAt_merge hs).1 hx with hx | hx
  · exact hw.seen hx
  · exact ho.seen hx

theorem room_merge_le {other : History Nat} (hw : Within n h) (ho : Within n other) :
    (h.merge other).room n ≤ h.room n :=
  room_mono fun _ _ hx => (mem_seenAt_merge (ho.size.trans hw.size.symm)).2 (.inl hx)

end BytecodeFlow.History

namespace BytecodeFlow.Exploration

open History

variable {n : Nat} {h : History Nat}

theorem within_enter (hw : Within n h) (entry : Nat) {thrower : Nat} (ht : thrower < n) :
    Within n (enter h entry thrower).2 := by
  rw [enter_snd]
  exact (hw.addAll entry thrower).add entry ht

theorem room_enter_le (entry thrower : Nat) : (enter h entry thrower).2.room n ≤ h.room n := by
  rw [enter_snd]
  exact (room_add_le entry thrower).trans (room_addAll_le entry thrower)

/-- A handler that is entered anew takes room, by its thrower or by what is recorded there. -/
theorem room_enter_lt (hw : Within n h) {entry thrower : Nat} (he : entry < n) (ht : thrower < n)
    (hg : (enter h entry thrower).1 = true) : (enter h entry thrower).2.room n < h.room n := by
  simp only [enter, Bool.or_eq_true] at hg
  rw [enter_snd]
  rcases hg with hg | hg
  · exact (room_unite_lt (hw.addAll entry thrower) he (fun _ => lt_of_mem_singleton ht) hg).trans_le
      (room_addAll_le entry thrower)
  · exact (room_add_le entry thrower).trans_lt (room_addAll_lt hw he hg)

end BytecodeFlow.Exploration
