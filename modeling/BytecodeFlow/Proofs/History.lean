import BytecodeFlow.Exploration.Step

namespace BytecodeFlow.History

theorem seenAt_eq_empty {h : History Nat} {m : Nat} (hm : h.size ≤ m) : h.seenAt m = ∅ := by
  rw [seenAt, Array.getElem?_eq_none hm]
  rfl

@[simp] theorem seenAt_copy (h : History Nat) (m : Nat) : h.copy.seenAt m = h.seenAt m := rfl

@[simp] theorem seenAt_mark (h : History Nat) (m : Nat) : h.mark.seenAt m = h.seenAt m := rfl

@[simp] theorem size_copy (h : History Nat) : h.copy.size = h.size := rfl

@[simp] theorem size_mark (h : History Nat) : h.mark.size = h.size := rfl

@[simp] theorem size_empty (n : Nat) : (empty n : History Nat).size = n := by
  simp [size, empty]

theorem not_mem_seenAt_empty {n m x : Nat} : x ∉ (empty n : History Nat).seenAt m := by
  simp only [seenAt, empty, Array.getElem?_replicate]
  split <;> exact OrderedSet.not_mem_empty x

theorem unite_fst_eq_false {h : History Nat} {node : Nat} {set : NodeSet} :
    (h.unite node set).1 = false ↔ ∀ x ∈ set, x ∈ h.seenAt node := by
  rw [← OrderedSet.subset_iff, unite]
  split <;> simp_all

@[simp] theorem size_unite (h : History Nat) (node : Nat) (set : NodeSet) :
    (h.unite node set).2.size = h.size := by
  rw [unite]
  split
  · rfl
  · exact Array.size_setIfInBounds

theorem mem_seenAt_unite {h : History Nat} {node m x : Nat} {set : NodeSet} :
    x ∈ (h.unite node set).2.seenAt m ↔
      x ∈ h.seenAt m ∨ (m = node ∧ node < h.size ∧ x ∈ set) := by
  rw [unite]
  split
  next hs =>
    rw [OrderedSet.subset_iff] at hs
    constructor
    · exact .inl
    · rintro (hx | ⟨rfl, -, hx⟩)
      · exact hx
      · exact hs x hx
  next hs =>
    by_cases hm : m = node
    · subst hm
      by_cases hb : m < h.size
      · have hb' : m < h.sets.size := hb
        simp [seenAt, hb', OrderedSet.mem_union, hb]
      · simp [seenAt, Array.setIfInBounds, show ¬ m < h.sets.size from hb, hb]
    · have hn : node ≠ m := fun e => hm e.symm
      simp [seenAt, Array.getElem?_setIfInBounds_ne hn, hm]

theorem mem_seenAt_add {h : History Nat} {node m seen x : Nat} :
    x ∈ (h.add node seen).2.seenAt m ↔
      x ∈ h.seenAt m ∨ (m = node ∧ node < h.size ∧ x = seen) := by
  rw [add, mem_seenAt_unite]
  simp [OrderedSet.mem_def, OrderedSet.singleton]

@[simp] theorem size_add (h : History Nat) (node seen : Nat) :
    (h.add node seen).2.size = h.size := size_unite h node _

theorem add_fst_eq_false {h : History Nat} {node seen : Nat} :
    (h.add node seen).1 = false ↔ seen ∈ h.seenAt node := by
  rw [add, unite_fst_eq_false]
  simp [OrderedSet.mem_def, OrderedSet.singleton]

theorem mem_seenAt_addAll {h : History Nat} {node source m x : Nat} :
    x ∈ (h.addAll node source).2.seenAt m ↔
      x ∈ h.seenAt m ∨ (m = node ∧ node < h.size ∧ x ∈ h.seenAt source) := mem_seenAt_unite

@[simp] theorem size_addAll (h : History Nat) (node source : Nat) :
    (h.addAll node source).2.size = h.size := size_unite h node _

theorem addAll_fst_eq_false {h : History Nat} {node source : Nat} :
    (h.addAll node source).1 = false ↔ ∀ x ∈ h.seenAt source, x ∈ h.seenAt node :=
  unite_fst_eq_false

theorem size_merge {h other : History Nat} (hs : other.size = h.size) :
    (h.merge other).size = h.size := by
  simp only [size] at hs
  simp [merge, size, hs]

theorem mem_seenAt_merge {h other : History Nat} {m x : Nat} (hs : other.size = h.size) :
    x ∈ (h.merge other).seenAt m ↔ x ∈ h.seenAt m ∨ x ∈ other.seenAt m := by
  by_cases hm : m < h.size
  · have h₁ : m < h.sets.size := hm
    have h₂ : m < other.sets.size := Nat.lt_of_lt_of_eq hm hs.symm
    simp only [merge, seenAt, Array.getElem?_zipWith]
    simp [h₁, h₂, OrderedSet.mem_union]
  · have h₁ := Nat.le_of_not_lt hm
    rw [seenAt_eq_empty (by rw [size_merge hs]; exact h₁), seenAt_eq_empty h₁,
      seenAt_eq_empty (by rw [hs]; exact h₁)]
    simp [OrderedSet.not_mem_empty]

end BytecodeFlow.History

namespace BytecodeFlow.Exploration

open History

def Knows (h : History Nat) (m : Nat) : Prop := ∃ x, x ∈ h.seenAt m

theorem enter_snd (h : History Nat) (entry thrower : Nat) :
    (enter h entry thrower).2 = ((h.addAll entry thrower).2.add entry thrower).2 := by
  rw [enter]

theorem mem_seenAt_enter {h : History Nat} {entry thrower m x : Nat} :
    x ∈ (enter h entry thrower).2.seenAt m ↔
      x ∈ h.seenAt m ∨ (m = entry ∧ entry < h.size ∧ (x ∈ h.seenAt thrower ∨ x = thrower)) := by
  simp only [enter, mem_seenAt_add, mem_seenAt_addAll, size_addAll]
  grind

@[simp] theorem size_enter (h : History Nat) (entry thrower : Nat) :
    (enter h entry thrower).2.size = h.size := by
  simp [enter]

/-- An edge that adds nothing: its source, and all that is recorded there, is recorded at its target. -/
def Refuses (h : History Nat) (source target : Nat) : Prop :=
  source ∈ h.seenAt target ∧ ∀ x ∈ h.seenAt source, x ∈ h.seenAt target

theorem Refuses.knows {h : History Nat} {source target : Nat} (hr : Refuses h source target) :
    Knows h target :=
  ⟨source, hr.1⟩

theorem refuses_of_enter {h : History Nat} {entry thrower : Nat}
    (hf : (enter h entry thrower).1 = false) : Refuses h thrower entry := by
  simp only [enter, Bool.or_eq_false_iff] at hf
  obtain ⟨ha, hg⟩ := hf
  have hall := addAll_fst_eq_false.1 hg
  rcases mem_seenAt_addAll.1 (add_fst_eq_false.1 ha) with ht | ⟨-, -, ht⟩
  · exact ⟨ht, hall⟩
  · exact ⟨hall thrower ht, hall⟩

/-- A source is recorded at itself before its targets are asked, so that an edge back to it is always
turned away. -/
theorem refuses_of_addAll {h : History Nat} {source target : Nat} (hs : source < h.size)
    (hf : ((h.add source source).2.addAll target source).1 = false) :
    target = source ∨ Refuses h source target := by
  have hall := addAll_fst_eq_false.1 hf
  by_cases ht : target = source
  · exact .inl ht
  have seen : ∀ x ∈ (h.add source source).2.seenAt source, x ∈ h.seenAt target := by
    intro x hx
    exact (mem_seenAt_add.1 (hall x hx)).resolve_right fun hn => ht hn.1
  refine .inr ⟨seen source (mem_seenAt_add.2 (.inr ⟨rfl, hs, rfl⟩)), fun x hx => ?_⟩
  exact seen x (mem_seenAt_add.2 (.inl hx))

end BytecodeFlow.Exploration
