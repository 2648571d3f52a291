namespace BytecodeFlow

structure OrderedSet (α : Type) [Ord α] where
  toList : List α
  increasing : toList.Pairwise (compare · · = .lt)

namespace OrderedSet

variable {α : Type} [Ord α]

instance : Membership α (OrderedSet α) where
  mem s a := a ∈ s.toList

theorem mem_def {s : OrderedSet α} {a : α} : a ∈ s ↔ a ∈ s.toList := Iff.rfl

def empty : OrderedSet α := ⟨[], .nil⟩

instance : EmptyCollection (OrderedSet α) where
  emptyCollection := empty

instance : Inhabited (OrderedSet α) where
  default := empty

theorem not_mem_empty (a : α) : a ∉ (∅ : OrderedSet α) := List.not_mem_nil

def isEmpty (s : OrderedSet α) : Bool := s.toList.isEmpty

def size (s : OrderedSet α) : Nat := s.toList.length

@[inline]
def contains [BEq α] (s : OrderedSet α) (a : α) : Bool := s.toList.contains a

theorem contains_iff [BEq α] [LawfulBEq α] {s : OrderedSet α} {a : α} :
    s.contains a = true ↔ a ∈ s := List.contains_iff_mem

@[inline]
def filter (p : α → Bool) (s : OrderedSet α) : OrderedSet α :=
  ⟨s.toList.filter p, s.increasing.filter p⟩

theorem mem_filter {p : α → Bool} {s : OrderedSet α} {a : α} :
    a ∈ s.filter p ↔ a ∈ s ∧ p a = true := List.mem_filter

@[inline]
def diff [BEq α] (s t : OrderedSet α) : OrderedSet α := s.filter fun a => !t.contains a

theorem mem_diff [BEq α] [LawfulBEq α] {s t : OrderedSet α} {a : α} :
    a ∈ s.diff t ↔ a ∈ s ∧ a ∉ t := by
  rw [diff, mem_filter, ← contains_iff (s := t)]
  cases t.contains a <;> simp

@[inline]
def erase [BEq α] (s : OrderedSet α) (a : α) : OrderedSet α := s.filter fun b => !(b == a)

theorem mem_erase [BEq α] [LawfulBEq α] {s : OrderedSet α} {a b : α} :
    b ∈ s.erase a ↔ b ∈ s ∧ b ≠ a := by
  rw [erase, mem_filter]
  simp

@[inline]
def subset [BEq α] (s t : OrderedSet α) : Bool := s.toList.all t.contains

theorem subset_iff [BEq α] [LawfulBEq α] {s t : OrderedSet α} :
    s.subset t = true ↔ ∀ a ∈ s, a ∈ t := by
  simp only [subset, List.all_eq_true, contains_iff]
  exact Iff.rfl

section Merge

variable [Std.TransOrd α] [Std.LawfulEqOrd α]

/-- Merges two increasing lists, keeping one of two equal elements. -/
@[specialize]
def mergeLists : List α → List α → List α
  | [], ys => ys
  | x :: xs, [] => x :: xs
  | x :: xs, y :: ys =>
    match compare x y with
    | .lt => x :: mergeLists xs (y :: ys)
    | .eq => x :: mergeLists xs ys
    | .gt => y :: mergeLists (x :: xs) ys
termination_by xs ys => xs.length + ys.length

omit [Std.TransOrd α] in
theorem mem_mergeLists {a : α} (xs ys : List α) : a ∈ mergeLists xs ys ↔ a ∈ xs ∨ a ∈ ys := by
  fun_induction mergeLists xs ys with
  | case1 ys => simp
  | case2 x xs => simp
  | case3 x xs y ys h ih => simp [ih, or_assoc]
  | case4 x xs y ys h ih =>
    have : x = y := Std.LawfulEqOrd.eq_of_compare h
    subst this
    simp only [List.mem_cons, ih]
    constructor
    · rintro (h | h | h) <;> simp [h]
    · rintro ((h | h) | (h | h)) <;> simp [h]
  | case5 x xs y ys h ih =>
    simp only [List.mem_cons, ih]
    constructor
    · rintro (h | (h | h) | h) <;> simp [h]
    · rintro ((h | h) | (h | h)) <;> simp [h]

theorem increasing_mergeLists (xs ys : List α) (hx : xs.Pairwise (compare · · = .lt))
    (hy : ys.Pairwise (compare · · = .lt)) : (mergeLists xs ys).Pairwise (compare · · = .lt) := by
  fun_induction mergeLists xs ys with
  | case1 ys => exact hy
  | case2 x xs => exact hx
  | case3 x xs y ys h ih =>
    rw [List.pairwise_cons] at hx
    refine List.pairwise_cons.2 ⟨fun b hb => ?_, ih hx.2 hy⟩
    rcases (mem_mergeLists _ _).1 hb with hb | hb
    · exact hx.1 b hb
    · rcases List.mem_cons.1 hb with rfl | hb
      · exact h
      · exact Std.TransCmp.lt_trans h ((List.pairwise_cons.1 hy).1 b hb)
  | case4 x xs y ys h ih =>
    have : x = y := Std.LawfulEqOrd.eq_of_compare h
    subst this
    rw [List.pairwise_cons] at hx hy
    refine List.pairwise_cons.2 ⟨fun b hb => ?_, ih hx.2 hy.2⟩
    rcases (mem_mergeLists _ _).1 hb with hb | hb
    · exact hx.1 b hb
    · exact hy.1 b hb
  | case5 x xs y ys h ih =>
    rw [List.pairwise_cons] at hy
    refine List.pairwise_cons.2 ⟨fun b hb => ?_, ih hx hy.2⟩
    have hyx : compare y x = .lt := Std.OrientedCmp.gt_iff_lt.1 h
    rcases (mem_mergeLists _ _).1 hb with hb | hb
    · rcases List.mem_cons.1 hb with rfl | hb
      · exact hyx
      · exact Std.TransCmp.lt_trans hyx ((List.pairwise_cons.1 hx).1 b hb)
    · exact hy.1 b hb

@[inline]
def union (s t : OrderedSet α) : OrderedSet α :=
  ⟨mergeLists s.toList t.toList, increasing_mergeLists _ _ s.increasing t.increasing⟩

theorem mem_union {s t : OrderedSet α} {a : α} : a ∈ s.union t ↔ a ∈ s ∨ a ∈ t :=
  mem_mergeLists _ _

def singleton (a : α) : OrderedSet α := ⟨[a], List.pairwise_singleton _ _⟩

@[inline]
def insert (a : α) (s : OrderedSet α) : OrderedSet α := s.union (singleton a)

theorem mem_insert {s : OrderedSet α} {a b : α} : b ∈ s.insert a ↔ b ∈ s ∨ b = a := by
  rw [insert, mem_union]
  exact or_congr Iff.rfl List.mem_singleton

def ofList (xs : List α) : OrderedSet α := xs.foldl (fun s a => s.insert a) ∅

theorem mem_foldl_insert (xs : List α) (s : OrderedSet α) {a : α} :
    a ∈ xs.foldl (fun s a => s.insert a) s ↔ a ∈ s ∨ a ∈ xs := by
  induction xs generalizing s with
  | nil => simp
  | cons x xs ih => rw [List.foldl_cons, ih, mem_insert, List.mem_cons, or_assoc]

theorem mem_ofList {xs : List α} {a : α} : a ∈ ofList xs ↔ a ∈ xs := by
  rw [ofList, mem_foldl_insert]
  simp [not_mem_empty]

end Merge

def render [ToString α] (s : OrderedSet α) : String :=
  "\x7b" ++ " ".intercalate (s.toList.map toString) ++ "\x7d"

end OrderedSet

abbrev NodeSet := OrderedSet Nat

namespace NodeSet

def tableOnto (a : Array Bool) : List Nat → Array Bool
  | [] => a
  | i :: is => tableOnto ((a ++ Array.replicate (i - a.size) false).push true) is

def table (s : NodeSet) : Array Bool := tableOnto #[] s.toList

theorem tableOnto_getD (a : Array Bool) (is : List Nat) (j : Nat)
    (h : is.Pairwise (compare · · = .lt)) (ha : ∀ i ∈ is, a.size ≤ i) :
    (tableOnto a is).getD j false = (a.getD j false || is.contains j) := by
  induction is generalizing a with
  | nil => simp [tableOnto]
  | cons i is ih =>
    rw [List.pairwise_cons] at h
    have hi := ha i List.mem_cons_self
    have hs : (a ++ Array.replicate (i - a.size) false).size = i := by
      simp only [Array.size_append, Array.size_replicate]
      omega
    rw [tableOnto, ih _ h.2]
    · simp only [Array.getD_eq_getD_getElem?, Array.getElem?_push, hs, List.contains_cons]
      by_cases hj : j = i
      · simp [hj]
      · rw [if_neg hj, Array.getElem?_append, beq_eq_false_iff_ne.2 hj]
        split
        · simp
        · simp only [Array.getElem?_replicate]
          split <;> simp_all
    · intro k hk
      have := Nat.compare_eq_lt.1 (h.1 k hk)
      rw [Array.size_push, hs]
      exact this

theorem table_getD (s : NodeSet) (j : Nat) : s.table.getD j false = s.contains j := by
  rw [table, tableOnto_getD _ _ _ s.increasing (by simp)]
  simp [OrderedSet.contains]

end NodeSet

/-- The elements of a list in the order in which each first occurs. -/
def firsts [BEq α] : List α → List α
  | [] => []
  | x :: xs => x :: (firsts xs).filter (!· == x)

theorem mem_firsts [BEq α] [LawfulBEq α] {a : α} (xs : List α) : a ∈ firsts xs ↔ a ∈ xs := by
  induction xs with
  | nil => rfl
  | cons x xs ih =>
    rw [firsts, List.mem_cons, List.mem_filter, ih, List.mem_cons]
    by_cases h : a = x <;> simp [h]

theorem nodup_firsts [BEq α] [LawfulBEq α] (xs : List α) : (firsts xs).Nodup := by
  induction xs with
  | nil => exact List.nodup_nil
  | cons x xs ih =>
    refine List.nodup_cons.2 ⟨fun h => ?_, ih.filter _⟩
    simpa using (List.mem_filter.1 h).2

end BytecodeFlow
