/-!
Stable sorting by blocks: blocks of twenty are sorted by insertion, and neighbours are merged until
one is left. Two runs are merged in place by splitting both around the middle of the whole, so that
the lower part of one meets the lower part of the other.

For a test that comes from a linear order the result is the sorted list. It is defined for every
test, and for one that is not transitive it depends on which elements are compared.
-/

namespace BytecodeFlow.BlockSort

/-- The least index from `lo` to `hi` where `p` does not hold, found by halving; `p` holds up to
some index and not after it. -/
def search (p : Nat → Bool) (lo hi : Nat) : Nat :=
  if lo < hi then
    let middle := (lo + hi) / 2
    if p middle then search p (middle + 1) hi else search p lo middle
  else lo
termination_by hi - lo
decreasing_by all_goals omega

theorem search_le (p : Nat → Bool) {lo hi : Nat} (h : lo ≤ hi) : search p lo hi ≤ hi := by
  fun_induction search p lo hi with
  | case1 lo hi _ _ _ ih => exact ih (by omega)
  | case2 lo hi _ _ _ ih => exact Nat.le_trans (ih (by omega)) (by omega)
  | case3 lo hi _ => exact h

variable {α : Type}

def isBefore (before : α → α → Bool) (xs : Array α) (i j : Nat) : Bool :=
  match xs[i]?, xs[j]? with
  | some x, some y => before x y
  | _, _ => false

def insertLeft (before : α → α → Bool) (x : α) (xs : List α) : List α :=
  let run := xs.toArray
  let i := search (fun i => (run[i]?.map (before · x)).getD false) 0 run.size
  xs.take i ++ x :: xs.drop i

def insertRight (before : α → α → Bool) (x : α) (xs : List α) : List α :=
  let run := xs.toArray
  let i := search (fun i => !(run[i]?.map (before x ·)).getD false) 0 run.size
  xs.take i ++ x :: xs.drop i

/-- How much of the left one of two runs belongs below the middle of both. Places are tried in pairs
that lie opposite each other around the end of the left run. -/
def splitPoint (before : α → α → Bool) (l r : List α) : Nat :=
  let all := (l ++ r).toArray
  let middle := all.size / 2
  let opposite := middle + l.length
  let start := if middle < l.length then opposite - all.size else 0
  search (fun i => !isBefore before all (opposite - 1 - i) i) start (min middle l.length)

theorem splitPoint_le (before : α → α → Bool) (l r : List α) :
    splitPoint before l r ≤ (l.length + r.length) / 2 := by
  unfold splitPoint
  have h : (l ++ r).toArray.size = l.length + r.length := by simp
  simp only [h]
  refine Nat.le_trans (search_le _ ?_) (Nat.min_le_left _ _)
  split <;> omega

def merge (before : α → α → Bool) (l r : List α) : List α :=
  match l, r with
  | [], r => r
  | l, [] => l
  | [x], r => insertLeft before x r
  | l, [y] => insertRight before y l
  | x :: x' :: l, y :: y' :: r =>
    let left := x :: x' :: l
    let right := y :: y' :: r
    let i := splitPoint before left right
    let j := (left.length + right.length) / 2 - i
    merge before (left.take i) (right.take j) ++ merge before (left.drop i) (right.drop j)
termination_by l.length + r.length
decreasing_by
  all_goals
    have := splitPoint_le before (x :: x' :: l) (y :: y' :: r)
    simp only [List.length_take, List.length_drop, List.length_cons] at *
    omega

def insertLast (before : α → α → Bool) (x : α) : List α → List α
  | [] => [x]
  | y :: rest => if before x y then y :: insertLast before x rest else x :: y :: rest

def insertion (before : α → α → Bool) (xs : List α) : List α :=
  (xs.foldl (fun done x => insertLast before x done) []).reverse

def blockSize : Nat := 20

def blocks (xs : List α) : List (List α) :=
  match xs with
  | [] => []
  | x :: rest => (x :: rest).take blockSize :: blocks ((x :: rest).drop blockSize)
termination_by xs.length
decreasing_by
  simp only [List.length_drop, List.length_cons, blockSize]
  omega

def mergePairs (before : α → α → Bool) : List (List α) → List (List α)
  | a :: b :: rest => merge before a b :: mergePairs before rest
  | runs => runs

theorem length_mergePairs (before : α → α → Bool) (runs : List (List α)) :
    (mergePairs before runs).length = (runs.length + 1) / 2 := by
  fun_induction mergePairs before runs with
  | case1 a b rest ih => simp only [List.length_cons, ih]; omega
  | case2 runs h =>
    match runs, h with
    | [], _ => simp
    | [_], _ => simp
    | a :: b :: rest, h => exact absurd rfl (h a b rest)

def mergeAll (before : α → α → Bool) (runs : List (List α)) : List α :=
  match runs with
  | [] => []
  | [run] => run
  | a :: b :: rest => mergeAll before (mergePairs before (a :: b :: rest))
termination_by runs.length
decreasing_by
  rw [length_mergePairs]
  simp only [List.length_cons]
  omega

def sort (before : α → α → Bool) (xs : List α) : List α :=
  mergeAll before ((blocks xs).map (insertion before))

end BytecodeFlow.BlockSort
