import BytecodeFlow.OrderedSet

/-!
Histories: for each node, what has run on some path that reached it. An exploration follows an edge
only if that adds to the history of its target.
-/

namespace BytecodeFlow

/-- A set for each node. The history of a path that ended early is unmergeable: what it knows must
not reach other paths. -/
structure History (α : Type) [Ord α] where
  sets : Array (OrderedSet α)
  unmergeable : Bool := false

namespace History

variable {α : Type} [Ord α]

def empty (nodes : Nat) : History α := { sets := Array.replicate nodes ∅ }

/-- The most nodes that memory can hold sets for. -/
def nodeLimit : Nat := 5026338869833

def empty? (nodes : Int) : Option (History α) :=
  if 0 ≤ nodes ∧ nodes ≤ nodeLimit then some (empty nodes.toNat) else none

def size (h : History α) : Nat := h.sets.size

def seenAt (h : History α) (node : Nat) : OrderedSet α := h.sets[node]?.getD ∅

@[specialize]
def contains [BEq α] (h : History α) (node : Nat) (seen : α) : Bool := (h.seenAt node).contains seen

def copy (h : History α) : History α := { h with unmergeable := false }

def mark (h : History α) : History α := { h with unmergeable := true }

section Growth

variable [BEq α] [Std.TransOrd α] [Std.LawfulEqOrd α]

/-- Unites a set into what is recorded at a node, and tells whether that grew. -/
@[specialize]
def unite (h : History α) (node : Nat) (set : OrderedSet α) : Bool × History α :=
  let old := h.seenAt node
  if set.subset old then (false, h)
  else (true, { h with sets := h.sets.setIfInBounds node (old.union set) })

@[specialize]
def add (h : History α) (node : Nat) (seen : α) : Bool × History α :=
  h.unite node (.singleton seen)

@[specialize]
def addAll (h : History α) (node source : Nat) : Bool × History α := h.unite node (h.seenAt source)

@[specialize]
def merge (h other : History α) : History α :=
  { h with sets := Array.zipWith OrderedSet.union h.sets other.sets }

structure Mismatch where
  other : Nat
  own : Nat
  deriving DecidableEq, Repr

def Mismatch.message (m : Mismatch) : String :=
  "history: merging tables of " ++ toString m.other ++ " and " ++ toString m.own ++ " nodes"

def merge? (h other : History α) : Except Mismatch (History α) :=
  if other.size = h.size then .ok (h.merge other) else .error ⟨other.size, h.size⟩

def index? (h : History α) (node : Int) : Option Nat :=
  if 0 ≤ node ∧ node < h.size then some node.toNat else none

/-- Like `addAll`, for any numbers: only two different ones must be nodes. -/
def addAll? (h : History α) (node source : Int) : Option (Bool × History α) :=
  if node = source then some (false, h)
  else do
    let node ← h.index? node
    return h.addAll node (← h.index? source)

end Growth

def subsets? [BEq α] : List (OrderedSet α) → List (OrderedSet α) → Option Bool
  | [], _ => some true
  | _ :: _, [] => none
  | s :: ss, t :: ts => if s.subset t then subsets? ss ts else some false

def subset? [BEq α] (h other : History α) : Option Bool :=
  subsets? h.sets.toList other.sets.toList

def renderSet [ToString α] (node : Nat) (s : OrderedSet α) : String :=
  toString node ++ ":" ++ s.render

def render [ToString α] (h : History α) : String :=
  " ".intercalate ((h.sets.toList.zipIdx.filter (!·.1.isEmpty)).map fun (s, i) => renderSet i s)

end History

end BytecodeFlow
