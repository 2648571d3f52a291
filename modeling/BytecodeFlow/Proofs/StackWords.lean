import BytecodeFlow.Proofs.Effect

/-!
The stack word by word. A long or double is one entry but two words, and the machine defines its stack
operations on words. An operation that splits no value does to the words of the stack what it says.
-/

namespace BytecodeFlow

open Effect

/-- A word of the stack: a value that takes one word, or half of a value that takes two. -/
inductive StackWord
  | whole (e : Entry)
  | upper (e : Entry)
  | lower (e : Entry)
  deriving DecidableEq, Repr

def Entry.words (e : Entry) : List StackWord :=
  if isPair e then [.upper e, .lower e] else [.whole e]

/-- The words of a stack, from the top down. -/
def stackWords (s : List Entry) : List StackWord := s.flatMap Entry.words

/-- The first `n` words are not cut off in the middle of a value. -/
def CutsBetween (n : Nat) (ws : List StackWord) : Prop := ∀ e, ws[n]? ≠ some (.lower e)

/-- What the machine does to the words on top of its stack. -/
inductive WordMove
  | remove (n : Nat)
  /-- Copies the top `n` words and inserts the copy `below` words under them. -/
  | copy (n below : Nat)
  | exchange

namespace WordMove

def apply : WordMove → List StackWord → List StackWord
  | remove n, ws => ws.drop n
  | copy n below, ws => ws.take (n + below) ++ ws.take n ++ ws.drop (n + below)
  | exchange, v :: w :: ws => w :: v :: ws
  | exchange, ws => ws

/-- The words that must be there. -/
def depth : WordMove → Nat
  | remove n => n
  | copy n below => n + below
  | exchange => 2

/-- Where the words that are moved end, and those that they are moved past. -/
def cuts : WordMove → List Nat
  | remove n => [n]
  | copy n below => [n, n + below]
  | exchange => [1, 2]

end WordMove

namespace Shuffle

def opcode : Shuffle → Opcode
  | pop => ⟨87⟩
  | pop2 => ⟨88⟩
  | dup => ⟨89⟩
  | dupX1 => ⟨90⟩
  | dupX2 => ⟨91⟩
  | dup2 => ⟨92⟩
  | dup2X1 => ⟨93⟩
  | dup2X2 => ⟨94⟩
  | swap => ⟨95⟩

theorem operation_opcode (k : Shuffle) : k.opcode.operation = .shuffle k := by
  cases k <;> rfl

def move : Shuffle → WordMove
  | pop => .remove 1
  | pop2 => .remove 2
  | dup => .copy 1 0
  | dupX1 => .copy 1 1
  | dupX2 => .copy 1 2
  | dup2 => .copy 2 0
  | dup2X1 => .copy 2 1
  | dup2X2 => .copy 2 2
  | swap => .exchange

end Shuffle

section Words

variable {e : Entry} {s t : List Entry} {m n : Nat}

@[simp] theorem stackWords_nil : stackWords [] = [] := rfl

@[simp] theorem stackWords_cons : stackWords (e :: s) = e.words ++ stackWords s := rfl

@[simp] theorem stackWords_append : stackWords (s ++ t) = stackWords s ++ stackWords t :=
  List.flatMap_append

theorem Entry.words_of_pair (h : isPair e = true) : e.words = [.upper e, .lower e] := by
  simp [words, h]

theorem Entry.words_of_single (h : isPair e = false) : e.words = [.whole e] := by
  simp [words, h]

theorem Entry.length_words : e.words.length = if isPair e then 2 else 1 := by
  rw [words]
  split <;> rfl

/-- A cut between two values is a place between two entries. -/
theorem exists_append_of_cutsBetween (hc : CutsBetween n (stackWords s))
    (hn : n ≤ (stackWords s).length) : ∃ a b, s = a ++ b ∧ (stackWords a).length = n := by
  induction s generalizing n with
  | nil => exact ⟨[], [], rfl, (Nat.le_zero.1 hn).symm⟩
  | cons e s ih =>
    cases n with
    | zero => exact ⟨[], e :: s, rfl, rfl⟩
    | succ n =>
      cases hp : isPair e with
      | false =>
        rw [stackWords_cons, Entry.words_of_single hp] at hc hn
        obtain ⟨a, b, rfl, ha⟩ := ih (n := n) hc (Nat.le_of_succ_le_succ hn)
        exact ⟨e :: a, b, rfl, by simp [Entry.words_of_single hp, ha]⟩
      | true =>
        rw [stackWords_cons, Entry.words_of_pair hp] at hc hn
        cases n with
        | zero => exact absurd rfl (hc e)
        | succ n =>
          obtain ⟨a, b, rfl, ha⟩ := ih (n := n) hc (by simpa using hn)
          exact ⟨e :: a, b, rfl, by simp [Entry.words_of_pair hp, ha]⟩

theorem CutsBetween.of_append (h : CutsBetween (m + n) (stackWords (s ++ t)))
    (hs : (stackWords s).length = m) : CutsBetween n (stackWords t) := by
  intro e he
  apply h e
  rw [stackWords_append, List.getElem?_append_right (by omega), hs, Nat.add_sub_cancel_left]
  exact he

theorem exists_append_append_of_cutsBetween (hm : CutsBetween m (stackWords s))
    (hn : CutsBetween (m + n) (stackWords s)) (hlen : m + n ≤ (stackWords s).length) :
    ∃ a b c, s = a ++ (b ++ c) ∧ (stackWords a).length = m ∧ (stackWords b).length = n := by
  obtain ⟨a, r, rfl, ha⟩ := exists_append_of_cutsBetween hm (by omega)
  rw [stackWords_append, List.length_append] at hlen
  obtain ⟨b, c, rfl, hb⟩ := exists_append_of_cutsBetween (hn.of_append ha) (by omega)
  exact ⟨a, b, c, rfl, ha, hb⟩

theorem eq_nil_of_no_words (h : (stackWords s).length = 0) : s = [] := by
  cases s with
  | nil => rfl
  | cons e s =>
    rw [stackWords_cons, List.length_append, Entry.length_words] at h
    split at h <;> omega

theorem eq_single_of_one_word (h : (stackWords s).length = 1) : ∃ e, isPair e = false ∧ s = [e] := by
  cases s with
  | nil => cases h
  | cons e s =>
    rw [stackWords_cons, List.length_append, Entry.length_words] at h
    split at h
    next => omega
    next hp => exact ⟨e, by simpa using hp, by rw [eq_nil_of_no_words (s := s) (by omega)]⟩

theorem eq_of_two_words (h : (stackWords s).length = 2) :
    (∃ e, isPair e = true ∧ s = [e]) ∨
      ∃ e e', isPair e = false ∧ isPair e' = false ∧ s = [e, e'] := by
  cases s with
  | nil => cases h
  | cons e s =>
    rw [stackWords_cons, List.length_append, Entry.length_words] at h
    split at h
    next hp => exact .inl ⟨e, hp, by rw [eq_nil_of_no_words (s := s) (by omega)]⟩
    next hp =>
      obtain ⟨e', hp', rfl⟩ := eq_single_of_one_word (s := s) (by omega)
      exact .inr ⟨e, e', by simpa using hp, hp', rfl⟩

end Words

section Moves

variable {k : Shuffle} {s t a b rest : List Entry} {n below : Nat}

theorem shuffle_remove (hk : k.move = .remove n) (ha : (stackWords a).length = n) :
    shuffle k (a ++ rest) = .ok rest := by
  cases k <;> cases hk
  case pop =>
    obtain ⟨e, -, rfl⟩ := eq_single_of_one_word ha
    rfl
  case pop2 =>
    obtain ⟨e, hp, rfl⟩ | ⟨e, e', hp, -, rfl⟩ := eq_of_two_words ha <;> simp [shuffle, hp]

theorem shuffle_copy (hk : k.move = .copy n below) (ha : (stackWords a).length = n)
    (hb : (stackWords b).length = below) :
    shuffle k (a ++ (b ++ rest)) = .ok (a ++ (b ++ (a ++ rest))) := by
  cases k <;> cases hk
  case dup =>
    obtain ⟨e, -, rfl⟩ := eq_single_of_one_word ha
    cases eq_nil_of_no_words hb
    rfl
  case dupX1 =>
    obtain ⟨e, -, rfl⟩ := eq_single_of_one_word ha
    obtain ⟨e', -, rfl⟩ := eq_single_of_one_word hb
    rfl
  case dupX2 =>
    obtain ⟨e, -, rfl⟩ := eq_single_of_one_word ha
    obtain ⟨e', hp, rfl⟩ | ⟨e', e'', hp, -, rfl⟩ := eq_of_two_words hb <;> simp [shuffle, hp]
  case dup2 =>
    cases eq_nil_of_no_words hb
    obtain ⟨e, hp, rfl⟩ | ⟨e, e', hp, -, rfl⟩ := eq_of_two_words ha <;> simp [shuffle, hp]
  case dup2X1 =>
    obtain ⟨x, -, rfl⟩ := eq_single_of_one_word hb
    obtain ⟨e, hp, rfl⟩ | ⟨e, e', hp, -, rfl⟩ := eq_of_two_words ha <;> simp [shuffle, hp]
  case dup2X2 =>
    obtain ⟨e, hp, rfl⟩ | ⟨e, e', hp, -, rfl⟩ := eq_of_two_words ha <;>
      obtain ⟨x, hx, rfl⟩ | ⟨x, x', hx, -, rfl⟩ := eq_of_two_words hb <;> simp [shuffle, hp, hx]

theorem shuffle_exchange (hk : k.move = .exchange) (ha : (stackWords a).length = 1)
    (hb : (stackWords b).length = 1) :
    shuffle k (a ++ (b ++ rest)) = .ok (b ++ (a ++ rest)) := by
  obtain ⟨e, -, rfl⟩ := eq_single_of_one_word ha
  obtain ⟨e', -, rfl⟩ := eq_single_of_one_word hb
  cases k <;> cases hk
  rfl

/-- No operation makes do with fewer words than it moves or moves past. -/
theorem depth_le_of_shuffle (h : shuffle k s = .ok t) : k.move.depth ≤ (stackWords s).length := by
  revert h
  fun_cases shuffle k s <;> intro h <;> cases h
  all_goals
    simp only [Shuffle.move, WordMove.depth, stackWords_cons, List.length_append, Entry.length_words]
    grind

theorem exists_stackWords_shuffle (hc : ∀ n ∈ k.move.cuts, CutsBetween n (stackWords s))
    (hd : k.move.depth ≤ (stackWords s).length) :
    ∃ t, shuffle k s = .ok t ∧ stackWords t = k.move.apply (stackWords s) := by
  cases hk : k.move with
  | remove n =>
    rw [hk] at hc hd
    obtain ⟨a, b, rfl, ha⟩ := exists_append_of_cutsBetween (hc n (by simp [WordMove.cuts])) hd
    refine ⟨b, shuffle_remove hk ha, ?_⟩
    simp [WordMove.apply, ← ha]
  | copy n below =>
    rw [hk] at hc hd
    obtain ⟨a, b, c, rfl, ha, hb⟩ := exists_append_append_of_cutsBetween
      (hc n (by simp [WordMove.cuts])) (hc (n + below) (by simp [WordMove.cuts])) hd
    refine ⟨_, shuffle_copy hk ha hb, ?_⟩
    simp [WordMove.apply, ← ha, ← hb, List.take_append, List.drop_append,
      List.take_of_length_le (Nat.le_add_right _ _), List.drop_of_length_le (Nat.le_add_right _ _)]
  | exchange =>
    rw [hk] at hc hd
    obtain ⟨a, b, c, rfl, ha, hb⟩ := exists_append_append_of_cutsBetween (n := 1)
      (hc 1 (by simp [WordMove.cuts])) (hc 2 (by simp [WordMove.cuts])) hd
    refine ⟨_, shuffle_exchange hk ha hb, ?_⟩
    obtain ⟨e, he, rfl⟩ := eq_single_of_one_word ha
    obtain ⟨e', he', rfl⟩ := eq_single_of_one_word hb
    simp [WordMove.apply, Entry.words_of_single he, Entry.words_of_single he']

/-- The stack operations move words: where none of them is half of a value that is split, the stack
afterwards has the words that the machine asks for, each with its type and producer, and the locals stay;
only too few words are a fault. -/
theorem shuffles_move_words (ctx : Effect.Context) (node : Int) (k : Shuffle) (instr : Instruction)
    (hop : instr.op = k.opcode) (f : Frame)
    (hc : ∀ n ∈ k.move.cuts, CutsBetween n (stackWords f.stack)) :
    (k.move.depth ≤ (stackWords f.stack).length →
      ∃ stack, apply ctx node instr f = .ok ⟨f.locals, stack⟩ ∧
        stackWords stack = k.move.apply (stackWords f.stack)) ∧
    ((stackWords f.stack).length < k.move.depth →
      ∃ cause, apply ctx node instr f = .error (.fault cause)) := by
  have happ : apply ctx node instr f = (orFault (shuffle k f.stack)).map fun stack => ⟨f.locals, stack⟩ := by
    have hk : instr.operation = .shuffle k := by rw [Instruction.operation, hop, k.operation_opcode]
    simp only [apply, hk]
    rfl
  rw [happ]
  constructor
  · intro hd
    obtain ⟨stack, hs, hw⟩ := exists_stackWords_shuffle hc hd
    exact ⟨stack, by rw [hs]; rfl, hw⟩
  · intro hd
    cases hs : shuffle k f.stack with
    | ok t => exact absurd (depth_le_of_shuffle hs) (Nat.not_le_of_lt hd)
    | error cause => exact ⟨cause, rfl⟩

/-- Two single values over a long, with a float underneath. -/
def mixedStack : List Entry := [⟨.int, 5⟩, ⟨.null, 4⟩, ⟨.long, 3⟩, ⟨.float, 2⟩]

theorem shuffles_move_words_mixed :
    (∃ stack, apply ⟨{}, false⟩ 6 { offset := 9, op := ⟨94⟩ } ⟨[⟨.int, -1⟩], mixedStack⟩ =
        .ok ⟨[⟨.int, -1⟩], stack⟩ ∧
      stackWords stack = [.whole ⟨.int, 5⟩, .whole ⟨.null, 4⟩, .upper ⟨.long, 3⟩, .lower ⟨.long, 3⟩,
        .whole ⟨.int, 5⟩, .whole ⟨.null, 4⟩, .whole ⟨.float, 2⟩]) ∧
    ∃ cause, apply ⟨{}, false⟩ 6 { offset := 9, op := ⟨93⟩ } ⟨[], [⟨.double, 5⟩]⟩ =
      .error (.fault cause) := by
  have mixed : ∀ n ∈ Shuffle.dup2X2.move.cuts, CutsBetween n (stackWords mixedStack) := by
    intro n hn e
    obtain rfl | rfl : n = 2 ∨ n = 4 := by simpa [Shuffle.move, WordMove.cuts] using hn
    all_goals
      intro h
      cases h
  have short : ∀ n ∈ Shuffle.dup2X1.move.cuts, CutsBetween n (stackWords [⟨.double, 5⟩]) := by
    intro n hn e
    obtain rfl | rfl : n = 2 ∨ n = 3 := by simpa [Shuffle.move, WordMove.cuts] using hn
    all_goals
      intro h
      cases h
  constructor
  · exact (shuffles_move_words _ _ .dup2X2 _ rfl ⟨_, _⟩ mixed).1 (by decide)
  · exact (shuffles_move_words _ _ .dup2X1 _ rfl ⟨_, _⟩ short).2 (by decide)

end Moves

end BytecodeFlow
