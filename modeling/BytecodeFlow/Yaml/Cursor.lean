namespace BytecodeFlow.Yaml

inductive Error
  | control (c : Char)
  | tabIndentation
  | unterminated
  | escape
  | blockHead
  | noToken (c : Char)
  | noColon
  | misplaced (mark : Char)
  | tooDeep
  | directive
  | anchorName
  | tag (text : String)
  | version
  | unexpected
  | unknownAnchor (name : String)
  | selfReference (name : String)
  | duplicateKey (key : String)
  | shape (needed : String)
  deriving DecidableEq, Repr

def isBlank (c : Char) : Bool := c == ' ' || c == '\t'

def isBreak (c : Char) : Bool :=
  c == '\n' || c.toNat == 0x85 || c.toNat == 0x2028 || c.toNat == 0x2029

def breakText (c : Char) : Char := if c.toNat == 0x85 then '\n' else c

def isWhite (c : Char) : Bool := isBlank c || isBreak c

def startsWhite : List Char → Bool
  | [] => true
  | c :: _ => isWhite c

def isAllowed (c : Char) : Bool :=
  let n := c.toNat
  n == 0x09 || n == 0x0a || n == 0x0d || (0x20 ≤ n && n ≤ 0x7e) || n == 0x85 ||
    (0xa0 ≤ n && n ≤ 0xfffd) || 0x10000 ≤ n

def plainBreaks (cs : List Char) : List Char :=
  let add (s : Bool × List Char) (c : Char) : Bool × List Char :=
    if c == '\n' && s.1 then (false, s.2)
    else if c == '\r' then (true, '\n' :: s.2)
    else (false, c :: s.2)
  (cs.foldl add (false, [])).2.reverse

def isByteOrderMark (c : Char) : Bool := c.toNat == 0xfeff

/-- A place in a text: what follows, the characters, lines and columns before it, and whether a line
ended since the last character that is no blank. -/
structure Cursor where
  rest : List Char
  index : Nat := 0
  line : Nat := 0
  column : Nat := 0
  fresh : Bool := false

namespace Cursor

def head? (c : Cursor) : Option Char := c.rest.head?

def next (c : Cursor) : Cursor :=
  match c.rest with
  | [] => c
  | x :: rest =>
    if isBreak x then
      { rest, index := c.index + 1, line := c.line + 1, column := 0, fresh := true }
    else
      { c with
        rest
        index := c.index + 1
        column := c.column + 1
        fresh := c.fresh && isBlank x }

def skip (c : Cursor) : Nat → Cursor
  | 0 => c
  | n + 1 => c.next.skip n

theorem rest_next (c : Cursor) : c.next.rest = c.rest.tail := by
  unfold next
  split
  · simp_all
  · split <;> simp_all

theorem rest_skip (c : Cursor) (n : Nat) : (c.skip n).rest = c.rest.drop n := by
  induction n generalizing c with
  | zero => rfl
  | succ n ih => rw [skip, ih, rest_next, List.drop_tail]

theorem length_skip (c : Cursor) (n : Nat) : (c.skip n).rest.length = c.rest.length - n := by
  rw [rest_skip, List.length_drop]

theorem length_next_lt {c : Cursor} {x : Char} (h : c.head? = some x) :
    c.next.rest.length < c.rest.length := by
  have : c.rest ≠ [] := fun empty => by simp [head?, empty] at h
  have := List.length_pos_iff.2 this
  rw [rest_next, List.length_tail]
  omega

def span (c : Cursor) (p : Char → Bool) : List Char := c.rest.takeWhile p

def skipWhile (c : Cursor) (p : Char → Bool) : Cursor := c.skip (c.span p).length

def atMarker (c : Cursor) : Bool :=
  c.column == 0 && match c.rest with
    | '-' :: '-' :: '-' :: rest => startsWhite rest
    | '.' :: '.' :: '.' :: rest => startsWhite rest
    | _ => false

def skipComment (c : Cursor) : Cursor := c.skipWhile (!isBreak ·)

theorem length_skipComment_le (c : Cursor) : c.skipComment.rest.length ≤ c.rest.length := by
  rw [skipComment, skipWhile, length_skip]
  omega

def commentReach : Nat := 512

def skipLineComment (c : Cursor) : Cursor :=
  if c.fresh then c
  else
    let blanks := (c.span isBlank).length
    let hash := c.skip blanks
    if blanks < commentReach && hash.head? == some '#' then hash.skipComment else c

def nextComment? (c : Cursor) : Option Nat :=
  let white := (c.span fun x => isBlank x || x == '\n').length
  if c.head? == some '\n' && white < commentReach && c.rest[white]? == some '#' then some white
  else none

theorem nextComment?_pos {c : Cursor} {n : Nat} (h : c.nextComment? = some n) :
    0 < n ∧ n < c.rest.length := by
  simp only [nextComment?] at h
  split at h
  · rename_i found
    simp only [Option.some.injEq] at h
    simp only [Bool.and_eq_true, beq_iff_eq, head?] at found
    obtain ⟨⟨first, _⟩, hash⟩ := found
    subst h
    refine ⟨?_, (List.getElem?_eq_some_iff.1 hash).1⟩
    unfold span
    match hc : c.rest with
    | [] => simp [hc] at first
    | x :: rest =>
      simp only [hc, List.head?_cons, Option.some.injEq] at first
      simp [first]
  · simp at h

theorem length_skip_nextComment {c : Cursor} {n : Nat}
    (h : c.skipComment.nextComment? = some n) :
    (c.skipComment.skip n).rest.length < c.rest.length := by
  have := nextComment?_pos h
  have := length_skipComment_le c
  rw [length_skip]
  omega

/-- Skips a comment and those in the lines after it, which may be indented in any way. -/
def skipComments (c : Cursor) : Cursor :=
  match h : c.skipComment.nextComment? with
  | some n =>
    have := length_skip_nextComment h
    skipComments (c.skipComment.skip n)
  | none => c.skipComment
termination_by c.rest.length

theorem length_skipComments_le (c : Cursor) : c.skipComments.rest.length ≤ c.rest.length := by
  fun_induction skipComments c with
  | case1 c n _ lt ih => exact Nat.le_trans ih (Nat.le_of_lt lt)
  | case2 c => exact length_skipComment_le c

def skipGap (c : Cursor) (tabs : Bool) : Cursor :=
  let marked := c.column == 0 && (c.head?.map isByteOrderMark).getD false
  let c := c.skip (if marked then 1 else 0)
  let c := c.skipWhile fun x => x == ' ' || (tabs && x == '\t')
  if c.head? == some '#' then c.skipComments else c

theorem length_skipGap_le (c : Cursor) (tabs : Bool) :
    (c.skipGap tabs).rest.length ≤ c.rest.length := by
  have comments (d : Cursor) :
      (if d.head? == some '#' then d.skipComments else d).rest.length ≤ d.rest.length := by
    split
    · exact length_skipComments_le d
    · exact Nat.le_refl _
  refine Nat.le_trans (comments _) ?_
  simp only [skipWhile, length_skip]
  omega

theorem length_next_skipGap {c : Cursor} {tabs : Bool} {x : Char}
    (h : (c.skipGap tabs).head? = some x) :
    (c.skipGap tabs).next.rest.length < c.rest.length :=
  Nat.lt_of_lt_of_le (length_next_lt h) (length_skipGap_le c tabs)

end Cursor

end BytecodeFlow.Yaml
