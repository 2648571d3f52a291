import BytecodeFlow.Text.Basic
import BytecodeFlow.Text.Quoted
import BytecodeFlow.ValueType

namespace BytecodeFlow

structure Signature where
  params : List ValueType
  result : Option ValueType
  deriving DecidableEq, Repr

def Signature.slots (s : Signature) : Nat := s.params.foldr (fun t n => t.size + n) 0

namespace Descriptor

inductive Error
  | empty
  | emptyClass (text : String)
  | unterminatedClass (text : String)
  | unknown (text : String)
  | fieldTrailing (descriptor rest : String)
  | noOpening (descriptor : String)
  | noClosing (descriptor : String)
  | methodTrailing (descriptor rest : String)
  | inMethod (descriptor : String) (cause : Error)
  deriving DecidableEq, Repr

def Error.message : Error → String
  | empty => "empty descriptor"
  | emptyClass s => "empty class name in " ++ Text.Quoted.write s
  | unterminatedClass s => "unterminated class name in " ++ Text.Quoted.write s
  | unknown s => "invalid descriptor " ++ Text.Quoted.write s
  | fieldTrailing d r =>
    "field descriptor " ++ Text.Quoted.write d ++ ": trailing " ++ Text.Quoted.write r
  | noOpening d => "method descriptor " ++ Text.Quoted.write d ++ ": missing '('"
  | noClosing d => "method descriptor " ++ Text.Quoted.write d ++ ": missing ')'"
  | methodTrailing d r =>
    "method descriptor " ++ Text.Quoted.write d ++ ": trailing " ++ Text.Quoted.write r
  | inMethod d e => "method descriptor " ++ Text.Quoted.write d ++ ": " ++ e.message

def scalar : List Char → Except Error (ValueType × List Char)
  | [] => .error .empty
  | 'B' :: cs => .ok (.int, cs)
  | 'C' :: cs => .ok (.int, cs)
  | 'I' :: cs => .ok (.int, cs)
  | 'S' :: cs => .ok (.int, cs)
  | 'Z' :: cs => .ok (.int, cs)
  | 'J' :: cs => .ok (.long, cs)
  | 'F' :: cs => .ok (.float, cs)
  | 'D' :: cs => .ok (.double, cs)
  | 'L' :: cs =>
    match cs.dropWhile (· != ';') with
    | [] => .error (.unterminatedClass (String.ofList ('L' :: cs)))
    | _ :: rest =>
      match cs.takeWhile (· != ';') with
      | [] => .error (.emptyClass (String.ofList ('L' :: cs)))
      | name => .ok (.object (String.ofList name), rest)
  | cs => .error (.unknown (String.ofList cs))

def fieldType : List Char → Except Error (ValueType × List Char)
  | '[' :: cs =>
    match scalar (cs.dropWhile (· == '[')) with
    | .error e => .error e
    | .ok (_, rest) =>
      .ok (.object (String.ofList ('[' :: cs.take (cs.length - rest.length))), rest)
  | cs => scalar cs

theorem length_of_scalar {cs rest : List Char} {t : ValueType} (h : scalar cs = .ok (t, rest)) :
    rest.length < cs.length := by
  unfold scalar at h
  split at h <;> try (simp at h; done)
  all_goals try (simp only [Except.ok.injEq, Prod.mk.injEq] at h; obtain ⟨_, rfl⟩ := h; simp)
  case h_10 ds =>
    have hd := Text.length_dropWhile_le (· != ';') ds
    split at h
    · simp at h
    · rename_i heq
      rw [heq] at hd
      split at h
      · simp at h
      · simp only [Except.ok.injEq, Prod.mk.injEq] at h
        obtain ⟨_, rfl⟩ := h
        simp only [List.length_cons] at *
        omega

theorem length_of_fieldType {cs rest : List Char} {t : ValueType}
    (h : fieldType cs = .ok (t, rest)) : rest.length < cs.length := by
  unfold fieldType at h
  split at h
  · rename_i r
    split at h
    · simp at h
    · rename_i hs
      have h₁ := length_of_scalar hs
      have h₂ := Text.length_dropWhile_le (· == '[') r
      simp only [Except.ok.injEq, Prod.mk.injEq] at h
      obtain ⟨_, rfl⟩ := h
      simp only [List.length_cons]
      omega
  · exact length_of_scalar h

def params (whole : String) : List Char → Except Error (List ValueType × List Char)
  | [] => .error (.noClosing whole)
  | c :: cs =>
    if c = ')' then .ok ([], cs)
    else match h : fieldType (c :: cs) with
      | .error e => .error (.inMethod whole e)
      | .ok (t, rest) =>
        have := length_of_fieldType h
        match params whole rest with
        | .error e => .error e
        | .ok (ts, rest) => .ok (t :: ts, rest)
termination_by cs => cs.length
decreasing_by exact this

def field (descriptor : String) : Except Error ValueType := do
  let (t, rest) ← fieldType descriptor.toList
  if rest.isEmpty then return t
  else .error (.fieldTrailing descriptor (String.ofList rest))

def result (whole : String) (cs : List Char) : Except Error (Option ValueType) :=
  if cs = ['V'] then .ok none
  else match fieldType cs with
    | .error e => .error (.inMethod whole e)
    | .ok (t, []) => .ok (some t)
    | .ok (_, rest) => .error (.methodTrailing whole (String.ofList rest))

def method (descriptor : String) : Except Error Signature :=
  match descriptor.toList with
  | '(' :: cs => do
    let (ts, rest) ← params descriptor cs
    return ⟨ts, ← result descriptor rest⟩
  | _ => .error (.noOpening descriptor)

def element (array : ValueType) : ValueType :=
  if array.isArray then
    -- a name may start with a bracket and be no descriptor all the same
    match field (String.ofList (array.name.toList.drop 1)) with
    | .ok t => t
    | .error _ => .object objectClass
  else .object objectClass

end Descriptor

end BytecodeFlow
