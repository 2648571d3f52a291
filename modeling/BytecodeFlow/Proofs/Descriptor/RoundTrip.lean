import BytecodeFlow.Proofs.Descriptor.Grammar
import Mathlib.Data.List.Basic

/-!
Descriptors that are written and read again. A type has one name for a class or an array, and what is written
goes by the first character of that name: a class whose name starts with a bracket is written as if it were an
array. All other types come back as they were, and so do the elements of an array that was made for them.
-/

namespace BytecodeFlow.Descriptor

namespace FieldType

theorem isArrayName_text_array (more : Nat) (s : Scalar) : isArrayName (array more s).text = true := by
  simp [isArrayName, text, chars]

theorem isArrayName_text_scalar (s : Scalar) : isArrayName (scalar s).text = false := by
  obtain ⟨c, cs, hs, hc⟩ := s.chars_eq_cons
  simpa [isArrayName, text, chars, hs] using List.ne_of_not_mem_cons hc

theorem text_reference (n : ClassName) : (scalar (.reference n)).text = "L" ++ n.text ++ ";" := by
  apply String.toList_injective
  simp [text, chars, Scalar.chars]

/-- Only a reference has a class name between its ends. -/
theorem exists_of_text_eq {f : FieldType} {n : String} (h : f.text = "L" ++ n ++ ";") :
    ∃ name : ClassName, name.text = n ∧ f = scalar (.reference name) := by
  have hchars : f.chars = 'L' :: (n.toList ++ [';']) := by
    simpa [text] using congrArg String.toList h
  cases f with
  | array more s => exact absurd (List.cons.inj hchars).1 (by decide)
  | scalar s =>
    cases s with
    | primitive p => exact absurd (List.cons.inj hchars).1 (p.letter_ne (by decide))
    | reference name =>
      have hname := List.append_cancel_right (List.cons.inj hchars).2
      exact ⟨name, String.toList_injective hname, rfl⟩

/-- Only a primitive type is written as one of the letters that widen. -/
theorem text_not_mem_short {f : FieldType} (hf : ∀ p, f ≠ scalar (.primitive p)) :
    f.text ∉ ["B", "C", "S", "Z"] := by
  have htexts : ["B", "C", "S", "Z"] =
      ([Primitive.byte, .char, .short, .boolean].map fun p => scalar (.primitive p)).map text := by
    decide +kernel
  rw [htexts, List.mem_map_of_injective text_injective, List.mem_map]
  rintro ⟨p, -, rfl⟩
  exact hf p rfl

end FieldType

/-- What an instruction may name for a class: a plain name, or the descriptor of an array. -/
inductive ClassOperand : String → Prop
  | name {c : String} : c ≠ "" → ';' ∉ c.toList → isArrayName c = false → ClassOperand c
  | array {c : String} {t : ValueType} : isArrayName c = true → field c = .ok t → ClassOperand c

theorem field_of_isArrayName {c : String} {t : ValueType} (hc : isArrayName c = true)
    (h : field c = .ok t) : t = .object c := by
  obtain ⟨f, rfl, rfl⟩ := field_eq_ok.1 h
  cases f with
  | scalar s => simp [FieldType.isArrayName_text_scalar] at hc
  | array more s => rfl

/-- The descriptor that is written for a name is read as the reference with that name. -/
theorem field_descriptorOfName {c : String} (h : ClassOperand c) :
    field (ValueType.descriptorOfName c) = .ok (.object c) := by
  cases h with
  | name hne hplain hname =>
    rw [ValueType.descriptorOfName, hname]
    exact field_eq_ok.2 ⟨.scalar (.reference ⟨c, hne, hplain⟩), FieldType.text_reference _, rfl⟩
  | array hname hfield =>
    rw [ValueType.descriptorOfName, hname, if_pos rfl, hfield, field_of_isArrayName hname hfield]

theorem descriptor_primitive (p : Primitive) :
    ∃ q : Primitive, p.type.descriptor = (FieldType.scalar (.primitive q)).text ∧ q.type = p.type := by
  cases p with
  | byte | char | int | short | boolean => exact ⟨.int, by decide +kernel, rfl⟩
  | double => exact ⟨.double, by decide +kernel, rfl⟩
  | float => exact ⟨.float, by decide +kernel, rfl⟩
  | long => exact ⟨.long, by decide +kernel, rfl⟩

/-- A field type without a class name that starts with a bracket is written as it was read, or as `I`. -/
theorem descriptor_type {f : FieldType} (hf : ∀ n, isArrayName n = true → f.text ≠ "L" ++ n ++ ";") :
    f.type.descriptor = (if f.text ∈ ["B", "C", "S", "Z"] then "I" else f.text) ∧
      field f.type.descriptor = .ok f.type := by
  cases f with
  | scalar s =>
    cases s with
    | primitive p =>
      obtain ⟨q, hq, htype⟩ := descriptor_primitive p
      refine ⟨?_, field_eq_ok.2 ⟨_, hq.symm, htype⟩⟩
      cases p <;> decide +kernel
    | reference name =>
      have hname : isArrayName name.text = false :=
        Bool.eq_false_iff.2 fun h => hf _ h (FieldType.text_reference name)
      refine ⟨?_, field_descriptorOfName (.name name.ne_empty name.plain hname)⟩
      rw [if_neg (FieldType.text_not_mem_short (by simp)), FieldType.text_reference]
      exact if_neg (by simp [hname])
  | array more s =>
    have hname := FieldType.isArrayName_text_array more s
    refine ⟨?_, field_descriptorOfName (.array hname (field_eq_ok.2 ⟨_, rfl, rfl⟩))⟩
    rw [if_neg (FieldType.text_not_mem_short (by simp))]
    exact if_pos hname

/-- A name without semicolons is an array descriptor if and only if a single letter follows its brackets. -/
theorem field_className {name : ClassName} (hname : isArrayName name.text = true) {t : ValueType} :
    field name.text = .ok t ↔ t = .object name.text ∧
      ∃ (more : Nat) (p : Primitive), (FieldType.array more (.primitive p)).text = name.text := by
  constructor
  · intro h
    refine ⟨field_of_isArrayName hname h, ?_⟩
    obtain ⟨f, hf, -⟩ := field_eq_ok.1 h
    rw [← hf] at hname
    cases f with
    | scalar s => simp [FieldType.isArrayName_text_scalar] at hname
    | array more s =>
      cases s with
      | primitive p => exact ⟨more, p, hf⟩
      | reference n =>
        refine absurd ?_ name.plain
        rw [← hf]
        simp [FieldType.text, FieldType.chars, Scalar.chars]
  · rintro ⟨rfl, more, p, hp⟩
    exact field_eq_ok.2 ⟨_, hp, congrArg ValueType.object hp⟩

/-- A type that was read from a descriptor is written as that descriptor, or as `I` for a shorter integer, and
reads as itself again. The exception is a class whose name starts with a bracket: it is written as the bare
name, which is not what was read, and which reads as that type if a letter follows the brackets, and
otherwise not at all. -/
theorem descriptor_read_back {d : String} {t : ValueType} (h : field d = .ok t) :
    ((∀ n, isArrayName n = true → d ≠ "L" ++ n ++ ";") →
      t.descriptor = (if d ∈ ["B", "C", "S", "Z"] then "I" else d) ∧ field t.descriptor = .ok t) ∧
    ∀ n, isArrayName n = true → d = "L" ++ n ++ ";" →
      t.descriptor = n ∧ n ≠ d ∧
      ∀ u, field t.descriptor = .ok u ↔ u = t ∧
        ∃ (more : Nat) (p : Primitive), (FieldType.array more (.primitive p)).text = n := by
  obtain ⟨f, rfl, rfl⟩ := field_eq_ok.1 h
  refine ⟨descriptor_type, fun n hn hd => ?_⟩
  obtain ⟨name, rfl, rfl⟩ := FieldType.exists_of_text_eq hd
  have hwritten : (FieldType.scalar (.reference name)).type.descriptor = name.text := if_pos hn
  refine ⟨hwritten, fun heq => ?_, fun u => ?_⟩
  · rw [heq, FieldType.isArrayName_text_scalar] at hn
    cases hn
  · rw [hwritten]
    exact field_className hn

theorem descriptor_read_back_bracket :
    (field "Z" = .ok .int ∧ ValueType.int.descriptor = "I" ∧ field ValueType.int.descriptor = .ok .int) ∧
    field "L[x;" = .ok (.object "[x") ∧ (ValueType.object "[x").descriptor = "[x" ∧ "[x" ≠ "L[x;" ∧
    ∀ u, field "[x" ≠ .ok u := by
  have hshort : field "Z" = .ok .int := by decide +kernel
  have hread : field "L[x;" = .ok (.object "[x") := by decide +kernel
  have hagain : field "[x" = .error (.unknown "x") := by decide +kernel
  have hplain : ∀ n, isArrayName n = true → "Z" ≠ "L" ++ n ++ ";" := by
    intro n _ h
    simpa using congrArg String.toList h
  obtain ⟨hint, hback⟩ := (descriptor_read_back hshort).1 hplain
  obtain ⟨hdesc, hne, -⟩ := (descriptor_read_back hread).2 "[x" (by decide +kernel) (by decide +kernel)
  refine ⟨⟨hshort, hint, hback⟩, hread, hdesc, hne, fun u hu => ?_⟩
  rw [hagain] at hu
  cases hu

section Elements

variable {c d : String} {t : ValueType}

theorem element_bracket (h : field d = .ok t) (nonNull : Bool) :
    element (.reference ("[" ++ d) nonNull) = t := by
  have harray : (ValueType.reference ("[" ++ d) nonNull).isArray = true := by
    simp [ValueType.isArray, isArrayName]
  have hrest : String.ofList ((ValueType.reference ("[" ++ d) nonNull).name.toList.drop 1) = d := by
    simp [ValueType.name]
  rw [element, if_pos harray, hrest, h]

theorem arrayOf_eq (c : String) : Effect.arrayOf c = "[" ++ ValueType.descriptorOfName c := by
  rw [Effect.arrayOf, ValueType.descriptorOfName]
  split
  next => rfl
  next =>
    apply String.toList_injective
    simp

theorem element_arrayOf (h : ClassOperand c) :
    element (.nonNullObject (Effect.arrayOf c)) = .object c := by
  rw [arrayOf_eq]
  exact element_bracket (field_descriptorOfName h) true

/-- The elements of an array with a bracket before a descriptor are those that the descriptor tells. An array
that is made for a class has references of that class for elements, and a load from it pushes one that stems
from the load. -/
theorem elements_of_new_arrays :
    (∀ (d : String) (t : ValueType) (nonNull : Bool), field d = .ok t →
      element (.reference ("[" ++ d) nonNull) = t) ∧
    ∀ c : String, ClassOperand c → ∀ (ctx : Effect.Context) (node : Int) (create : Instruction),
      create.operation = .newObjectArray → create.className = c →
      ∀ (locals : List Entry) (count : Entry) (below : List Entry), ∃ array : ValueType,
        Effect.apply ctx node create ⟨locals, count :: below⟩ = .ok ⟨locals, ⟨array, node⟩ :: below⟩ ∧
        element array = .object c ∧
        ∀ (ctx : Effect.Context) (node : Int) (load : Instruction),
          load.operation = .arrayLoad .reference →
          ∀ (locals : List Entry) (index : Entry) (producer : Int) (below : List Entry),
            Effect.apply ctx node load ⟨locals, index :: ⟨array, producer⟩ :: below⟩ =
              .ok ⟨locals, ⟨.object c, node⟩ :: below⟩ := by
  refine ⟨fun d t nonNull h => element_bracket h nonNull, ?_⟩
  rintro _ hc ctx node create hcreate rfl locals count below
  have helement := element_arrayOf hc
  refine ⟨.nonNullObject (Effect.arrayOf create.className), ?_, helement, ?_⟩
  · simp only [Effect.apply, hcreate]
    rfl
  · intro ctx node load hload locals index producer below
    have hpushed : Effect.elementType .reference
        (.nonNullObject (Effect.arrayOf create.className)) = .object create.className := by
      simp only [Effect.elementType, helement]
      rfl
    simp only [Effect.apply, hload, hpushed]

end Elements

theorem elements_of_new_arrays_nested : element (.reference "[[J" false) = .object "[J" ∧
    ∃ array : ValueType,
      Effect.apply ⟨{}, false⟩ 3 { offset := 7, op := ⟨189⟩, className := "[J" } ⟨[], [⟨.int, 2⟩]⟩ =
        .ok ⟨[], [⟨array, 3⟩]⟩ ∧
      element array = .object "[J" ∧
      Effect.apply ⟨{}, false⟩ 5 { offset := 12, op := ⟨50⟩ } ⟨[], [⟨.int, 4⟩, ⟨array, 3⟩]⟩ =
        .ok ⟨[], [⟨.object "[J", 5⟩]⟩ := by
  have hfield : field "[J" = .ok (.object "[J") := by decide +kernel
  obtain ⟨hbracket, hcreated⟩ := elements_of_new_arrays
  obtain ⟨array, hnew, helement, hload⟩ := hcreated "[J" (.array (by decide +kernel) hfield) ⟨{}, false⟩ 3
    { offset := 7, op := ⟨189⟩, className := "[J" } (by decide) rfl [] ⟨.int, 2⟩ []
  exact ⟨hbracket "[J" _ false hfield, array, hnew, helement,
    hload ⟨{}, false⟩ 5 { offset := 12, op := ⟨50⟩ } (by decide) [] ⟨.int, 4⟩ 3 []⟩

end BytecodeFlow.Descriptor
