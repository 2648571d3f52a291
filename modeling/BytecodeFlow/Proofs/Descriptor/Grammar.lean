import BytecodeFlow.Descriptor
import BytecodeFlow.Proofs.Except

namespace BytecodeFlow.Descriptor

inductive Primitive
  | byte
  | char
  | double
  | float
  | int
  | long
  | short
  | boolean
  deriving DecidableEq, Repr

def Primitive.letter : Primitive → Char
  | byte => 'B'
  | char => 'C'
  | double => 'D'
  | float => 'F'
  | int => 'I'
  | long => 'J'
  | short => 'S'
  | boolean => 'Z'

def Primitive.type : Primitive → ValueType
  | byte => .int
  | char => .int
  | double => .double
  | float => .float
  | int => .int
  | long => .long
  | short => .int
  | boolean => .int

/-- A name that a semicolon can end. -/
structure ClassName where
  text : String
  ne_empty : text ≠ ""
  plain : ';' ∉ text.toList
  deriving DecidableEq

/-- A type that is not an array. -/
inductive Scalar
  | primitive (p : Primitive)
  | reference (name : ClassName)
  deriving DecidableEq

def Scalar.chars : Scalar → List Char
  | primitive p => [p.letter]
  | reference n => 'L' :: (n.text.toList ++ [';'])

def Scalar.type : Scalar → ValueType
  | primitive p => p.type
  | reference n => .object n.text

/-- A type, where an array has one bracket and some more before its element. -/
inductive FieldType
  | scalar (s : Scalar)
  | array (more : Nat) (s : Scalar)
  deriving DecidableEq

namespace FieldType

def chars : FieldType → List Char
  | scalar s => s.chars
  | array more s => '[' :: (List.replicate more '[' ++ s.chars)

def text (f : FieldType) : String := String.ofList f.chars

/-- The value type; an array is a reference with its own descriptor for a name. -/
def type : FieldType → ValueType
  | scalar s => s.type
  | array more s => .object (array more s).text

def long : FieldType := scalar (.primitive .long)

def double : FieldType := scalar (.primitive .double)

end FieldType

/-- The types of parameters and result; there is no result for `void`. -/
structure MethodType where
  params : List FieldType
  result : Option FieldType
  deriving DecidableEq

namespace MethodType

def resultChars : Option FieldType → List Char
  | none => ['V']
  | some f => f.chars

def chars (m : MethodType) : List Char :=
  '(' :: (m.params.flatMap FieldType.chars ++ ')' :: resultChars m.result)

def text (m : MethodType) : String := String.ofList m.chars

def signature (m : MethodType) : Signature :=
  ⟨m.params.map FieldType.type, m.result.map FieldType.type⟩

end MethodType

theorem takeWhile_append_of_stop {p : α → Bool} {xs : List α} {x : α} (hxs : ∀ a ∈ xs, p a = true)
    (hx : p x = false) (ys : List α) : (xs ++ x :: ys).takeWhile p = xs := by
  rw [List.takeWhile_append_of_pos hxs, List.takeWhile_cons_of_neg (by simp [hx]), List.append_nil]

theorem dropWhile_append_of_stop {p : α → Bool} {xs : List α} {x : α} (hxs : ∀ a ∈ xs, p a = true)
    (hx : p x = false) (ys : List α) : (xs ++ x :: ys).dropWhile p = x :: ys := by
  rw [List.dropWhile_append_of_pos hxs, List.dropWhile_cons_of_neg (by simp [hx])]

namespace ClassName

variable (n : ClassName)

theorem no_semicolon : ∀ c ∈ n.text.toList, (c != ';') = true := by
  intro c hc
  simpa using fun h : c = ';' => n.plain (h ▸ hc)

theorem takeWhile (rest : List Char) :
    (n.text.toList ++ ';' :: rest).takeWhile (· != ';') = n.text.toList :=
  takeWhile_append_of_stop n.no_semicolon rfl rest

theorem dropWhile (rest : List Char) :
    (n.text.toList ++ ';' :: rest).dropWhile (· != ';') = ';' :: rest :=
  dropWhile_append_of_stop n.no_semicolon rfl rest

theorem toList_ne_nil : n.text.toList ≠ [] := fun h => n.ne_empty (String.toList_eq_nil_iff.1 h)

theorem text_injective : Function.Injective text := by
  rintro ⟨_, _, _⟩ ⟨_, _, _⟩ rfl
  rfl

/-- Where a semicolon is found, what comes before it is a name unless it is nothing. -/
theorem exists_of_dropWhile {cs rest : List Char} {c : Char}
    (hdrop : cs.dropWhile (· != ';') = c :: rest) (hname : cs.takeWhile (· != ';') ≠ []) :
    ∃ n : ClassName, cs = n.text.toList ++ ';' :: rest := by
  have hplain : ∀ a ∈ cs.takeWhile (· != ';'), (a != ';') = true :=
    fun a ha => List.all_eq_true.1 List.all_takeWhile a ha
  obtain rfl : c = ';' := by
    simpa [hdrop] using List.head?_dropWhile_not (· != ';') cs
  refine ⟨⟨String.ofList (cs.takeWhile (· != ';')), by simpa using hname,
    by simpa using hplain ';'⟩, ?_⟩
  rw [String.toList_ofList, ← hdrop, List.takeWhile_append_dropWhile]

end ClassName

theorem Primitive.letter_injective : Function.Injective letter := by
  intro p q
  cases p <;> cases q <;> decide

theorem Primitive.letter_ne (p : Primitive) {c : Char} (hc : c ∈ ['L', '[', ')', 'V']) :
    p.letter ≠ c := by
  rintro rfl
  revert hc
  cases p <;> decide

namespace Scalar

variable {rest rest' : List Char}

theorem chars_eq_cons (s : Scalar) : ∃ c cs, s.chars = c :: cs ∧ c ∉ ['[', ')', 'V'] := by
  cases s with
  | primitive p => exact ⟨p.letter, [], rfl, fun h => p.letter_ne (List.mem_cons_of_mem _ h) rfl⟩
  | reference n => exact ⟨'L', n.text.toList ++ [';'], rfl, by decide⟩

theorem chars_append_ne (s : Scalar) {c : Char} (hc : c ∈ ['[', ')', 'V']) (rest ds : List Char) :
    s.chars ++ rest ≠ c :: ds := by
  obtain ⟨c', cs, hs, hc'⟩ := s.chars_eq_cons
  rw [hs]
  intro h
  exact hc' ((List.cons.inj h).1 ▸ hc)

theorem chars_append_inj {s s' : Scalar} (h : s.chars ++ rest = s'.chars ++ rest') :
    s = s' ∧ rest = rest' := by
  cases s with
  | primitive p =>
    cases s' with
    | primitive q =>
      obtain ⟨hletter, hrest⟩ := List.cons.inj h
      exact ⟨congrArg _ (Primitive.letter_injective hletter), hrest⟩
    | reference n => exact absurd (List.cons.inj h).1 (p.letter_ne (by decide))
  | reference n =>
    cases s' with
    | primitive q => exact absurd (List.cons.inj h).1.symm (q.letter_ne (by decide))
    | reference n' =>
      have h : n.text.toList ++ ';' :: rest = n'.text.toList ++ ';' :: rest' := by
        simpa [chars] using h
      have hname := congrArg (List.takeWhile (· != ';')) h
      have hrest := congrArg (List.dropWhile (· != ';')) h
      rw [n.takeWhile, n'.takeWhile] at hname
      rw [n.dropWhile, n'.dropWhile] at hrest
      exact ⟨congrArg _ (ClassName.text_injective (String.toList_injective hname)),
        (List.cons.inj hrest).2⟩

end Scalar

theorem scalar_chars (s : Scalar) (rest : List Char) : scalar (s.chars ++ rest) = .ok (s.type, rest) := by
  cases s with
  | primitive p => cases p <;> rfl
  | reference n =>
    have happend : (Scalar.reference n).chars ++ rest = 'L' :: (n.text.toList ++ ';' :: rest) := by
      simp [Scalar.chars]
    obtain ⟨c, cs, hname⟩ := List.exists_cons_of_ne_nil n.toList_ne_nil
    rw [happend, scalar, n.takeWhile, n.dropWhile]
    simp only [hname]
    rw [← hname, String.ofList_toList]
    rfl

theorem exists_of_scalar {cs rest : List Char} {t : ValueType} (h : scalar cs = .ok (t, rest)) :
    ∃ s : Scalar, cs = s.chars ++ rest := by
  have letter (p : Primitive) {u : ValueType} {ds : List Char}
      (h : (.ok (u, ds) : Except Error _) = .ok (t, rest)) :
      ∃ s : Scalar, p.letter :: ds = s.chars ++ rest := by
    cases h
    exact ⟨.primitive p, rfl⟩
  unfold scalar at h
  split at h
  case h_1 => cases h
  case h_2 => exact letter .byte h
  case h_3 => exact letter .char h
  case h_4 => exact letter .int h
  case h_5 => exact letter .short h
  case h_6 => exact letter .boolean h
  case h_7 => exact letter .long h
  case h_8 => exact letter .float h
  case h_9 => exact letter .double h
  case h_10 ds =>
    split at h
    next => cases h
    next c rest' hdrop =>
      split at h
      next => cases h
      next hname =>
        cases h
        obtain ⟨n, hn⟩ := ClassName.exists_of_dropWhile hdrop hname
        exact ⟨.reference n, by simp [Scalar.chars, hn]⟩
  case h_11 => cases h

namespace FieldType

variable {rest rest' : List Char}

theorem chars_eq_cons (f : FieldType) : ∃ c cs, f.chars = c :: cs ∧ c ∉ [')', 'V'] := by
  cases f with
  | scalar s =>
    obtain ⟨c, cs, hs, hc⟩ := s.chars_eq_cons
    exact ⟨c, cs, hs, List.not_mem_of_not_mem_cons hc⟩
  | array more s => exact ⟨'[', _, rfl, by decide⟩

theorem chars_append_ne (f : FieldType) {c : Char} (hc : c ∈ [')', 'V']) (rest ds : List Char) :
    f.chars ++ rest ≠ c :: ds := by
  cases f with
  | scalar s => exact s.chars_append_ne (List.mem_cons_of_mem _ hc) rest ds
  | array more s =>
    intro h
    rw [← (List.cons.inj h).1] at hc
    exact absurd hc (by decide)

theorem chars_ne_void (f : FieldType) : f.chars ≠ ['V'] := by
  rw [← f.chars.append_nil]
  exact f.chars_append_ne (by decide) [] []

theorem dropWhile_bracket (more : Nat) (s : Scalar) (rest : List Char) :
    (List.replicate more '[' ++ (s.chars ++ rest)).dropWhile (· == '[') = s.chars ++ rest := by
  obtain ⟨c, cs, hs, hc⟩ := s.chars_eq_cons
  rw [hs, List.cons_append]
  refine dropWhile_append_of_stop (fun a ha => ?_) ?_ _
  · simpa using List.eq_of_mem_replicate ha
  · simpa using List.ne_of_not_mem_cons hc

theorem chars_append_inj {f f' : FieldType} (h : f.chars ++ rest = f'.chars ++ rest') :
    f = f' ∧ rest = rest' := by
  cases f with
  | scalar s =>
    cases f' with
    | scalar s' =>
      obtain ⟨rfl, hrest⟩ := Scalar.chars_append_inj h
      exact ⟨rfl, hrest⟩
    | array more s' => exact absurd h (s.chars_append_ne (by decide) rest _)
  | array more s =>
    cases f' with
    | scalar s' => exact absurd h.symm (s'.chars_append_ne (by decide) rest' _)
    | array more' s' =>
      have h : List.replicate more '[' ++ (s.chars ++ rest) =
          List.replicate more' '[' ++ (s'.chars ++ rest') := by simpa [chars] using h
      have hdrop := congrArg (List.dropWhile (· == '[')) h
      rw [dropWhile_bracket, dropWhile_bracket] at hdrop
      obtain ⟨rfl, rfl⟩ := Scalar.chars_append_inj hdrop
      have hmore := congrArg List.length h
      simp only [List.length_append, List.length_replicate, Nat.add_right_cancel_iff] at hmore
      exact ⟨by rw [hmore], rfl⟩

end FieldType

theorem fieldType_chars (f : FieldType) (rest : List Char) :
    fieldType (f.chars ++ rest) = .ok (f.type, rest) := by
  cases f with
  | scalar s =>
    rw [FieldType.chars, fieldType]
    · exact scalar_chars s rest
    · intro ds hds
      exact s.chars_append_ne (by decide) rest ds hds
  | array more s =>
    have happend : (FieldType.array more s).chars ++ rest =
        '[' :: (List.replicate more '[' ++ (s.chars ++ rest)) := by simp [FieldType.chars]
    have htake : (List.replicate more '[' ++ (s.chars ++ rest)).take
        ((List.replicate more '[' ++ (s.chars ++ rest)).length - rest.length) =
        List.replicate more '[' ++ s.chars := by
      rw [← List.append_assoc, List.length_append, Nat.add_sub_cancel, List.take_left]
    rw [happend, fieldType, FieldType.dropWhile_bracket, scalar_chars]
    simp only [htake]
    rfl

theorem exists_of_fieldType {cs rest : List Char} {t : ValueType} (h : fieldType cs = .ok (t, rest)) :
    ∃ f : FieldType, cs = f.chars ++ rest := by
  unfold fieldType at h
  split at h
  next ds =>
    split at h
    next => cases h
    next hread =>
      cases h
      obtain ⟨s, hs⟩ := exists_of_scalar hread
      have hopen : ds.takeWhile (· == '[') = List.replicate (ds.takeWhile (· == '[')).length '[' :=
        List.eq_replicate_of_mem fun a ha => eq_of_beq (List.all_eq_true.1 List.all_takeWhile a ha)
      refine ⟨.array (ds.takeWhile (· == '[')).length s, ?_⟩
      rw [FieldType.chars, ← hopen, List.cons_append, List.append_assoc, ← hs,
        List.takeWhile_append_dropWhile]
  next =>
    obtain ⟨s, hs⟩ := exists_of_scalar h
    exact ⟨.scalar s, hs⟩

theorem fieldType_eq_ok {cs rest : List Char} {t : ValueType} :
    fieldType cs = .ok (t, rest) ↔ ∃ f : FieldType, cs = f.chars ++ rest ∧ t = f.type := by
  constructor
  · intro h
    obtain ⟨f, rfl⟩ := exists_of_fieldType h
    rw [fieldType_chars] at h
    cases h
    exact ⟨f, rfl, rfl⟩
  · rintro ⟨f, rfl, rfl⟩
    exact fieldType_chars f rest

theorem params_append {whole : String} {rest rest' : List Char} {ts : List ValueType} (f : FieldType)
    (h : params whole rest = .ok (ts, rest')) :
    params whole (f.chars ++ rest) = .ok (f.type :: ts, rest') := by
  have hread := fieldType_chars f rest
  obtain ⟨c, cs, hf, hc⟩ := f.chars_eq_cons
  rw [hf, List.cons_append] at hread ⊢
  rw [params, if_neg (List.ne_of_not_mem_cons hc)]
  split
  next heq => simp [hread] at heq
  next heq =>
    cases hread.symm.trans heq
    rw [h]

theorem params_chars (whole : String) (ps : List FieldType) (rest : List Char) :
    params whole (ps.flatMap FieldType.chars ++ ')' :: rest) = .ok (ps.map FieldType.type, rest) := by
  induction ps with
  | nil => simp [params]
  | cons f ps ih =>
    rw [List.flatMap_cons, List.append_assoc]
    exact params_append f ih

theorem exists_of_params {whole : String} {cs rest : List Char} {ts : List ValueType}
    (h : params whole cs = .ok (ts, rest)) :
    ∃ ps : List FieldType, cs = ps.flatMap FieldType.chars ++ ')' :: rest := by
  fun_induction params whole cs generalizing ts with
  | case1 => cases h
  | case2 cs =>
    cases h
    exact ⟨[], rfl⟩
  | case3 => cases h
  | case4 => cases h
  | case5 c cs hc t rest' hread hlt ts' rest'' hrest ih =>
    cases h
    obtain ⟨f, hf⟩ := exists_of_fieldType hread
    obtain ⟨ps, hps⟩ := ih hrest
    exact ⟨f :: ps, by rw [hf, hps, List.flatMap_cons, List.append_assoc]⟩

theorem field_eq_ok {d : String} {t : ValueType} :
    field d = .ok t ↔ ∃ f : FieldType, f.text = d ∧ f.type = t := by
  constructor
  · intro h
    rw [field, bind_eq_ok] at h
    obtain ⟨⟨u, rest⟩, hread, h⟩ := h
    obtain ⟨f, hd, rfl⟩ := fieldType_eq_ok.1 hread
    cases rest with
    | nil =>
      cases h
      refine ⟨f, ?_, rfl⟩
      rw [FieldType.text, ← String.ofList_toList (s := d), hd, List.append_nil]
    | cons c rest => cases h
  · rintro ⟨f, rfl, rfl⟩
    have hread := fieldType_chars f []
    rw [List.append_nil] at hread
    rw [field, FieldType.text, String.toList_ofList, hread]
    rfl

theorem result_chars (whole : String) (o : Option FieldType) :
    result whole (MethodType.resultChars o) = .ok (o.map FieldType.type) := by
  cases o with
  | none => rfl
  | some f =>
    have hread := fieldType_chars f []
    rw [List.append_nil] at hread
    rw [MethodType.resultChars, result, if_neg f.chars_ne_void, hread]
    rfl

theorem exists_of_result {whole : String} {cs : List Char} {r : Option ValueType}
    (h : result whole cs = .ok r) : ∃ o : Option FieldType, cs = MethodType.resultChars o := by
  rw [result] at h
  split at h
  next hvoid => exact ⟨none, hvoid⟩
  next =>
    split at h
    next => cases h
    next hread =>
      obtain ⟨f, hf⟩ := exists_of_fieldType hread
      exact ⟨some f, by rw [hf, List.append_nil]; rfl⟩
    next => cases h

theorem method_text (m : MethodType) : method m.text = .ok m.signature := by
  rw [method, MethodType.text, String.toList_ofList, MethodType.chars]
  simp only [params_chars, result_chars, ok_bind]
  rfl

theorem method_eq_ok {d : String} {s : Signature} :
    method d = .ok s ↔ ∃ m : MethodType, m.text = d ∧ m.signature = s := by
  constructor
  · intro h
    have hread := h
    rw [method] at hread
    split at hread
    next cs hd =>
      simp only [bind_eq_ok] at hread
      obtain ⟨⟨ts, rest⟩, hparams, r, hresult, -⟩ := hread
      obtain ⟨ps, rfl⟩ := exists_of_params hparams
      obtain ⟨o, rfl⟩ := exists_of_result hresult
      have htext : (⟨ps, o⟩ : MethodType).text = d := by
        rw [MethodType.text, MethodType.chars, ← hd, String.ofList_toList]
      refine ⟨⟨ps, o⟩, htext, ?_⟩
      rw [← htext, method_text] at h
      cases h
      rfl
    next => cases hread
  · rintro ⟨m, rfl, rfl⟩
    exact method_text m

theorem FieldType.text_injective : Function.Injective text := by
  intro f f' h
  have hchars : f.chars ++ [] = f'.chars ++ [] := congrArg (· ++ []) (String.ofList_injective h)
  exact (chars_append_inj hchars).1

namespace MethodType

theorem params_append_inj {ps qs : List FieldType} {rest rest' : List Char}
    (h : ps.flatMap FieldType.chars ++ ')' :: rest = qs.flatMap FieldType.chars ++ ')' :: rest') :
    ps = qs ∧ rest = rest' := by
  -- no field type starts with the closing parenthesis
  have closing {f : FieldType} {fs : List FieldType} {cs ds : List Char} :
      (f :: fs).flatMap FieldType.chars ++ cs ≠ ')' :: ds := by
    rw [List.flatMap_cons, List.append_assoc]
    exact f.chars_append_ne (by decide) _ _
  induction ps generalizing qs with
  | nil =>
    cases qs with
    | nil => exact ⟨rfl, (List.cons.inj h).2⟩
    | cons q qs => exact absurd h.symm closing
  | cons p ps ih =>
    cases qs with
    | nil => exact absurd h closing
    | cons q qs =>
      rw [List.flatMap_cons, List.flatMap_cons, List.append_assoc, List.append_assoc] at h
      obtain ⟨rfl, htail⟩ := FieldType.chars_append_inj h
      obtain ⟨rfl, hrest⟩ := ih htail
      exact ⟨rfl, hrest⟩

theorem resultChars_injective : Function.Injective resultChars := by
  intro o o' h
  cases o with
  | none =>
    cases o' with
    | none => rfl
    | some f => exact absurd h.symm f.chars_ne_void
  | some f =>
    cases o' with
    | none => exact absurd h f.chars_ne_void
    | some f' => exact congrArg some (FieldType.text_injective (congrArg String.ofList h))

theorem text_injective : Function.Injective text := by
  rintro ⟨ps, o⟩ ⟨qs, o'⟩ h
  obtain ⟨hparams, hresult⟩ := params_append_inj (List.cons.inj (String.ofList_injective h)).2
  cases hparams
  cases resultChars_injective hresult
  rfl

end MethodType

theorem FieldType.size_type (f : FieldType) :
    f.type.size = 1 + (if f = long then 1 else 0) + if f = double then 1 else 0 := by
  cases f with
  | array more s => rfl
  | scalar s =>
    cases s with
    | reference n => rfl
    | primitive p => cases p <;> rfl

theorem MethodType.slots_signature (m : MethodType) :
    m.signature.slots = m.params.length + m.params.count .long + m.params.count .double := by
  obtain ⟨ps, o⟩ := m
  simp only [Signature.slots, signature]
  induction ps with
  | nil => rfl
  | cons f ps ih =>
    rw [List.map_cons, List.foldr_cons, ih, f.size_type, List.length_cons, List.count_cons,
      List.count_cons]
    simp only [beq_iff_eq]
    omega

/-- Reading accepts exactly the texts of the grammar, with the type or the signature that their form tells;
a text has one form; and the parameters take a slot each and one more for each long or double. -/
theorem reads_exactly_grammar :
    (∀ (d : String) (t : ValueType), field d = .ok t ↔ ∃ f : FieldType, f.text = d ∧ f.type = t) ∧
    (∀ (d : String) (s : Signature),
      method d = .ok s ↔ ∃ m : MethodType, m.text = d ∧ m.signature = s) ∧
    Function.Injective FieldType.text ∧ Function.Injective MethodType.text ∧
    ∀ m : MethodType,
      m.signature.slots = m.params.length + m.params.count .long + m.params.count .double :=
  ⟨fun _ _ => field_eq_ok, fun _ _ => method_eq_ok, FieldType.text_injective,
    MethodType.text_injective, MethodType.slots_signature⟩

end BytecodeFlow.Descriptor
