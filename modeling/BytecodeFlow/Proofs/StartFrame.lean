import BytecodeFlow.ClassFile
import BytecodeFlow.Proofs.Pointwise
import BytecodeFlow.Successors

/-!
The frame in which a method starts. Receiver and parameters stand one behind the other from slot 0,
as if each were put into its slot in turn; what remains holds nothing. There is such a frame if the
locals have room for the parameters and are not more than memory holds, and the methods of a class
file always have that room.
-/

namespace BytecodeFlow

/-- The local slots that values of these types take. -/
def ValueType.slots (ts : List ValueType) : Nat := ts.foldr (fun t n => t.size + n) 0

namespace ValueType

@[simp] theorem slots_nil : slots [] = 0 := rfl

@[simp] theorem slots_cons (t : ValueType) (ts : List ValueType) :
    slots (t :: ts) = t.size + slots ts := rfl

@[simp] theorem slots_append (ts us : List ValueType) : slots (ts ++ us) = slots ts + slots us := by
  induction ts with
  | nil => simp
  | cons t ts ih => simp [ih, Nat.add_assoc]

theorem size_pos (t : ValueType) : 0 < t.size := by
  cases t <;> simp [size]

end ValueType

open ValueType (slots)

namespace Method

theorem slotsOf_eq_cons (t : ValueType) : slotsOf t = t :: List.replicate (t.size - 1) .top := by
  cases t <;> rfl

theorem length_slotsOf (t : ValueType) : (slotsOf t).length = t.size := by
  have := t.size_pos
  simp only [slotsOf_eq_cons, List.length_cons, List.length_replicate]
  omega

section

variable {ts : List ValueType} {t : ValueType}

theorem length_flatMap_slotsOf (ts : List ValueType) : (ts.flatMap slotsOf).length = slots ts := by
  induction ts with
  | nil => rfl
  | cons t ts ih => simp [ih, length_slotsOf]

theorem getElem?_flatMap_slotsOf {k : Nat} (h : ts[k]? = some t) :
    (ts.flatMap slotsOf)[slots (ts.take k)]? = some t := by
  induction ts generalizing k with
  | nil => simp at h
  | cons u ts ih =>
    rw [List.flatMap_cons]
    cases k with
    | zero =>
      cases h
      simp [slotsOf_eq_cons]
    | succ k =>
      rw [List.take_succ_cons, ValueType.slots_cons, ← length_slotsOf,
        List.getElem?_append_right (Nat.le_add_right _ _), Nat.add_sub_cancel_left]
      exact ih (by simpa using h)

theorem top_of_getElem?_flatMap {j : Nat} (h : (ts.flatMap slotsOf)[j]? = some t)
    (hj : ∀ k < ts.length, j ≠ slots (ts.take k)) : t = .top := by
  induction ts generalizing j with
  | nil => simp at h
  | cons u ts ih =>
    rw [List.flatMap_cons] at h
    rcases Nat.lt_or_ge j (slotsOf u).length with hlt | hge
    · rw [List.getElem?_append_left hlt, slotsOf_eq_cons] at h
      cases j with
      | zero => exact absurd rfl (hj 0 (by simp))
      | succ j =>
        rw [List.getElem?_cons_succ] at h
        exact List.eq_of_mem_replicate (List.mem_of_getElem? h)
    · rw [List.getElem?_append_right hge] at h
      refine ih h fun k hk hslot => hj (k + 1) (by simpa using hk) ?_
      rw [length_slotsOf] at hge hslot
      rw [List.take_succ_cons, ValueType.slots_cons]
      omega

end

end Method

namespace Frame

/-- Puts values into the locals one behind the other, each into the first slot that it takes. -/
def place (f : Frame) (slot : Nat) : List ValueType → Except Fault Frame
  | [] => .ok f
  | t :: ts => do (← f.setLocal slot ⟨t, noNode⟩).place (slot + t.size) ts

theorem setLocal_append (held rest stack : List Entry) (e e' : Entry) :
    setLocal ⟨held ++ e :: rest, stack⟩ held.length e' = .ok ⟨held ++ e' :: rest, stack⟩ := by
  have hslot : held.length < (held ++ e :: rest).length := by simp
  rw [setLocal, if_pos ⟨Int.natCast_nonneg _, Int.ofNat_lt.2 hslot⟩]
  simp

/-- Values that the free slots have room for are put there without a fault. -/
theorem place_append {ts : List ValueType} {n : Nat} (h : slots ts ≤ n) (held stack : List Entry) :
    place ⟨held ++ List.replicate n ⟨.top, noNode⟩, stack⟩ held.length ts =
      .ok ⟨held ++ (ts.flatMap Method.slotsOf).map (⟨·, noNode⟩) ++
        List.replicate (n - slots ts) ⟨.top, noNode⟩, stack⟩ := by
  induction ts generalizing n held with
  | nil => simp [place]
  | cons t ts ih =>
    have hsize := t.size_pos
    rw [ValueType.slots_cons] at h
    -- the value's own slot, the slots behind it that it takes too, and what remains free
    have hfree : List.replicate n (⟨.top, noNode⟩ : Entry) =
        ⟨.top, noNode⟩ :: (List.replicate (t.size - 1) ⟨.top, noNode⟩ ++
          List.replicate (n - t.size) ⟨.top, noNode⟩) := by
      rw [← List.replicate_add, ← List.replicate_succ]
      congr 1
      omega
    have hslots : (Method.slotsOf t).map (fun u => (⟨u, noNode⟩ : Entry)) =
        ⟨t, noNode⟩ :: List.replicate (t.size - 1) ⟨.top, noNode⟩ := by
      simp [Method.slotsOf_eq_cons]
    have hplace := ih (n := n - t.size) (by omega) (held ++ (Method.slotsOf t).map (⟨·, noNode⟩))
    rw [List.length_append, List.length_map, Method.length_slotsOf, hslots] at hplace
    rw [place, hfree, setLocal_append, ok_bind, List.flatMap_cons, List.map_append, hslots,
      ValueType.slots_cons, ← Nat.sub_sub]
    simpa using hplace

end Frame

namespace Method

/-- The slots of the receiver. -/
def receiverSlots (m : Method) : Nat := if m.static then 0 else 1

/-- The slots that receiver and parameters take. -/
def heldSlots (m : Method) (s : Signature) : Nat := s.slots + m.receiverSlots

/-- The values that a method is called with, in their order. -/
def held (m : Method) (s : Signature) : List ValueType := m.receiver?.toList ++ s.params

/-- A frame in which receiver and parameters stand where calls put them, and nothing else stands. -/
structure Starts (m : Method) (s : Signature) (f : Frame) : Prop where
  stack : f.stack = []
  locals : (f.locals.length : Int) = m.code.maxLocals
  producer : ∀ e ∈ f.locals, e.producer = noNode
  receiver : m.static = false → ∃ e, f.locals[0]? = some e ∧
    e.type = if m.isConstructor then .uninitialized m.className noNode
      else .nonNullObject m.className
  param : ∀ k t, s.params[k]? = some t →
    ∃ e, f.locals[m.receiverSlots + slots (s.params.take k)]? = some e ∧ e.type = t
  rest : ∀ j e, f.locals[j]? = some e → (m.static = false → j ≠ 0) →
    (∀ k < s.params.length, j ≠ m.receiverSlots + slots (s.params.take k)) → e.type = .top

section

variable {m : Method} {s : Signature}

theorem slots_receiver (m : Method) : slots m.receiver?.toList = m.receiverSlots := by
  unfold receiver? receiverSlots
  split
  · rfl
  · split <;> rfl

theorem length_receiver (m : Method) : m.receiver?.toList.length = m.receiverSlots := by
  unfold receiver? receiverSlots
  split
  · rfl
  · split <;> rfl

theorem slots_held (m : Method) (s : Signature) : slots (m.held s) = m.heldSlots s := by
  rw [held, ValueType.slots_append, slots_receiver, heldSlots, Nat.add_comm]
  rfl

theorem slots_take_held (m : Method) (s : Signature) (k : Nat) :
    slots ((m.held s).take (m.receiverSlots + k)) =
      m.receiverSlots + slots (s.params.take k) := by
  rw [held, ← length_receiver, List.take_length_add_append, ValueType.slots_append,
    slots_receiver, length_receiver]

/-- Receiver and parameters, and behind them slots that hold nothing. -/
def startLocals (m : Method) (s : Signature) : List ValueType :=
  (m.held s).flatMap slotsOf ++ List.replicate (m.code.maxLocals.toNat - m.heldSlots s) .top

section

variable (hs : Descriptor.method m.descriptor = .ok s)

include hs

theorem startFrame_eq :
    m.startFrame =
      if m.code.maxLocals < m.heldSlots s then .error (.parameterSlots m (m.heldSlots s))
      else if Frame.slotLimit < m.code.maxLocals then .error .slotLimit
      else .ok ⟨(m.startLocals s).map (⟨·, noNode⟩), []⟩ := by
  have hlength := length_flatMap_slotsOf (m.held s)
  rw [slots_held] at hlength
  simp only [startFrame, hs, startLocals, ← hlength]
  rfl

theorem startFrame_of_lt (h : m.code.maxLocals < m.heldSlots s) :
    m.startFrame = .error (.parameterSlots m (m.heldSlots s)) := by
  rw [startFrame_eq hs, if_pos h]

theorem startFrame_of_slotLimit_lt (h : m.heldSlots s ≤ m.code.maxLocals)
    (hlimit : Frame.slotLimit < m.code.maxLocals) : m.startFrame = .error .slotLimit := by
  rw [startFrame_eq hs, if_neg (by omega), if_pos hlimit]

theorem startFrame_of_le (h : m.heldSlots s ≤ m.code.maxLocals)
    (hlimit : m.code.maxLocals ≤ Frame.slotLimit) :
    m.startFrame = .ok ⟨(m.startLocals s).map (⟨·, noNode⟩), []⟩ := by
  rw [startFrame_eq hs, if_neg (by omega), if_neg (by omega)]

end

theorem receiver?_of_instance (h : m.static = false) :
    m.receiver? = some (if m.isConstructor then .uninitialized m.className noNode
      else .nonNullObject m.className) := by
  rw [receiver?, h, if_neg Bool.false_ne_true]
  split <;> rfl

/-- A slot that is neither the receiver's nor the first of a parameter begins no value. -/
theorem ne_slots_take_held {j : Nat} (hreceiver : m.static = false → j ≠ 0)
    (hparam : ∀ k < s.params.length, j ≠ m.receiverSlots + slots (s.params.take k)) :
    ∀ k < (m.held s).length, j ≠ slots ((m.held s).take k) := by
  intro k hk
  rw [held, List.length_append, length_receiver] at hk
  rcases Nat.lt_or_ge k m.receiverSlots with hlt | hge
  · unfold receiverSlots at hlt
    split at hlt
    · omega
    next hstatic =>
      obtain rfl : k = 0 := by omega
      exact hreceiver (by simpa using hstatic)
  · obtain ⟨k, rfl⟩ := Nat.exists_eq_add_of_le hge
    rw [slots_take_held]
    exact hparam k (by omega)

theorem starts_startLocals (h : (m.heldSlots s : Int) ≤ m.code.maxLocals) :
    m.Starts s ⟨(m.startLocals s).map (⟨·, noNode⟩), []⟩ := by
  have hlength := length_flatMap_slotsOf (m.held s)
  rw [slots_held] at hlength
  have hholds {k : Nat} {t : ValueType} (ht : (m.held s)[k]? = some t) :
      ((m.startLocals s).map fun u => (⟨u, noNode⟩ : Entry))[slots ((m.held s).take k)]? =
        some ⟨t, noNode⟩ := by
    have hslot := getElem?_flatMap_slotsOf ht
    rw [List.getElem?_map, startLocals, List.getElem?_append_left, hslot]
    · rfl
    · exact (List.getElem?_eq_some_iff.1 hslot).1
  refine ⟨rfl, ?_, ?_, fun hstatic => ?_, fun k t ht => ?_, fun j e he hreceiver hparam => ?_⟩
  · simp only [startLocals, List.length_map, List.length_append, hlength, List.length_replicate]
    omega
  · intro e he
    obtain ⟨t, -, rfl⟩ := List.mem_map.1 he
    rfl
  · have hfirst := receiver?_of_instance hstatic
    exact ⟨_, hholds (k := 0) (by rw [held, hfirst]; rfl), rfl⟩
  · rw [← slots_take_held]
    refine ⟨_, hholds ?_, rfl⟩
    rw [held, ← length_receiver, List.getElem?_append_right (Nat.le_add_right _ _),
      Nat.add_sub_cancel_left, ht]
  · rw [List.getElem?_map, Option.map_eq_some_iff] at he
    obtain ⟨t, ht, rfl⟩ := he
    rw [startLocals, List.getElem?_append] at ht
    split at ht
    · exact top_of_getElem?_flatMap ht (ne_slots_take_held hreceiver hparam)
    · exact List.eq_of_mem_replicate (List.mem_of_getElem? ht)

/-- Putting receiver and parameters into a blank frame in turn ends in the same frame. -/
theorem place_held (h : (m.heldSlots s : Int) ≤ m.code.maxLocals) :
    (Frame.blank m.code.maxLocals.toNat).place 0 (m.held s) =
      .ok ⟨(m.startLocals s).map (⟨·, noNode⟩), []⟩ := by
  have hroom : slots (m.held s) ≤ m.code.maxLocals.toNat := by
    rw [slots_held]
    omega
  have hplace := Frame.place_append hroom [] []
  rw [slots_held] at hplace
  simpa [Frame.blank, startLocals] using hplace

end

end Method

theorem MethodSource.heldSlots_le {className : String} {source : MethodSource} {m : Method}
    (h : source.decode className = .ok m) :
    ∃ s, Descriptor.method m.descriptor = .ok s ∧ (m.heldSlots s : Int) ≤ m.code.maxLocals := by
  simp only [decode, bind_eq_ok, mapError_eq_ok] at h
  obtain ⟨s, hs, code, -, h⟩ := h
  split at h
  · cases h
  · cases h
    refine ⟨s, hs, Int.le_trans (Int.le_of_eq ?_) (Int.le_max_right _ _)⟩
    simp only [Method.heldSlots, Method.receiverSlots]
    split <;> simp

theorem ClassSource.decode_of_mem {source : ClassSource} {c : Class} (h : source.decode = .ok c)
    {m : Method} (hm : m ∈ c.methods) :
    ∃ method ∈ source.methods, method.decode source.name = .ok m := by
  unfold decode at h
  split at h
  · cases h
  · simp only [bind_eq_ok, mapError_eq_ok, pure_eq_ok] at h
    obtain ⟨methods, hmethods, rfl⟩ := h
    obtain ⟨k, hk⟩ := List.getElem?_of_mem hm
    obtain ⟨method, hmethod, hdecode⟩ := exists_of_forall₂ (forall₂_of_mapM hmethods) hk
    exact ⟨method, List.mem_of_getElem? hmethod, hdecode⟩

theorem ClassSource.exists_decode {text : String} {c : Class} (h : readFile text = .ok c) :
    ∃ source : ClassSource, source.decode = .ok c := by
  simp only [readFile, bind_eq_ok] at h
  obtain ⟨n, -, source, -, h⟩ := h
  exact ⟨source, h⟩

/-- If the descriptor can be read, a method has no frame to start in exactly if receiver and
parameters exceed its locals, or these exceed what memory holds. Otherwise the frame is laid out as
calls lay it out, and putting receiver and parameters into a blank frame in turn ends in it without
a fault. A method of a decoded class fails to start only for want of memory. -/
theorem start_frame_laid_out :
    (∀ (m : Method) (s : Signature), Descriptor.method m.descriptor = .ok s →
      (m.startFrame = .error (.parameterSlots m (m.heldSlots s)) ↔
        m.code.maxLocals < m.heldSlots s) ∧
      (m.startFrame = .error .slotLimit ↔
        m.heldSlots s ≤ m.code.maxLocals ∧ Frame.slotLimit < m.code.maxLocals) ∧
      (m.heldSlots s ≤ m.code.maxLocals → m.code.maxLocals ≤ Frame.slotLimit →
        ∃ f, m.startFrame = .ok f ∧ m.Starts s f ∧
          (Frame.blank m.code.maxLocals.toNat).place 0 (m.held s) = .ok f)) ∧
    ∀ (source : ClassSource) (c : Class), source.decode = .ok c → ∀ m ∈ c.methods,
      (m.startFrame = .error .slotLimit ↔ Frame.slotLimit < m.code.maxLocals) ∧
      (m.code.maxLocals ≤ Frame.slotLimit → ∃ f, m.startFrame = .ok f) := by
  refine ⟨fun m s hs => ⟨⟨fun h => ?_, m.startFrame_of_lt hs⟩, ⟨fun h => ?_, fun h => ?_⟩, ?_⟩,
    fun source c hc m hm => ?_⟩
  · by_contra hheld
    rw [Method.startFrame_eq hs, if_neg hheld] at h
    split at h <;> cases h
  · rw [Method.startFrame_eq hs] at h
    split at h
    · cases h
    · split at h
      · omega
      · cases h
  · exact Method.startFrame_of_slotLimit_lt hs h.1 h.2
  · intro hheld hlimit
    exact ⟨_, Method.startFrame_of_le hs hheld hlimit, Method.starts_startLocals hheld,
      Method.place_held hheld⟩
  · obtain ⟨method, -, hdecode⟩ := ClassSource.decode_of_mem hc hm
    obtain ⟨s, hs, hheld⟩ := method.heldSlots_le hdecode
    have hfits (h : m.code.maxLocals ≤ Frame.slotLimit) := Method.startFrame_of_le hs hheld h
    refine ⟨⟨fun h => ?_, Method.startFrame_of_slotLimit_lt hs hheld⟩, fun h => ⟨_, hfits h⟩⟩
    by_contra hlimit
    cases h.symm.trans (hfits (by omega))

/-- A class with a constructor that has more locals than parameters, and a method that asks for more
of them than memory holds. -/
def classText : String :=
  "class: a/B\nmethods:\n- name: <init>\n  descriptor: (JLjava/lang/String;DZ)V\n" ++
    "  code: \".limit locals 9\\nreturn\"\n" ++
    "- name: m\n  descriptor: ()V\n  static: true\n" ++
    "  code: \".limit locals 9223372036854775807\\nreturn\"\n"

def initializer : Method where
  className := "a/B"
  name := "<init>"
  descriptor := "(JLjava/lang/String;DZ)V"
  static := false
  code := { instructions := [{ offset := 0, op := ⟨177⟩ }], maxLocals := 9 }

def initializerSignature : Signature := ⟨[.long, .object "java/lang/String", .double, .int], none⟩

def roomy : Method where
  className := "a/B"
  name := "m"
  descriptor := "()V"
  static := true
  code := { instructions := [{ offset := 0, op := ⟨177⟩ }], maxLocals := 9223372036854775807 }

theorem exists_readFile_classText :
    ∃ c, ClassSource.readFile classText = .ok c ∧ c.methods = [initializer, roomy] := by
  have h : (ClassSource.readFile classText).toOption.map Class.methods =
      some [initializer, roomy] := by decide +kernel
  obtain ⟨c, hc, hmethods⟩ := Option.map_eq_some_iff.1 h
  exact ⟨c, toOption_eq_some.1 hc, hmethods⟩

theorem start_frame_laid_out_initializer :
    Descriptor.method initializer.descriptor = .ok initializerSignature ∧
    (∃ f, initializer.startFrame = .ok f ∧ initializer.Starts initializerSignature f ∧
      (Frame.blank 9).place 0 (initializer.held initializerSignature) = .ok f) ∧
    ∃ c, ClassSource.readFile classText = .ok c ∧ initializer ∈ c.methods ∧
      ¬ initializer.startFrame = .error .slotLimit := by
  have hs : Descriptor.method initializer.descriptor = .ok initializerSignature := by
    decide +kernel
  obtain ⟨c, hc, hmethods⟩ := exists_readFile_classText
  have hmem : initializer ∈ c.methods := by simp [hmethods]
  obtain ⟨source, hsource⟩ := ClassSource.exists_decode hc
  obtain ⟨hlayout, hclass⟩ := start_frame_laid_out
  refine ⟨hs, (hlayout _ _ hs).2.2 (by decide) (by decide), c, hc, hmem, ?_⟩
  rw [(hclass source c hsource initializer hmem).1]
  decide

theorem roomy_without_start_frame :
    (∃ c, ClassSource.readFile classText = .ok c ∧ roomy ∈ c.methods) ∧
    (∃ g, Graph.build roomy = .ok g) ∧
    Descriptor.method roomy.descriptor = .ok ⟨[], none⟩ ∧
    roomy.heldSlots ⟨[], none⟩ = 0 ∧ roomy.startFrame = .error .slotLimit := by
  have hs : Descriptor.method roomy.descriptor = .ok ⟨[], none⟩ := by decide +kernel
  have hbuild : (Graph.build roomy).toOption.isSome = true := by decide +kernel
  obtain ⟨g, hg⟩ := Option.isSome_iff_exists.1 hbuild
  obtain ⟨c, hc, hmethods⟩ := exists_readFile_classText
  exact ⟨⟨c, hc, by simp [hmethods]⟩, ⟨g, toOption_eq_some.1 hg⟩, hs, rfl,
    Method.startFrame_of_slotLimit_lt hs (by decide) (by decide)⟩

end BytecodeFlow
