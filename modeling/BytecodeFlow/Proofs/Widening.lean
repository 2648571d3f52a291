import BytecodeFlow.Proofs.Execution
import BytecodeFlow.Proofs.Pointwise

/-!
Declared types of local variables only add paths. A null that is stored into a declared variable becomes
a reference that may be null; all else stays, and whatever is possible with the null is possible with
the reference.
-/

namespace BytecodeFlow

open Effect

/-- The types are equal, or a null has become a reference that may be null. -/
inductive ValueType.Widens : ValueType → ValueType → Prop
  | same (t : ValueType) : Widens t t
  | declared (name : String) : Widens .null (.object name)

namespace ValueType.Widens

variable {t u : ValueType}

theorem size_eq (h : t.Widens u) : t.size = u.size := by
  cases h <;> rfl

theorem of_null (h : Descriptor.Named t) (hr : t.isReference = true) : ValueType.null.Widens t := by
  cases h with
  | number k => cases k <;> cases hr
  | object name => exact .declared name

theorem loaded (h : t.Widens u) (c : Category) : (loadedType c t).Widens (loadedType c u) := by
  cases h with
  | same => exact .same _
  | declared name =>
    cases c with
    | number k => exact .same _
    | reference => exact .declared name

theorem cast (h : t.Widens u) (className : String) :
    (castType className t).Widens (castType className u) := by
  cases h with
  | same => exact .same _
  | declared name => exact .declared className

theorem element (h : t.Widens u) (c : Category) : (elementType c t).Widens (elementType c u) := by
  cases h with
  | same => exact .same _
  | declared name =>
    cases c with
    | number k => exact .same _
    | reference =>
      change ValueType.null.Widens (if _ then _ else _)
      split
      next hr => exact of_null (Descriptor.named_element _) hr
      next => exact .declared _

/-- The only place where the two modes differ. -/
theorem stored (h : t.Widens u) (code : Code) (instr : Instruction) :
    (storedType ⟨code, false⟩ instr t).Widens (storedType ⟨code, true⟩ instr u) := by
  have hfalse : storedType ⟨code, false⟩ instr t = t := by simp [storedType]
  rw [hfalse]
  cases h with
  | declared name => exact .declared name
  | same =>
    rw [storedType]
    split
    next hn =>
      obtain rfl : t = .null := by
        cases t <;> first | rfl | cases hn
      split
      · exact .same _
      · split
        next hd =>
          split
          next hr => exact of_null (Descriptor.named_of_field hd) hr
          next => exact .same _
        next => exact .same _
    next => exact .same _

theorem eq_of_uninitialized (h : t.Widens u) (ht : t.kind = .uninitialized) : t = u := by
  cases h with
  | same => rfl
  | declared => cases ht

end ValueType.Widens

/-- The entries have one producer, and the second knows as much of the value or less. -/
structure Entry.Widens (e x : Entry) : Prop where
  type : e.type.Widens x.type
  producer : e.producer = x.producer

namespace Entry.Widens

variable {e x : Entry}

theorem refl (e : Entry) : e.Widens e := ⟨.same e.type, rfl⟩

theorem isPair_eq (h : e.Widens x) : isPair e = isPair x := by
  rw [isPair, isPair, h.type.size_eq]

theorem retype (h : e.Widens x) {old : ValueType} (hold : old.kind = .uninitialized) :
    (Frame.retype old old.initialized e).Widens (Frame.retype old old.initialized x) := by
  obtain ⟨t, p⟩ := e
  obtain ⟨u, q⟩ := x
  obtain ⟨ht, hp⟩ := h
  cases hp
  cases ht with
  | same => exact refl _
  | declared name =>
    cases old <;> cases hold
    exact ⟨.declared name, rfl⟩

end Entry.Widens

/-- Entry by entry, the second frame knows as much as the first or less. -/
structure Frame.Widens (f w : Frame) : Prop where
  locals : List.Forall₂ Entry.Widens f.locals w.locals
  stack : List.Forall₂ Entry.Widens f.stack w.stack

theorem forall₂_shuffle {R : Entry → Entry → Prop} (hR : ∀ {a b}, R a b → isPair a = isPair b)
    {k : Shuffle} {s s' w : List Entry} (hw : List.Forall₂ R s w) (h : shuffle k s = .ok s') :
    ∃ w', shuffle k w = .ok w' ∧ List.Forall₂ R s' w' := by
  revert h hw
  fun_cases shuffle k s <;> intro hw h <;> cases h
  all_goals simp only [List.forall₂_cons_left_iff] at hw
  -- related entries have one size, so that the same form of the operation applies to them
  case case1 | case2 | case5 | case11 =>
    obtain ⟨a, w, ha, hw, rfl⟩ := hw
    simp [shuffle, ← hR ha, *]
  case case3 | case6 | case7 | case12 | case14 | case18 | case26 =>
    obtain ⟨a, _, ha, ⟨b, w, hb, hw, rfl⟩, rfl⟩ := hw
    simp [shuffle, ← hR ha, ← hR hb, *]
  case case8 | case15 | case19 | case23 =>
    obtain ⟨a, _, ha, ⟨b, _, hb, ⟨c, w, hc, hw, rfl⟩, rfl⟩, rfl⟩ := hw
    simp [shuffle, ← hR ha, ← hR hb, ← hR hc, *]
  case case24 =>
    obtain ⟨a, _, ha, ⟨b, _, hb, ⟨c, _, hc, ⟨d, w, hd, hw, rfl⟩, rfl⟩, rfl⟩, rfl⟩ := hw
    simp [shuffle, ← hR ha, ← hR hc, *]

namespace Frame.Widens

variable {f f' w : Frame} {n : Nat} {e x : Entry} {slot : Int}

theorem refl (f : Frame) : f.Widens f :=
  ⟨List.forall₂_same.2 fun e _ => .refl e, List.forall₂_same.2 fun e _ => .refl e⟩

theorem push (h : f.Widens w) (he : e.Widens x) : (f.push e).Widens (w.push x) :=
  ⟨h.locals, .cons he h.stack⟩

theorem popMany (h : f.Widens w) (hf : f.popMany n = .ok f') :
    ∃ w', w.popMany n = .ok w' ∧ f'.Widens w' := by
  obtain ⟨hn, rfl⟩ := popMany_eq_ok.1 hf
  rw [h.stack.length_eq] at hn
  exact ⟨w.discard n, popMany_eq_ok.2 ⟨hn, rfl⟩, h.locals, List.forall₂_drop n h.stack⟩

theorem popPush (h : f.Widens w) (he : e.Widens x) (hf : Effect.popPush f n e = .ok f') :
    ∃ w', Effect.popPush w n x = .ok w' ∧ f'.Widens w' := by
  simp only [Effect.popPush, bind_eq_ok, pure_eq_ok] at hf
  obtain ⟨f₁, hp, rfl⟩ := hf
  obtain ⟨w₁, hp', h₁⟩ := h.popMany hp
  exact ⟨w₁.push x, bind_eq_ok.2 ⟨w₁, hp', rfl⟩, h₁.push he⟩

theorem pop (h : f.Widens w) (hf : f.pop = .ok (e, f')) :
    ∃ x w', w.pop = .ok (x, w') ∧ e.Widens x ∧ f'.Widens w' := by
  obtain ⟨rest, hs, rfl⟩ := pop_eq_ok.1 hf
  have hst := h.stack
  rw [hs, List.forall₂_cons_left_iff] at hst
  obtain ⟨x, rest', hx, hr, hw⟩ := hst
  exact ⟨x, _, pop_eq_ok.2 ⟨rest', hw, rfl⟩, hx, h.locals, hr⟩

theorem peek {d : Nat} (h : f.Widens w) (hf : f.peek d = .ok e) :
    ∃ x, w.peek d = .ok x ∧ e.Widens x := by
  obtain ⟨x, hx, he⟩ := exists_of_forall₂ h.stack.flip (peek_eq_ok.1 hf)
  exact ⟨x, peek_eq_ok.2 hx, he⟩

theorem getLocal (h : f.Widens w) (hf : f.getLocal slot = .ok e) :
    ∃ x, w.getLocal slot = .ok x ∧ e.Widens x := by
  cases slot with
  | ofNat k =>
    obtain ⟨x, hx, he⟩ := exists_of_forall₂ h.locals.flip (getLocal_eq_ok.1 hf)
    exact ⟨x, getLocal_eq_ok.2 hx, he⟩
  | negSucc k => cases hf

theorem setLocal (h : f.Widens w) (he : e.Widens x) (hf : f.setLocal slot e = .ok f') :
    ∃ w', w.setLocal slot x = .ok w' ∧ f'.Widens w' := by
  obtain ⟨k, rfl, hk, rfl⟩ := setLocal_eq_ok.1 hf
  rw [h.locals.length_eq] at hk
  exact ⟨_, setLocal_eq_ok.2 ⟨k, rfl, hk, rfl⟩, forall₂_set h.locals k he, h.stack⟩

theorem clobber {node : Int} (h : f.Widens w) (hf : Effect.clobber node slot f = .ok f') :
    ∃ w', Effect.clobber node slot w = .ok w' ∧ f'.Widens w' := by
  rw [Effect.clobber] at hf ⊢
  split at hf
  next hpos =>
    simp only [if_pos hpos, bind_eq_ok] at hf ⊢
    obtain ⟨e, he, hf⟩ := hf
    obtain ⟨x, hx, hex⟩ := h.getLocal he
    rw [hex.isPair_eq] at hf
    split at hf
    next hp =>
      obtain ⟨w', hw', h'⟩ := h.setLocal (.refl _) hf
      exact ⟨w', ⟨x, hx, by rwa [if_pos hp]⟩, h'⟩
    next hp =>
      cases hf
      exact ⟨w, ⟨x, hx, by rw [if_neg hp]; rfl⟩, h⟩
  next hpos =>
    rw [if_neg hpos]
    cases hf
    exact ⟨w, rfl, h⟩

theorem store {code : Code} {node : Int} {instr : Instruction} (h : f.Widens w)
    (hf : Effect.store ⟨code, false⟩ node instr f = .ok f') :
    ∃ w', Effect.store ⟨code, true⟩ node instr w = .ok w' ∧ f'.Widens w' := by
  simp only [Effect.store, bind_eq_ok] at hf ⊢
  obtain ⟨⟨e, f₁⟩, hp, f₂, hc, f₃, hs, hf⟩ := hf
  obtain ⟨x, w₁, hp', hex, h₁⟩ := h.pop hp
  obtain ⟨w₂, hc', h₂⟩ := h₁.clobber hc
  have hst : Entry.Widens ⟨storedType ⟨code, false⟩ instr e.type, e.producer⟩
      ⟨storedType ⟨code, true⟩ instr x.type, x.producer⟩ := ⟨hex.type.stored code instr, hex.producer⟩
  obtain ⟨w₃, hs', h₃⟩ := h₂.setLocal hst hs
  rw [hst.isPair_eq] at hf
  split at hf
  next hpair =>
    obtain ⟨w', hw', h'⟩ := h₃.setLocal (.refl _) hf
    exact ⟨w', ⟨_, hp', w₂, hc', w₃, hs', by rwa [if_pos hpair]⟩, h'⟩
  next hpair =>
    cases hf
    exact ⟨w₃, ⟨_, hp', w₂, hc', w₃, hs', by rw [if_neg hpair]; rfl⟩, h₃⟩

theorem load {c : Category} {instr : Instruction} (h : f.Widens w)
    (hf : Effect.load c instr f = .ok f') :
    ∃ w', Effect.load c instr w = .ok w' ∧ f'.Widens w' := by
  simp only [Effect.load, bind_eq_ok, pure_eq_ok] at hf ⊢
  obtain ⟨e, he, rfl⟩ := hf
  obtain ⟨x, hx, hex⟩ := h.getLocal he
  exact ⟨_, ⟨x, hx, rfl⟩, h.push ⟨hex.type.loaded c, hex.producer⟩⟩

theorem replace {old : ValueType} (h : f.Widens w) (hold : old.kind = .uninitialized) :
    (f.replace old old.initialized).Widens (w.replace old old.initialized) := by
  have retyped {es xs : List Entry} (h : List.Forall₂ Entry.Widens es xs) :
      List.Forall₂ Entry.Widens (es.map (Frame.retype old old.initialized))
        (xs.map (Frame.retype old old.initialized)) := by
    rw [List.forall₂_map_left_iff, List.forall₂_map_right_iff]
    exact h.imp fun _ _ he => he.retype hold
  exact ⟨retyped h.locals, retyped h.stack⟩

theorem popReceiver {i : Invocation} {m : Member} (h : f.Widens w)
    (hf : Effect.popReceiver i m f = .ok f') :
    ∃ w', Effect.popReceiver i m w = .ok w' ∧ f'.Widens w' := by
  rw [Effect.popReceiver] at hf ⊢
  split at hf
  next hr =>
    simp only [if_pos hr, bind_eq_ok] at hf ⊢
    obtain ⟨⟨e, f₁⟩, hp, hf⟩ := hf
    obtain ⟨x, w₁, hp', hex, h₁⟩ := h.pop hp
    split at hf
    next hi =>
      cases hf
      have heq := hex.type.eq_of_uninitialized hi.2.2
      refine ⟨_, ⟨_, hp', ?_⟩, h₁.replace hi.2.2⟩
      rw [heq] at hi ⊢
      rw [if_pos hi]
      rfl
    next hi =>
      cases hf
      have hi' : ¬ (i = .special ∧ m.name = constructorName ∧ x.type.kind = .uninitialized) := by
        rintro ⟨h₁, h₂, h₃⟩
        obtain ⟨t, p⟩ := e
        obtain ⟨u, q⟩ := x
        cases hex.type with
        | same => exact hi ⟨h₁, h₂, h₃⟩
        | declared => cases h₃
      exact ⟨w₁, ⟨_, hp', by rw [if_neg hi']; rfl⟩, h₁⟩
  next hr =>
    rw [if_neg hr]
    cases hf
    exact ⟨w, rfl, h⟩

theorem invoke {node : Int} {i : Invocation} {instr : Instruction} (h : f.Widens w)
    (hf : Effect.invoke node i instr f = .ok f') :
    ∃ w', Effect.invoke node i instr w = .ok w' ∧ f'.Widens w' := by
  rw [Effect.invoke] at hf ⊢
  split at hf
  · cases hf
  · simp only [bind_eq_ok, mapError_eq_ok, orFault_eq_ok] at hf ⊢
    obtain ⟨sig, hs, f₁, hp, f₂, hr, hf⟩ := hf
    obtain ⟨w₁, hp', h₁⟩ := h.popMany hp
    obtain ⟨w₂, hr', h₂⟩ := h₁.popReceiver hr
    cases hres : sig.result with
    | none =>
      rw [hres] at hf
      cases hf
      exact ⟨w₂, ⟨sig, hs, w₁, hp', w₂, hr', by rw [hres]; rfl⟩, h₂⟩
    | some t =>
      rw [hres] at hf
      cases hf
      exact ⟨_, ⟨sig, hs, w₁, hp', w₂, hr', by rw [hres]; rfl⟩, h₂.push (.refl _)⟩

/-- What an instruction does to a frame, it does to a wider one. Only a throw would tell a null from a
reference afterwards: of the null it makes another object. -/
theorem apply {code : Code} {node : Int} {instr : Instruction} (h : f.Widens w)
    (hthrow : instr.operation ≠ .throw) (hf : Effect.apply ⟨code, false⟩ node instr f = .ok f') :
    ∃ w', Effect.apply ⟨code, true⟩ node instr w = .ok w' ∧ f'.Widens w' := by
  have pushed (t : ValueType) : (f.push ⟨t, node⟩).Widens (w.push ⟨t, node⟩) := h.push (.refl _)
  unfold Effect.apply at hf ⊢
  cases hop : instr.operation <;> simp only [hop, orFault_eq_ok, bind_eq_ok, pure_eq_ok,
    Except.ok.injEq, reduceCtorEq] at hf ⊢
  case nop | goto | ret | returnVoid =>
    subst hf
    exact ⟨w, rfl, h⟩
  case pushNull | push | immediate | jsr | new =>
    subst hf
    exact ⟨_, rfl, pushed _⟩
  case constant =>
    split at hf
    · cases hf
    · simp only [bind_eq_ok, mapError_eq_ok, pure_eq_ok] at hf ⊢
      obtain ⟨t, ht, rfl⟩ := hf
      exact ⟨_, ⟨t, ht, rfl⟩, pushed t⟩
  case load => exact h.load hf
  case store => exact h.store hf
  case increment => exact h.setLocal (.refl _) hf
  case arrayLoad c =>
    split at hf
    next index array rest hs =>
      cases hf
      have hst := h.stack
      simp only [hs, List.forall₂_cons_left_iff] at hst
      obtain ⟨index', _, -, ⟨array', rest', ha, hr, rfl⟩, hw⟩ := hst
      rw [hw]
      exact ⟨_, rfl, h.locals, .cons ⟨ha.type.element c, rfl⟩ hr⟩
    next => cases hf
  case shuffle =>
    obtain ⟨stack, hs, rfl⟩ := hf
    obtain ⟨stack', hs', hst⟩ := forall₂_shuffle Entry.Widens.isPair_eq h.stack hs
    exact ⟨_, ⟨stack', hs', rfl⟩, h.locals, hst⟩
  case arrayStore | branch | switch | returnValue | putStatic | putField | monitor =>
    exact h.popMany hf
  case unary | binary | arrayLength | instanceOf | newArray | newObjectArray | newMultiArray =>
    exact h.popPush (.refl _) hf
  case getStatic =>
    obtain ⟨t, ht, rfl⟩ := hf
    exact ⟨_, ⟨t, ht, rfl⟩, pushed t⟩
  case getField =>
    obtain ⟨t, ht, hf⟩ := hf
    obtain ⟨w', hw', h'⟩ := h.popPush (.refl _) hf
    exact ⟨w', ⟨t, ht, hw'⟩, h'⟩
  case invoke => exact h.invoke hf
  case throw => exact absurd hop hthrow
  case checkCast =>
    split at hf
    next e rest hs =>
      cases hf
      have hst := h.stack
      simp only [hs, List.forall₂_cons_left_iff] at hst
      obtain ⟨x, rest', hex, hr, hw⟩ := hst
      rw [hw]
      exact ⟨_, rfl, h.locals, .cons ⟨hex.type.cast _, hex.producer⟩ hr⟩
    next => cases hf

/-- A decision on a null leaves a target that is there without it. -/
theorem testNull {b : Bool} {next target t : Nat} {succs : Successors} (h : f.Widens w)
    (hf : Node.testNull b next target f = .ok succs) (ht : t ∈ succs.targets) :
    ∃ succs', Node.testNull b next target w = .ok succs' ∧ t ∈ succs'.targets := by
  have hmem := mem_flow_of_testNull hf ht
  simp only [Node.testNull, bind_eq_ok] at hf ⊢
  obtain ⟨⟨t, p⟩, he, hf⟩ := hf
  obtain ⟨⟨u, q⟩, hx, htype, hp⟩ := h.peek he
  cases hp
  cases htype with
  | same => exact ⟨succs, ⟨_, hx, hf⟩, ht⟩
  | declared name => exact ⟨.all [next, target], ⟨_, hx, rfl⟩, by simpa [Successors.targets] using hmem⟩

theorem returnNode {slot : Int} {nodes t : Nat} (h : f.Widens w)
    (hf : Node.returnNode slot nodes f = .ok t) : Node.returnNode slot nodes w = .ok t := by
  simp only [Node.returnNode, bind_eq_ok] at hf ⊢
  obtain ⟨⟨t, p⟩, he, hf⟩ := hf
  obtain ⟨⟨u, q⟩, hx, htype, -⟩ := h.getLocal he
  refine ⟨_, hx, ?_⟩
  cases htype with
  | same => exact hf
  | declared => cases hf

theorem successors {node : Node} {size t : Nat} {succs : Successors} (h : f.Widens w)
    (hf : node.successors size f = .ok succs) (ht : t ∈ succs.targets) :
    ∃ succs', node.successors size w = .ok succs' ∧ t ∈ succs'.targets := by
  rw [Node.successors] at hf ⊢
  split at hf
  · split at hf
    · exact h.testNull hf ht
    · exact ⟨succs, hf, ht⟩
  · exact ⟨succs, hf, ht⟩
  · simp only [bind_eq_ok, pure_eq_ok] at hf ⊢
    obtain ⟨t', hr, rfl⟩ := hf
    exact ⟨_, ⟨t', h.returnNode hr, rfl⟩, ht⟩
  · exact ⟨succs, hf, ht⟩

/-- Where a wider frame still has null for a receiver, it was null. -/
theorem nullReceiver {site : Site} {node cause : Int} (h : f.Widens w)
    (hw : Receiver.type? site w = .error (.nullReceiver node cause)) :
    Receiver.type? site f = .error (.nullReceiver node cause) := by
  obtain ⟨d, ⟨u, q⟩, hd, hx, hn, hnode, hcause⟩ := Receiver.type?_eq_nullReceiver.1 hw
  obtain ⟨⟨t, p⟩, he, htype, hp⟩ := exists_of_forall₂ h.stack hx
  refine Receiver.type?_eq_nullReceiver.2 ⟨d, _, hd, he, ?_, hnode, hp.trans hcause⟩
  cases htype with
  | same => exact hn
  | declared => rfl

end Frame.Widens

/-- One node, with a frame and a wider one. -/
structure Config.Widens (c d : Config) : Prop where
  node : c.node = d.node
  frame : c.frame.Widens d.frame

section

variable {m : Method} {g : Graph} {code : Code} {start : Frame} {c c' d : Config}
  {links : List (Config × Config)}

theorem Advances.widens (hb : Graph.build m = .ok g) (h : Advances g ⟨code, false⟩ c c')
    (hd : c.Widens d) : ∃ d', Advances g ⟨code, true⟩ d d' ∧ c'.Widens d' := by
  obtain ⟨i, f⟩ := c
  obtain ⟨j, w⟩ := d
  obtain ⟨hnode, hw⟩ := hd
  cases hnode
  cases id h with
  | @step n succs t frame hn hs ht happ =>
    obtain ⟨succs', hs', ht'⟩ := hw.successors hs ht
    obtain ⟨w', happ', hw'⟩ := hw.apply (h.ne_throw hb hn) happ
    exact ⟨⟨t, w'⟩, .step hn hs' ht' happ', rfl, hw'⟩

theorem Raises.widens (h : Raises g c c') (hd : c.Widens d) :
    ∃ d', Raises g d d' ∧ c'.Widens d' := by
  obtain ⟨i, f⟩ := c
  obtain ⟨j, w⟩ := d
  obtain ⟨hnode, hw⟩ := hd
  cases hnode
  cases h with
  | exception hn hh =>
    exact ⟨_, .exception (c := ⟨i, w⟩) hn hh, rfl, hw.locals, .cons (.refl _) .nil⟩

theorem Config.Widens.hasNullReceiver (h : c.Widens d) (hd : d.HasNullReceiver g) :
    c.HasNullReceiver g := by
  obtain ⟨n, node, cause, hn, hr⟩ := hd
  obtain ⟨hnode, hw⟩ := h
  rw [← hnode] at hn hr
  exact ⟨n, node, cause, hn, hw.nullReceiver hr⟩

/-- Two links of one kind that go from one node to one other, the second with wider frames. -/
structure WiderLink (g : Graph) (code : Code) (l k : Config × Config) : Prop where
  source : l.1.Widens k.1
  target : l.2.Widens k.2
  kind : Advances g ⟨code, false⟩ l.1 l.2 ∧ Advances g ⟨code, true⟩ k.1 k.2 ∨
    Raises g l.1 l.2 ∧ Raises g k.1 k.2
  receiver : k.1.HasNullReceiver g → l.1.HasNullReceiver g

/-- With declared types of locals the same steps and exceptions are possible as without them, through the
same nodes. The frames on the way differ where a null has become a reference that may be null. -/
theorem declared_locals_add_paths (hb : Graph.build m = .ok g)
    (h : Chain g ⟨m.code, false⟩ start c links) :
    ∃ d links', Chain g ⟨m.code, true⟩ start d links' ∧ c.Widens d ∧
      List.Forall₂ (WiderLink g m.code) links links' := by
  induction h with
  | start => exact ⟨_, _, .start, ⟨rfl, .refl start⟩, .nil⟩
  | @link c c' links _ hf ih =>
    obtain ⟨d, links', hd, hw, hl⟩ := ih
    rcases hf with hf | hf
    · obtain ⟨d', hd', hw'⟩ := hf.widens hb hw
      exact ⟨d', _, .link hd (.inl hd'), hw', .cons ⟨hw, hw', .inl ⟨hf, hd'⟩, hw.hasNullReceiver⟩ hl⟩
    · obtain ⟨d', hd', hw'⟩ := hf.widens hw
      exact ⟨d', _, .link hd (.inr hd'), hw', .cons ⟨hw, hw', .inr ⟨hf, hd'⟩, hw.hasNullReceiver⟩ hl⟩

end

/-- A declared variable that is set to null and tested. -/
def declaredNull : Method where
  className := "a/B"
  name := "m"
  descriptor := "()V"
  static := true
  code := {
    instructions := [{ offset := 0, op := ⟨1⟩ }, { offset := 1, op := ⟨75⟩ }, { offset := 2, op := ⟨42⟩ },
      { offset := 3, op := ⟨198⟩, target := 7 }, { offset := 6, op := ⟨177⟩ },
      { offset := 7, op := ⟨177⟩ }]
    locals := [⟨0, "s", "Ljava/lang/String;", 2, 6⟩]
    maxLocals := 1 }

theorem declared_locals_add_paths_declaredNull : ∃ g start links d links',
    Graph.build declaredNull = .ok g ∧ declaredNull.startFrame = .ok start ∧
    Chain g ⟨declaredNull.code, false⟩ start ⟨5, [⟨.null, 0⟩], []⟩ links ∧
    Chain g ⟨declaredNull.code, true⟩ start d links' ∧
    Config.Widens ⟨5, [⟨.null, 0⟩], []⟩ d ∧
    List.Forall₂ (WiderLink g declaredNull.code) links links' := by
  have h : (declaredNull.walk? false [1, 2, 3, 5]).any fun t =>
      decide (t.2.2 = ⟨5, [⟨.null, 0⟩], []⟩) := by decide +kernel
  obtain ⟨⟨g, start, c⟩, ht, h⟩ := (Option.any_eq_true _ _).1 h
  obtain ⟨hb, hs, links, he⟩ := Method.walk?_eq_some ht
  obtain rfl : c = _ := of_decide_eq_true h
  obtain ⟨d, links', hd, hw, hl⟩ := declared_locals_add_paths hb he.chain
  exact ⟨g, start, links, d, links', hb, hs, he.chain, hd, hw, hl⟩

end BytecodeFlow
