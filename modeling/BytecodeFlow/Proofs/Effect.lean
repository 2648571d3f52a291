import BytecodeFlow.Proofs.Except

namespace BytecodeFlow

namespace Descriptor

/-- The types that descriptors name: numbers, and references that may be null. -/
inductive Named : ValueType → Prop
  | number (k : Numeric) : Named k.type
  | object (name : String) : Named (.object name)

theorem Named.ne_returnAddress {t : ValueType} (h : Named t) (a : Int) : t ≠ .returnAddress a := by
  cases h with
  | number k => cases k <;> nofun
  | object => nofun

theorem Named.isNull {t : ValueType} (h : Named t) : t.isNull = false := by
  cases h with
  | number k => cases k <;> rfl
  | object => rfl

theorem Named.isNonNull {t : ValueType} (h : Named t) : t.isNonNull = false := by
  cases h with
  | number k => cases k <;> rfl
  | object => rfl

theorem named_of_scalar {cs rest : List Char} {t : ValueType} (h : scalar cs = .ok (t, rest)) :
    Named t := by
  unfold scalar at h
  split at h <;> try cases h
  · exact .number .int
  · exact .number .int
  · exact .number .int
  · exact .number .int
  · exact .number .int
  · exact .number .long
  · exact .number .float
  · exact .number .double
  · split at h
    · cases h
    · split at h
      · cases h
      · cases h
        exact .object _

theorem named_of_fieldType {cs rest : List Char} {t : ValueType}
    (h : fieldType cs = .ok (t, rest)) : Named t := by
  unfold fieldType at h
  split at h
  · split at h
    · cases h
    · cases h
      exact .object _
  · exact named_of_scalar h

theorem named_of_field {descriptor : String} {t : ValueType} (h : field descriptor = .ok t) :
    Named t := by
  simp only [field, bind_eq_ok] at h
  obtain ⟨⟨t', rest⟩, ht, h⟩ := h
  split at h
  · cases h
    exact named_of_fieldType ht
  · cases h

theorem named_of_params {whole : String} {cs rest : List Char} {ts : List ValueType}
    (h : params whole cs = .ok (ts, rest)) : ∀ t ∈ ts, Named t := by
  fun_induction params whole cs generalizing ts rest with
  | case1 => cases h
  | case2 cs =>
    cases h
    simp
  | case3 | case4 => cases h
  | case5 c cs _ t rest' hf _ ts' rest'' hp ih =>
    cases h
    intro t' ht'
    rcases List.mem_cons.1 ht' with rfl | ht'
    · exact named_of_fieldType hf
    · exact ih hp t' ht'

theorem named_of_mem_params {descriptor : String} {s : Signature} (h : method descriptor = .ok s) :
    ∀ t ∈ s.params, Named t := by
  rw [method] at h
  split at h
  · simp only [bind_eq_ok, pure_eq_ok] at h
    obtain ⟨⟨ts, rest⟩, hp, r, -, rfl⟩ := h
    exact named_of_params hp
  · cases h

theorem named_of_method {descriptor : String} {s : Signature} {t : ValueType}
    (h : method descriptor = .ok s) (ht : s.result = some t) : Named t := by
  rw [method] at h
  split at h
  · simp only [bind_eq_ok, pure_eq_ok] at h
    obtain ⟨⟨ts, rest⟩, -, r, hr, rfl⟩ := h
    subst ht
    rw [result] at hr
    split at hr
    · cases hr
    · split at hr
      · cases hr
      · cases hr
        next hf => exact named_of_fieldType hf
      · cases hr
  · cases h

theorem named_element (array : ValueType) : Named (element array) := by
  rw [element]
  split
  · split
    · next h => exact named_of_field h
    · exact .object _
  · exact .object _

end Descriptor

namespace Frame

def entries (f : Frame) : List Entry := f.locals ++ f.stack

theorem mem_entries {f : Frame} {e : Entry} : e ∈ f.entries ↔ e ∈ f.locals ∨ e ∈ f.stack :=
  List.mem_append

theorem mem_push {f : Frame} {x e : Entry} : e ∈ (f.push x).entries ↔ e = x ∨ e ∈ f.entries := by
  simp only [mem_entries, push, List.mem_cons]
  exact or_left_comm

theorem mem_of_mem_discard {f : Frame} {n : Nat} {e : Entry} (h : e ∈ (f.discard n).entries) :
    e ∈ f.entries := by
  rw [mem_entries] at *
  exact h.imp_right List.mem_of_mem_drop

theorem popMany_eq_ok {f f' : Frame} {n : Nat} :
    f.popMany n = .ok f' ↔ n ≤ f.stack.length ∧ f' = f.discard n := by
  rw [popMany]
  split
  next h => simp [h, eq_comm]
  next h => simp [h]

theorem mem_of_popMany {f f' : Frame} {n : Nat} (h : f.popMany n = .ok f') {e : Entry}
    (he : e ∈ f'.entries) : e ∈ f.entries := by
  obtain ⟨-, rfl⟩ := popMany_eq_ok.1 h
  exact mem_of_mem_discard he

theorem pop_eq_ok {f f' : Frame} {x : Entry} :
    f.pop = .ok (x, f') ↔ ∃ rest, f.stack = x :: rest ∧ f' = { f with stack := rest } := by
  rw [pop]
  cases hs : f.stack with
  | nil => simp
  | cons y rest =>
    simp only [Except.ok.injEq, Prod.mk.injEq, List.cons.injEq]
    constructor
    · rintro ⟨rfl, rfl⟩
      exact ⟨rest, ⟨rfl, rfl⟩, rfl⟩
    · rintro ⟨_, ⟨rfl, rfl⟩, rfl⟩
      exact ⟨rfl, rfl⟩

theorem mem_of_pop {f f' : Frame} {x : Entry} (h : f.pop = .ok (x, f')) :
    x ∈ f.stack ∧ ∀ e ∈ f'.entries, e ∈ f.entries := by
  obtain ⟨rest, hs, rfl⟩ := pop_eq_ok.1 h
  refine ⟨hs ▸ List.mem_cons_self, fun e he => ?_⟩
  rw [mem_entries] at *
  rw [hs]
  exact he.imp_right (List.mem_cons_of_mem x)

theorem peek_eq_ok {f : Frame} {d : Nat} {e : Entry} :
    f.peek d = .ok e ↔ f.stack[d]? = some e := by
  change f.peek (.ofNat d) = _ ↔ _
  rw [peek]
  cases f.stack[d]? <;> simp

theorem getLocal_eq_ok {f : Frame} {k : Nat} {e : Entry} :
    f.getLocal k = .ok e ↔ f.locals[k]? = some e := by
  change f.getLocal (.ofNat k) = _ ↔ _
  rw [getLocal]
  cases f.locals[k]? <;> simp

theorem mem_of_getLocal {f : Frame} {slot : Int} {e : Entry} (h : f.getLocal slot = .ok e) :
    e ∈ f.locals := by
  unfold getLocal at h
  split at h
  next n =>
    cases hl : f.locals[n]? with
    | none => simp [hl] at h
    | some x =>
      simp only [hl, Except.ok.injEq] at h
      exact h ▸ List.mem_of_getElem? hl
  next => cases h

theorem setLocal_eq_ok {f f' : Frame} {slot : Int} {x : Entry} : f.setLocal slot x = .ok f' ↔
    ∃ k : Nat, slot = k ∧ k < f.locals.length ∧ f' = { f with locals := f.locals.set k x } := by
  rw [setLocal]
  constructor
  · intro h
    split at h
    next hs =>
      cases h
      exact ⟨slot.toNat, by omega, by omega, rfl⟩
    next => cases h
  · rintro ⟨k, rfl, hk, rfl⟩
    rw [if_pos (by omega)]
    rfl

theorem mem_of_setLocal {f f' : Frame} {slot : Int} {x : Entry} (h : f.setLocal slot x = .ok f')
    {e : Entry} (he : e ∈ f'.entries) : e = x ∨ e ∈ f.entries := by
  obtain ⟨k, -, -, rfl⟩ := setLocal_eq_ok.1 h
  rw [mem_entries] at *
  rcases he with he | he
  · rcases List.mem_or_eq_of_mem_set he with he | he
    · exact .inr (.inl he)
    · exact .inl he
  · exact .inr (.inr he)

theorem mem_replace {f : Frame} {old new : ValueType} {e : Entry} :
    e ∈ (f.replace old new).entries ↔ ∃ x ∈ f.entries, retype old new x = e := by
  simp only [entries, replace, ← List.map_append, List.mem_map]

end Frame

namespace Effect

/-- Rearranging the stack neither makes nor changes an entry. -/
theorem mem_of_shuffle {k : Shuffle} {s s' : List Entry} (h : shuffle k s = .ok s') {e : Entry}
    (he : e ∈ s') : e ∈ s := by
  revert h
  fun_cases shuffle k s <;> intro h <;> cases h
  -- what is left rearranges entries that the stack begins with
  all_goals
    simp only [List.mem_cons] at he ⊢
    grind

/-- The types of the values that an instruction creates. -/
inductive Created (node : Int) (instr : Instruction) (f : Frame) : ValueType → Prop
  | free : Created node instr f .top
  | number (k : Numeric) : Created node instr f k.type
  | null : instr.operation = .pushNull → Created node instr f .null
  | constant {form : ConstantForm} {c : Constant} {t : ValueType} :
    instr.operation = .constant form → constantType c = .ok t → Created node instr f t
  | element {array : Entry} : instr.operation = .arrayLoad .reference → array ∈ f.stack →
    Created node instr f (elementType .reference array.type)
  | address {long : Bool} : instr.operation = .jsr long →
    Created node instr f (.returnAddress (word (node + 1)))
  | named {t : ValueType} : Descriptor.Named t → Created node instr f t
  | new : instr.operation = .new → Created node instr f (.uninitialized instr.className node)
  | array {name : String} : instr.operation = .newArray ∨ instr.operation = .newObjectArray ∨
    instr.operation = .newMultiArray → Created node instr f (.nonNullObject name)
  | thrown {e : Entry} : instr.operation = .throw → e ∈ f.stack →
    Created node instr f (thrownType e.type)

/-- The entries that a frame can have after an instruction. -/
inductive Yields (ctx : Context) (node : Int) (instr : Instruction) (f : Frame) : Entry → Prop
  | kept {e : Entry} : e ∈ f.entries → Yields ctx node instr f e
  | loaded {e : Entry} (c : Category) : e ∈ f.locals →
    Yields ctx node instr f { e with type := loadedType c e.type }
  | stored {e : Entry} : e ∈ f.stack →
    Yields ctx node instr f { e with type := storedType ctx instr e.type }
  | cast {e : Entry} (className : String) : e ∈ f.stack →
    Yields ctx node instr f { e with type := castType className e.type }
  | initialized {e receiver : Entry} : receiver ∈ f.stack →
    receiver.type.kind = .uninitialized → e ∈ f.entries →
    Yields ctx node instr f (Frame.retype receiver.type receiver.type.initialized e)
  | created {t : ValueType} : Created node instr f t → Yields ctx node instr f ⟨t, node⟩

section Apply

variable {ctx : Context} {node : Int} {instr : Instruction} {f f' : Frame}

theorem yields_push {e x : Entry} (he : e ∈ (f'.push x).entries) (hx : Yields ctx node instr f x)
    (hf : ∀ e ∈ f'.entries, Yields ctx node instr f e) : Yields ctx node instr f e := by
  rcases Frame.mem_push.1 he with rfl | he
  · exact hx
  · exact hf e he

theorem yields_of_popPush {n : Nat} {x : Entry} (h : popPush f n x = .ok f')
    (hx : Yields ctx node instr f x) : ∀ e ∈ f'.entries, Yields ctx node instr f e := by
  simp only [popPush, bind_eq_ok, pure_eq_ok] at h
  obtain ⟨f₁, hp, rfl⟩ := h
  intro e he
  exact yields_push he hx fun e he => .kept (Frame.mem_of_popMany hp he)

theorem mem_of_clobber {slot : Int} (h : clobber node slot f = .ok f') {e : Entry}
    (he : e ∈ f'.entries) : e = ⟨.top, node⟩ ∨ e ∈ f.entries := by
  rw [clobber] at h
  split at h
  · simp only [bind_eq_ok] at h
    obtain ⟨held, -, h⟩ := h
    split at h
    · exact Frame.mem_of_setLocal h he
    · cases h
      exact .inr he
  · cases h
    exact .inr he

theorem yields_of_store (h : store ctx node instr f = .ok f') :
    ∀ e ∈ f'.entries, Yields ctx node instr f e := by
  simp only [store, bind_eq_ok] at h
  obtain ⟨⟨value, f₁⟩, hp, f₂, hc, f₃, hs, h⟩ := h
  obtain ⟨hv, hf₁⟩ := Frame.mem_of_pop hp
  have yields₂ : ∀ e ∈ f₂.entries, Yields ctx node instr f e := by
    intro e he
    rcases mem_of_clobber hc he with rfl | he
    · exact .created .free
    · exact .kept (hf₁ e he)
  have yields₃ : ∀ e ∈ f₃.entries, Yields ctx node instr f e := by
    intro e he
    rcases Frame.mem_of_setLocal hs he with rfl | he
    · exact .stored hv
    · exact yields₂ e he
  split at h
  · intro e he
    rcases Frame.mem_of_setLocal h he with rfl | he
    · exact .created .free
    · exact yields₃ e he
  · cases h
    exact yields₃

theorem yields_of_load {c : Category} (h : load c instr f = .ok f') :
    ∀ e ∈ f'.entries, Yields ctx node instr f e := by
  simp only [load, bind_eq_ok, pure_eq_ok] at h
  obtain ⟨held, hl, rfl⟩ := h
  intro e he
  exact yields_push he (.loaded c (Frame.mem_of_getLocal hl)) fun e he => .kept he

theorem yields_of_popReceiver {i : Invocation} {m : Member} {f₁ : Frame} {n : Nat}
    (hf : f.popMany n = .ok f₁) (h : popReceiver i m f₁ = .ok f') :
    ∀ e ∈ f'.entries, Yields ctx node instr f e := by
  rw [popReceiver] at h
  split at h
  · simp only [bind_eq_ok] at h
    obtain ⟨⟨receiver, f₂⟩, hp, h⟩ := h
    obtain ⟨hr, hf₂⟩ := Frame.mem_of_pop hp
    obtain ⟨-, rfl⟩ := Frame.popMany_eq_ok.1 hf
    split at h
    next hi =>
      cases h
      intro e he
      obtain ⟨x, hx, rfl⟩ := Frame.mem_replace.1 he
      exact .initialized (List.mem_of_mem_drop hr) hi.2.2 (Frame.mem_of_mem_discard (hf₂ x hx))
    next =>
      cases h
      intro e he
      exact .kept (Frame.mem_of_mem_discard (hf₂ e he))
  · cases h
    intro e he
    exact .kept (Frame.mem_of_popMany hf he)

theorem yields_of_invoke {i : Invocation} (h : invoke node i instr f = .ok f') :
    ∀ e ∈ f'.entries, Yields ctx node instr f e := by
  rw [invoke] at h
  split at h
  · cases h
  · simp only [bind_eq_ok, mapError_eq_ok, orFault_eq_ok] at h
    obtain ⟨sig, hs, f₁, hp, f₂, hr, h⟩ := h
    split at h
    next t ht =>
      cases h
      intro e he
      exact yields_push he (.created (.named (Descriptor.named_of_method hs ht)))
        (yields_of_popReceiver hp hr)
    next =>
      cases h
      exact yields_of_popReceiver hp hr

theorem named_of_fieldType {t : ValueType} (h : fieldType instr = .ok t) : Descriptor.Named t := by
  rw [fieldType] at h
  split at h
  · cases h
  · exact Descriptor.named_of_field (mapError_eq_ok.1 h)

theorem yields_of_apply (h : apply ctx node instr f = .ok f') :
    ∀ e ∈ f'.entries, Yields ctx node instr f e := by
  have kept : ∀ e ∈ f.entries, Yields ctx node instr f e := fun e he => .kept he
  have pushed {t : ValueType} (ht : Created node instr f t) :
      ∀ e ∈ (f.push ⟨t, node⟩).entries, Yields ctx node instr f e :=
    fun e he => yields_push he (.created ht) kept
  have popped {n : Nat} (h : f.popMany n = .ok f') : ∀ e ∈ f'.entries, Yields ctx node instr f e :=
    fun e he => .kept (Frame.mem_of_popMany h he)
  have popPushed {n : Nat} {t : ValueType} (h : popPush f n ⟨t, node⟩ = .ok f')
      (ht : Created node instr f t) : ∀ e ∈ f'.entries, Yields ctx node instr f e :=
    yields_of_popPush h (.created ht)
  unfold apply at h
  cases hop : instr.operation <;> simp only [hop, orFault_eq_ok, bind_eq_ok, pure_eq_ok,
    Except.ok.injEq, reduceCtorEq] at h
  case nop | goto | ret | returnVoid =>
    subst h
    exact kept
  case pushNull =>
    subst h
    exact pushed (.null hop)
  case push k =>
    subst h
    exact pushed (.number k)
  case immediate =>
    subst h
    exact pushed (.number .int)
  case constant =>
    split at h
    · cases h
    · simp only [bind_eq_ok, mapError_eq_ok, pure_eq_ok] at h
      obtain ⟨t, ht, rfl⟩ := h
      exact pushed (.constant hop ht)
  case load => exact yields_of_load h
  case store => exact yields_of_store h
  case increment =>
    intro e he
    rcases Frame.mem_of_setLocal h he with rfl | he
    · exact .created (.number .int)
    · exact .kept he
  case arrayLoad c =>
    split at h
    next index array rest hs =>
      cases h
      intro e he
      rcases Frame.mem_entries.1 he with he | he
      · exact .kept (Frame.mem_entries.2 (.inl he))
      · rcases List.mem_cons.1 he with rfl | he
        · cases c with
          | number k => exact .created (.number k)
          | reference => exact .created (.element hop (by simp [hs]))
        · exact .kept (Frame.mem_entries.2 (.inr (by simp [hs, he])))
    next => cases h
  case shuffle k =>
    obtain ⟨stack, hs, rfl⟩ := h
    intro e he
    refine .kept (Frame.mem_entries.2 ((Frame.mem_entries.1 he).imp_right fun he => ?_))
    exact mem_of_shuffle hs he
  case arrayStore | branch | switch | returnValue | putStatic | putField | monitor => exact popped h
  case unary k => exact popPushed h (.number k)
  case binary k _ => exact popPushed h (.number k)
  case arrayLength | instanceOf => exact popPushed h (.number .int)
  case jsr =>
    subst h
    exact pushed (.address hop)
  case getStatic =>
    obtain ⟨t, ht, rfl⟩ := h
    exact pushed (.named (named_of_fieldType ht))
  case getField =>
    obtain ⟨t, ht, h⟩ := h
    exact popPushed h (.named (named_of_fieldType ht))
  case invoke => exact yields_of_invoke h
  case new =>
    subst h
    exact pushed (.new hop)
  case newArray => exact popPushed h (.array (.inl hop))
  case newObjectArray => exact popPushed h (.array (.inr (.inl hop)))
  case newMultiArray => exact popPushed h (.array (.inr (.inr hop)))
  case throw =>
    split at h
    next x rest hs =>
      cases h
      intro e he
      rcases Frame.mem_entries.1 he with he | he
      · exact .kept (Frame.mem_entries.2 (.inl he))
      · rw [List.mem_singleton.1 he]
        exact .created (.thrown hop (by simp [hs]))
    next => cases h
  case checkCast =>
    split at h
    next x rest hs =>
      cases h
      intro e he
      rcases Frame.mem_entries.1 he with he | he
      · exact .kept (Frame.mem_entries.2 (.inl he))
      · rcases List.mem_cons.1 he with rfl | he
        · exact .cast instr.className (by simp [hs])
        · exact .kept (Frame.mem_entries.2 (.inr (by simp [hs, he])))
    next => cases h

end Apply

theorem Created.returnAddress {node a : Int} {instr : Instruction} {f : Frame} {t : ValueType}
    (h : Created node instr f t) (ht : t = .returnAddress a) :
    (∃ x ∈ f.entries, x.type = .returnAddress a) ∨
      ((∃ long, instr.operation = .jsr long) ∧ a = word (node + 1)) := by
  cases h with
  | free | null _ | new _ | array _ => cases ht
  | number k => exact absurd ht ((Descriptor.Named.number k).ne_returnAddress a)
  | @constant form c t _ hc =>
    subst ht
    cases c <;> cases hc
  | @element array _ _ =>
    simp only [elementType] at ht
    split at ht
    · cases ht
    · split at ht
      · exact absurd ht ((Descriptor.named_element _).ne_returnAddress a)
      · cases ht
  | address hop =>
    cases ht
    exact .inr ⟨⟨_, hop⟩, rfl⟩
  | named hn => exact absurd ht (hn.ne_returnAddress a)
  | @thrown e _ he =>
    rw [thrownType] at ht
    split at ht
    · cases ht
    · exact .inl ⟨e, Frame.mem_entries.2 (.inr he), ht⟩

/-- What becomes of the type of a value that is only moved: it stays, or nothing is known of the value
any more, or an object is one still. -/
inductive Retyped : ValueType → ValueType → Prop
  | same (t : ValueType) : Retyped t t
  | forgotten {t t' : ValueType} : Descriptor.Named t' → Retyped t t'
  | object {t : ValueType} (name : String) : t.isNonNull = true → Retyped t (.nonNullObject name)

theorem retyped_loadedType (c : Category) (t : ValueType) : Retyped t (loadedType c t) := by
  cases c with
  | number k => exact .forgotten (.number k)
  | reference =>
    rw [loadedType]
    split
    · exact .same t
    · exact .forgotten (.object _)

theorem retyped_storedType (ctx : Context) (instr : Instruction) (t : ValueType) :
    Retyped t (storedType ctx instr t) := by
  rw [storedType]
  split
  · split
    · exact .same t
    · split
      next declared hd =>
        split
        · exact .forgotten (Descriptor.named_of_field hd)
        · exact .same t
      next => exact .same t
  · exact .same t

theorem retyped_castType (className : String) (t : ValueType) :
    Retyped t (castType className t) := by
  rw [castType]
  split
  · exact .same t
  · split
    next h => exact .object className h
    next => exact .forgotten (.object className)

theorem retyped_retype {old : ValueType} (h : old.kind = .uninitialized) (e : Entry) :
    Retyped e.type (Frame.retype old old.initialized e).type := by
  rw [Frame.retype]
  split
  next he =>
    subst he
    cases ht : e.type <;> rw [ht] at h <;> cases h
    exact .object _ rfl
  next => exact .same e.type

/-- An entry after an instruction was moved from one before, with its producer, or was created. -/
theorem Yields.moved_or_created {ctx : Context} {node : Int} {instr : Instruction} {f : Frame}
    {e : Entry} (h : Yields ctx node instr f e) :
    (∃ x ∈ f.entries, x.producer = e.producer ∧ Retyped x.type e.type) ∨
      Created node instr f e.type ∧ e.producer = node := by
  cases h with
  | kept he => exact .inl ⟨e, he, rfl, .same e.type⟩
  | loaded c he =>
    exact .inl ⟨_, Frame.mem_entries.2 (.inl he), rfl, retyped_loadedType c _⟩
  | stored he => exact .inl ⟨_, Frame.mem_entries.2 (.inr he), rfl, retyped_storedType ctx instr _⟩
  | cast className he =>
    exact .inl ⟨_, Frame.mem_entries.2 (.inr he), rfl, retyped_castType className _⟩
  | @initialized x receiver _ hu hx =>
    refine .inl ⟨x, hx, ?_, retyped_retype hu x⟩
    rw [Frame.retype]
    split <;> rfl
  | created hc => exact .inr ⟨hc, rfl⟩

theorem Yields.returnAddress {ctx : Context} {node a : Int} {instr : Instruction} {f : Frame}
    {e : Entry} (h : Yields ctx node instr f e) (ht : e.type = .returnAddress a) :
    (∃ x ∈ f.entries, x.type = .returnAddress a) ∨
      ((∃ long, instr.operation = .jsr long) ∧ a = word (node + 1)) := by
  rcases h.moved_or_created with ⟨x, hx, -, hr⟩ | ⟨hc, -⟩
  · rw [ht] at hr
    generalize hxt : x.type = t at hr
    cases hr with
    | same => exact .inl ⟨x, hx, hxt⟩
    | forgotten hn => exact absurd rfl (hn.ne_returnAddress a)
  · exact hc.returnAddress ht

end Effect

end BytecodeFlow
