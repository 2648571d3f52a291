import BytecodeFlow.Proofs.Effect
import BytecodeFlow.Proofs.Machine.Semantics
import BytecodeFlow.Proofs.Pointwise

namespace BytecodeFlow

open Machine

/-- The value may have the type: sizes agree, and what the type says about null and about a return
address is so. -/
structure ValueType.Describes (t : ValueType) (v : Value) : Prop where
  size : v.size = t.size
  null : t.isNull = true → v = .null
  nonNull : t.isNonNull = true → v = .object
  address : ∀ {a : Int}, t = .returnAddress a → ∃ k : Nat, a = k ∧ v = .address k

namespace ValueType.Describes

variable {t : ValueType} {v : Value}

theorem top (h : v.size = 1) : ValueType.top.Describes v := by
  constructor <;> simp_all [ValueType.size, isNull, isNonNull]

theorem object (name : String) (h : v.size = 1) : (ValueType.object name).Describes v := by
  constructor <;> simp_all [ValueType.size, isNull, isNonNull, ValueType.object]

theorem nonNullObject (name : String) : (ValueType.nonNullObject name).Describes .object := by
  constructor <;> simp [ValueType.size, Value.size, isNull, ValueType.nonNullObject]

theorem uninitialized (name : String) (creator : Int) :
    (ValueType.uninitialized name creator).Describes .object := by
  constructor <;> simp [ValueType.size, Value.size, isNull]

theorem nothing : ValueType.null.Describes .null := by
  constructor <;> simp [ValueType.size, Value.size, isNonNull]

theorem returnAddress (k : Nat) : (ValueType.returnAddress k).Describes (.address k) := by
  constructor <;> simp [ValueType.size, Value.size, isNull, isNonNull]

theorem sized {k : Numeric} (h : v.size = (Category.number k).slots) : k.type.Describes v := by
  cases k <;> constructor <;>
    simp_all [Numeric.type, Category.slots, ValueType.size, isNull, isNonNull]

theorem number (k : Numeric) : k.type.Describes (.number k) := by
  apply sized
  cases k <;> rfl

theorem of (h : v.Of t) : t.Describes v := by
  cases h with
  | number k => exact number k
  | null name => exact object name rfl
  | object name => exact object name rfl

theorem reference (h : Descriptor.Named t) (hr : t.isReference = true) (hv : v.size = 1) :
    t.Describes v := by
  cases h with
  | number k => cases k <;> cases hr
  | object name => exact object name hv

theorem constant {c : Constant} (h : Value.ofConstant? c = some v) :
    ∃ t, Effect.constantType c = .ok t ∧ t.Describes v := by
  cases c <;> cases h
  · exact ⟨_, rfl, number .int⟩
  · exact ⟨_, rfl, number .long⟩
  · exact ⟨_, rfl, number .float⟩
  · exact ⟨_, rfl, number .double⟩
  all_goals exact ⟨_, rfl, nonNullObject _⟩

theorem loaded {c : Category} {w : Value} (h : t.Describes v) (hw : v.LoadsAs c w) :
    (Effect.loadedType c t).Describes w := by
  cases c with
  | number k => exact sized hw.1
  | reference =>
    rw [Effect.loadedType]
    split
    next ht =>
      have hone : t.size = 1 := by cases t <;> simp_all [isReference, kind, ValueType.size]
      rw [hw.2 (h.size.trans hone)]
      exact h
    next => exact object _ hw.1

theorem cast {name : String} (h : t.Describes v) (hv : v.size = 1) :
    (Effect.castType name t).Describes v := by
  rw [Effect.castType]
  split
  · exact h
  · split
    next hn =>
      rw [h.nonNull hn]
      exact nonNullObject name
    next => exact object name hv

theorem stored {ctx : Effect.Context} {instr : Instruction} (h : t.Describes v) :
    (Effect.storedType ctx instr t).Describes v := by
  rw [Effect.storedType]
  split
  next hn =>
    rw [Bool.and_eq_true] at hn
    obtain rfl := h.null hn.1
    split
    · exact h
    · split
      next declared hd =>
        split
        next hr => exact reference (Descriptor.named_of_field hd) hr rfl
        next => exact h
      next => exact h
  next => exact h

theorem element {c : Category} (h : t.Describes .object) (hv : v.Element c) :
    (Effect.elementType c t).Describes v := by
  cases hv with
  | number k => exact number k
  | null | object =>
    simp only [Effect.elementType]
    split
    next hn => cases h.null hn
    next =>
      split
      next hr => exact reference (Descriptor.named_element t) hr rfl
      next => exact object _ rfl

theorem initialized (h : t.Describes v) (ht : t.kind = .uninitialized) : t.initialized.Describes v := by
  cases t <;> cases ht
  rw [h.nonNull rfl]
  exact nonNullObject _

end ValueType.Describes

/-- The entry has a type that describes the value. -/
def Entry.Describes (e : Entry) (v : Value) : Prop := e.type.Describes v

/-- Entry by entry, the frame describes the state. -/
structure Frame.Describes (f : Frame) (s : State) : Prop where
  locals : List.Forall₂ Entry.Describes f.locals s.locals
  stack : List.Forall₂ Entry.Describes f.stack s.stack

theorem Entry.Describes.isPair_eq {e : Entry} {v : Value} (h : e.Describes v) :
    Effect.isPair e = (v.size == 2) := by
  rw [Effect.isPair, h.size]

theorem Machine.Halves.length_eq {k : Nat} {l l' : List Value} (h : Halves k l l') :
    l'.length = l.length := by
  cases h <;> simp

namespace Frame

theorem setLocal_of_lt {f : Frame} {k : Nat} (h : k < f.locals.length) (e : Entry) :
    f.setLocal k e = .ok { f with locals := f.locals.set k e } := by
  rw [setLocal, if_pos (by omega)]
  rfl

end Frame

namespace Frame.Describes

variable {f : Frame} {l st : List Value} {v : Value} {t : ValueType}

theorem push (h : f.Describes ⟨l, st⟩) (ht : t.Describes v) (producer : Int) :
    (f.push ⟨t, producer⟩).Describes ⟨l, v :: st⟩ :=
  ⟨h.locals, .cons ht h.stack⟩

theorem discard {vs : List Value} (h : f.Describes ⟨l, vs ++ st⟩) :
    (f.discard vs.length).Describes ⟨l, st⟩ :=
  ⟨h.locals, List.forall₂_drop_append f.stack vs st h.stack⟩

theorem popMany {n : Nat} (vs : List Value) (h : f.Describes ⟨l, vs ++ st⟩) (hn : vs.length = n) :
    ∃ f', f.popMany n = .ok f' ∧ f'.Describes ⟨l, st⟩ := by
  subst hn
  refine ⟨f.discard vs.length, Frame.popMany_eq_ok.2 ⟨?_, rfl⟩, h.discard⟩
  have hlen := h.stack.length_eq
  simp only [List.length_append] at hlen
  omega

theorem popPush {n : Nat} (vs : List Value) (h : f.Describes ⟨l, vs ++ st⟩) (hn : vs.length = n)
    (ht : t.Describes v) (producer : Int) :
    ∃ f', Effect.popPush f n ⟨t, producer⟩ = .ok f' ∧ f'.Describes ⟨l, v :: st⟩ := by
  obtain ⟨f', hf, hd⟩ := h.popMany vs hn
  exact ⟨_, by rw [Effect.popPush, hf]; rfl, hd.push ht producer⟩

theorem pop (h : f.Describes ⟨l, v :: st⟩) :
    ∃ e f', f.pop = .ok (e, f') ∧ e.Describes v ∧ f'.Describes ⟨l, st⟩ := by
  obtain ⟨locals, stack⟩ := f
  cases h.stack with
  | cons he hs => exact ⟨_, _, rfl, he, h.locals, hs⟩

theorem getLocal {k : Nat} (h : f.Describes ⟨l, st⟩) (hv : l[k]? = some v) :
    ∃ e, f.getLocal k = .ok e ∧ e.Describes v := by
  obtain ⟨e, he, hd⟩ := exists_of_forall₂ h.locals hv
  exact ⟨e, Frame.getLocal_eq_ok.2 he, hd⟩

theorem setLocal {k : Nat} (h : f.Describes ⟨l, st⟩) (hk : k < l.length) (ht : t.Describes v)
    (producer : Int) :
    ∃ f', f.setLocal k ⟨t, producer⟩ = .ok f' ∧ f'.Describes ⟨l.set k v, st⟩ := by
  refine ⟨_, Frame.setLocal_of_lt ?_ _, forall₂_set h.locals k ht, h.stack⟩
  rw [h.locals.length_eq]
  exact hk

theorem clobber {k : Nat} {l' : List Value} (h : f.Describes ⟨l, st⟩) (hk : k < l.length)
    (hl : Halves k l l') (node : Int) :
    ∃ f', Effect.clobber node k f = .ok f' ∧ f'.Describes ⟨l', st⟩ := by
  cases k with
  | zero =>
    cases hl with
    | none _ => exact ⟨f, rfl, h⟩
    | half hj _ _ => cases hj
  | succ k =>
    have hslot : ((k + 1 : Nat) : Int) - 1 = k := by omega
    have hv := List.getElem?_eq_getElem (Nat.lt_of_succ_lt hk)
    obtain ⟨e, he, hd⟩ := h.getLocal hv
    simp only [Effect.clobber, if_pos (show (0 : Int) < (k + 1 : Nat) by omega), hslot]
    cases hl with
    | none hnot =>
      have hpair : Effect.isPair e = false := by
        rw [hd.isPair_eq]
        have := hnot k rfl
        cases hk : l[k] <;> simp_all [Value.size]
      refine ⟨f, bind_eq_ok.2 ⟨e, he, ?_⟩, h⟩
      simp [hpair]
    | @half j w hj hp hw =>
      obtain rfl : j = k := by omega
      have hpair : Effect.isPair e = true := by
        rw [hd.isPair_eq, Option.some.inj (hv.symm.trans hp)]
        rfl
      obtain ⟨f', hf, hd'⟩ := h.setLocal (Nat.lt_of_succ_lt hk) (.top hw) node
      exact ⟨f', bind_eq_ok.2 ⟨e, he, by rw [if_pos hpair]; exact hf⟩, hd'⟩

theorem store {ctx : Effect.Context} {node : Int} {instr : Instruction} {k : Nat} {l' : List Value}
    (h : f.Describes ⟨l, v :: st⟩) (hk : instr.localIndex = k) (hs : Stores k v l l') :
    ∃ f', Effect.store ctx node instr f = .ok f' ∧ f'.Describes ⟨l', st⟩ := by
  obtain ⟨e, f₁, hp, he, h₁⟩ := h.pop
  have ht : (Effect.storedType ctx instr e.type).Describes v := he.stored
  have hpair : Effect.isPair ⟨Effect.storedType ctx instr e.type, e.producer⟩ = (v.size == 2) := by
    rw [Effect.isPair, ht.size]
  simp only [Effect.store, hk, bind_eq_ok]
  cases hs with
  | word hv hlt hh =>
    obtain ⟨f₂, hc, h₂⟩ := h₁.clobber hlt hh node
    obtain ⟨f₃, hset, h₃⟩ := h₂.setLocal (hh.length_eq ▸ hlt) ht e.producer
    refine ⟨f₃, ⟨_, hp, f₂, hc, f₃, hset, ?_⟩, h₃⟩
    simp [hpair, hv]
  | @pair l₁ second hv hlt hh hw =>
    obtain ⟨f₂, hc, h₂⟩ := h₁.clobber (by omega) hh node
    obtain ⟨f₃, hset, h₃⟩ := h₂.setLocal (k := k) (by rw [hh.length_eq]; omega) ht e.producer
    obtain ⟨f₄, hset', h₄⟩ :=
      h₃.setLocal (k := k + 1) (by simpa [hh.length_eq] using hlt) (.top hw) node
    refine ⟨f₄, ⟨_, hp, f₂, hc, f₃, hset, ?_⟩, h₄⟩
    simpa [hpair, hv] using hset'

theorem load {c : Category} {instr : Instruction} {k : Nat} {w : Value} (h : f.Describes ⟨l, st⟩)
    (hk : instr.localIndex = k) (hv : l[k]? = some v) (hw : v.LoadsAs c w) :
    ∃ f', Effect.load c instr f = .ok f' ∧ f'.Describes ⟨l, w :: st⟩ := by
  obtain ⟨e, he, hd⟩ := h.getLocal hv
  refine ⟨f.push ⟨Effect.loadedType c e.type, e.producer⟩, ?_, h.push (hd.loaded hw) e.producer⟩
  rw [Effect.load, hk, he]
  rfl

theorem shuffle {k : Shuffle} {stack : List Entry} {st' : List Value}
    (h : List.Forall₂ Entry.Describes stack st) (hs : Shuffles k st st') :
    ∃ stack', Effect.shuffle k stack = .ok stack' ∧ List.Forall₂ Entry.Describes stack' st' := by
  cases hs <;> simp only [List.forall₂_cons_right_iff] at h
  -- the stack has as many entries as the form has values, and their sizes select the same form
  case pop | pop2Pair | dup | dup2Pair =>
    obtain ⟨a, s, ha, hs, rfl⟩ := h
    simp [Effect.shuffle, ha.isPair_eq, *]
  case pop2 | dupX1 | dupX2Pair | dup2 | dup2X1Pair | dup2X2Pairs | swap =>
    obtain ⟨a, _, ha, ⟨b, s, hb, hs, rfl⟩, rfl⟩ := h
    simp [Effect.shuffle, ha.isPair_eq, hb.isPair_eq, *]
  case dupX2 | dup2X1 | dup2X2Below | dup2X2Above =>
    obtain ⟨a, _, ha, ⟨b, _, hb, ⟨c, s, hc, hs, rfl⟩, rfl⟩, rfl⟩ := h
    simp [Effect.shuffle, ha.isPair_eq, hb.isPair_eq, hc.isPair_eq, *]
  case dup2X2 =>
    obtain ⟨a, _, ha, ⟨b, _, hb, ⟨c, _, hc, ⟨d, s, hd, hs, rfl⟩, rfl⟩, rfl⟩, rfl⟩ := h
    simp [Effect.shuffle, ha.isPair_eq, hc.isPair_eq, *]

theorem replace {s : State} (h : f.Describes s) (ht : t.kind = .uninitialized) :
    (f.replace t t.initialized).Describes s := by
  have retyped {es : List Entry} {vs : List Value} (h : List.Forall₂ Entry.Describes es vs) :
      List.Forall₂ Entry.Describes (es.map (Frame.retype t t.initialized)) vs := by
    rw [List.forall₂_map_left_iff]
    refine h.imp fun e v he => ?_
    rw [Frame.retype]
    split
    next heq =>
      subst heq
      exact he.initialized ht
    next => exact he
  exact ⟨retyped h.locals, retyped h.stack⟩

theorem popReceiver {i : Invocation} (m : Member) (h : f.Describes ⟨l, receiver i ++ st⟩) :
    ∃ f', Effect.popReceiver i m f = .ok f' ∧ f'.Describes ⟨l, st⟩ := by
  have taken (hr : receiver i = [.object]) (hi : Effect.hasReceiver i = true) :
      ∃ f', Effect.popReceiver i m f = .ok f' ∧ f'.Describes ⟨l, st⟩ := by
    rw [hr] at h
    obtain ⟨e, f', hp, -, h'⟩ := h.pop
    simp only [Effect.popReceiver, hi, ↓reduceIte, bind_eq_ok]
    by_cases hc : i = .special ∧ m.name = constructorName ∧ e.type.kind = .uninitialized
    · exact ⟨_, ⟨_, hp, if_pos hc⟩, h'.replace hc.2.2⟩
    · exact ⟨_, ⟨_, hp, if_neg hc⟩, h'⟩
  cases i with
  | virtual | special | interface => exact taken rfl rfl
  | static | dynamic => exact ⟨f, rfl, h⟩

theorem invoke {i : Invocation} {instr : Instruction} {m : Member} {sig : Signature}
    {args out : List Value} (node : Int) (h : f.Describes ⟨l, args ++ (receiver i ++ st)⟩)
    (hm : instr.member = some m) (hs : Descriptor.method m.descriptor = .ok sig)
    (ha : args.length = sig.params.length) (ho : Value.Returned sig.result out) :
    ∃ f', Effect.invoke node i instr f = .ok f' ∧ f'.Describes ⟨l, out ++ st⟩ := by
  obtain ⟨f₁, hp, h₁⟩ := h.popMany args ha
  obtain ⟨f₂, hr, h₂⟩ := h₁.popReceiver m
  simp only [Effect.invoke, hm, bind_eq_ok, mapError_eq_ok, Effect.orFault_eq_ok]
  generalize hres : sig.result = result at ho
  cases ho with
  | void => exact ⟨f₂, ⟨sig, hs, f₁, hp, f₂, hr, by rw [hres]; rfl⟩, h₂⟩
  | @value t v ht =>
    exact ⟨f₂.push ⟨t, node⟩, ⟨sig, hs, f₁, hp, f₂, hr, by rw [hres]; rfl⟩, h₂.push (.of ht) node⟩

end Frame.Describes

/-- The effect of an instruction on a frame describes what it does. The hypothesis says that the
address which a call pushes is a word. -/
theorem Machine.Executes.described {i : Nat} {instr : Instruction} {s s' : State} {f : Frame}
    (ctx : Effect.Context) (h : Executes i instr s s') (hf : f.Describes s)
    (hi : ∀ long, instr.operation = .jsr long → i + 1 < 0x8000000000000000) :
    ∃ f', Effect.apply ctx i instr f = .ok f' ∧ f'.Describes s' := by
  cases h with
  | nop hop | goto hop | ret hop =>
    simp only [Effect.apply, hop]
    exact ⟨f, rfl, hf⟩
  | null hop =>
    simp only [Effect.apply, hop]
    exact ⟨_, rfl, hf.push .nothing i⟩
  | number hop =>
    simp only [Effect.apply, hop]
    exact ⟨_, rfl, hf.push (.number _) i⟩
  | immediate hop =>
    simp only [Effect.apply, hop]
    exact ⟨_, rfl, hf.push (.number .int) i⟩
  | constant hop hc hv =>
    obtain ⟨t, ht, hd⟩ := ValueType.Describes.constant hv
    simp only [Effect.apply, hop, hc, ht]
    exact ⟨_, rfl, hf.push hd i⟩
  | load hop hk hv hw =>
    simp only [Effect.apply, hop, Effect.orFault_eq_ok]
    exact hf.load hk hv hw
  | store hop hk hs =>
    simp only [Effect.apply, hop, Effect.orFault_eq_ok]
    exact hf.store hk hs
  | increment hop hk hlt =>
    simp only [Effect.apply, hop, hk, Effect.orFault_eq_ok]
    exact hf.setLocal hlt (.number .int) i
  | arrayLoad hop hv =>
    obtain ⟨locals, stack⟩ := f
    obtain ⟨hl, hs⟩ := hf
    simp only [List.forall₂_cons_right_iff] at hs
    obtain ⟨index, _, -, ⟨array, rest, ha, hs, rfl⟩, rfl⟩ := hs
    simp only [Effect.apply, hop]
    exact ⟨_, rfl, hl, .cons (ha.element hv) hs⟩
  | @arrayStore v index l st hop =>
    simp only [Effect.apply, hop, Effect.orFault_eq_ok]
    exact hf.popMany [v, index, .object] rfl
  | shuffle hop hs =>
    obtain ⟨stack, hst, hd⟩ := Frame.Describes.shuffle hf.stack hs
    simp only [Effect.apply, hop, hst]
    exact ⟨_, rfl, hf.locals, hd⟩
  | @unary k a l st hop =>
    simp only [Effect.apply, hop, Effect.orFault_eq_ok]
    exact hf.popPush [a] rfl (.number k) i
  | @binary k _ a b l st hop =>
    simp only [Effect.apply, hop, Effect.orFault_eq_ok]
    exact hf.popPush [a, b] rfl (.number k) i
  | @testZero a l st hop | @testNull _ a l st hop | @switch _ a l st hop | @putStatic a l st hop
  | @monitor a l st hop =>
    simp only [Effect.apply, hop, Effect.orFault_eq_ok]
    exact hf.popMany [a] rfl
  | @testPair a b l st hop =>
    simp only [Effect.apply, hop, Effect.orFault_eq_ok]
    exact hf.popMany [a, b] rfl
  | jsr hop =>
    simp only [Effect.apply, hop]
    refine ⟨_, rfl, hf.push ?_ i⟩
    have hlt := hi _ hop
    rw [word_eq_self (by omega) (by omega)]
    exact .returnAddress (i + 1)
  | getStatic hop hm ht hv =>
    simp only [Effect.apply, hop, Effect.fieldType, hm, ht]
    exact ⟨_, rfl, hf.push (.of hv) i⟩
  | @getField m t v l st hop hm ht hv =>
    obtain ⟨f', hp, hd⟩ := hf.popPush [.object] rfl (.of hv) i
    simp only [Effect.apply, hop, Effect.fieldType, hm, ht]
    exact ⟨f', bind_eq_ok.2 ⟨t, rfl, Effect.orFault_eq_ok.2 hp⟩, hd⟩
  | @putField a l st hop =>
    simp only [Effect.apply, hop, Effect.orFault_eq_ok]
    exact hf.popMany [a, .object] rfl
  | invoke hop hm hs ha ho =>
    simp only [Effect.apply, hop]
    exact hf.invoke i hm hs ha ho
  | new hop =>
    simp only [Effect.apply, hop]
    exact ⟨_, rfl, hf.push (.uninitialized _ _) i⟩
  | @newArray a l st hop | @newObjectArray a l st hop =>
    simp only [Effect.apply, hop, Effect.orFault_eq_ok]
    exact hf.popPush [a] rfl (.nonNullObject _) i
  | @newMultiArray counts l st hop hc =>
    simp only [Effect.apply, hop, Effect.orFault_eq_ok]
    exact hf.popPush counts hc (.nonNullObject _) i
  | arrayLength hop =>
    simp only [Effect.apply, hop, Effect.orFault_eq_ok]
    exact hf.popPush [.object] rfl (.number .int) i
  | checkCast hop hv =>
    obtain ⟨locals, stack⟩ := f
    obtain ⟨hl, hs⟩ := hf
    simp only [List.forall₂_cons_right_iff] at hs
    obtain ⟨e, rest, he, hs, rfl⟩ := hs
    simp only [Effect.apply, hop]
    exact ⟨_, rfl, hl, .cons (he.cast hv) hs⟩
  | @instanceOf a l st hop =>
    simp only [Effect.apply, hop, Effect.orFault_eq_ok]
    exact hf.popPush [a] rfl (.number .int) i

end BytecodeFlow
