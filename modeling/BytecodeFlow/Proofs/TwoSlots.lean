import BytecodeFlow.Proofs.Execution

/-!
A long or double among the locals takes two slots, the second of which holds nothing else. Stores see to
it whichever half they overwrite; an increment of the second slot does not, and is the only instruction
that leaves such a value with half a place.
-/

namespace BytecodeFlow

open Effect

/-- Behind each two-word value there is a slot, and what it holds is as `P` says. -/
def Seconds (P : Nat → Entry → Prop) (l : List Entry) : Prop :=
  ∀ (i : Nat) (e : Entry), l[i]? = some e → isPair e = true →
    ∃ e', l[i + 1]? = some e' ∧ P (i + 1) e'

namespace Seconds

variable {P : Nat → Entry → Prop} {l : List Entry} {k : Nat} {x : Entry}

/-- The two neighbours of a slot that is overwritten: what a pair in it needs behind it, and what a pair
before it needs of it. -/
theorem set (h : Seconds P l)
    (hx : isPair x = true → ∃ e', l[k + 1]? = some e' ∧ P (k + 1) e')
    (hprev : ∀ {j : Nat} {e : Entry}, j + 1 = k → l[j]? = some e → isPair e = true → P k x) :
    Seconds P (l.set k x) := by
  intro i e hi he
  rw [List.getElem?_set] at hi
  split at hi
  next hik =>
    subst hik
    split at hi
    · cases hi
      rw [List.getElem?_set_ne (by omega)]
      exact hx he
    · cases hi
  next hik =>
    obtain ⟨e', he', hP⟩ := h i e hi he
    by_cases hk : i + 1 = k
    · subst hk
      have hlt := (List.getElem?_eq_some_iff.1 he').1
      exact ⟨x, by simp [hlt], hprev rfl hi he⟩
    · exact ⟨e', by rwa [List.getElem?_set_ne (Ne.symm hk)], hP⟩

theorem set_top (h : Seconds P l) (htop : ∀ k node, P k ⟨.top, node⟩) (node : Int) :
    Seconds P (l.set k ⟨.top, node⟩) :=
  h.set (fun hx => by cases hx) fun _ _ _ => htop k node

theorem set_pair (h : Seconds P l) (htop : ∀ k node, P k ⟨.top, node⟩) (hk : k + 1 < l.length)
    (hprev : ∀ {j : Nat} {e : Entry}, j + 1 = k → l[j]? = some e → isPair e = false) (node : Int) :
    Seconds P ((l.set k x).set (k + 1) ⟨.top, node⟩) := by
  rw [List.set_comm _ _ (by omega)]
  apply (h.set_top htop node).set
  · intro
    exact ⟨⟨.top, node⟩, by simp [hk], htop _ node⟩
  · intro j e hj he hp
    rw [List.getElem?_set_ne (by omega)] at he
    rw [hprev hj he] at hp
    cases hp

theorem map_retype (h : Seconds P l) (hP : ∀ {k e}, P k e → e.type.kind ≠ .uninitialized)
    {old : ValueType} (hold : old.kind = .uninitialized) :
    Seconds P (l.map (Frame.retype old old.initialized)) := by
  intro i e hi he
  rw [List.getElem?_map] at hi
  obtain ⟨x, hx, rfl⟩ := Option.map_eq_some_iff.1 hi
  have hpair : isPair x = true := by
    rw [Frame.retype] at he
    split at he
    · cases old <;> cases hold
      cases he
    · exact he
  obtain ⟨e', he', hP'⟩ := h i x hx hpair
  refine ⟨e', ?_, hP'⟩
  have hne : e'.type ≠ old := fun heq => hP hP' (heq ▸ hold)
  rw [List.getElem?_map, he', Option.map_some, Frame.retype, if_neg hne]

theorem imp (h : Seconds P l) {Q : Nat → Entry → Prop} (hPQ : ∀ {k e}, P k e → Q k e) :
    Seconds Q l := by
  intro i e hi he
  obtain ⟨e', he', hP⟩ := h i e hi he
  exact ⟨e', he', hPQ hP⟩

end Seconds

namespace Effect

variable {P : Nat → Entry → Prop} {ctx : Context} {node : Int} {instr : Instruction} {f f' : Frame}

/-- How an instruction may change the locals. -/
inductive LocalsAfter (ctx : Context) (node : Int) (instr : Instruction) (f f' : Frame) : Prop
  | kept : f'.locals = f.locals → LocalsAfter ctx node instr f f'
  | stored : store ctx node instr f = .ok f' → LocalsAfter ctx node instr f f'
  | incremented : instr.operation = .increment → f.setLocal instr.index ⟨.int, node⟩ = .ok f' →
    LocalsAfter ctx node instr f f'
  | initialized {t : ValueType} : t.kind = .uninitialized →
    f'.locals = f.locals.map (Frame.retype t t.initialized) → LocalsAfter ctx node instr f f'

theorem locals_of_popPush {n : Nat} {x : Entry} (h : popPush f n x = .ok f') :
    f'.locals = f.locals := by
  simp only [popPush, bind_eq_ok, pure_eq_ok] at h
  obtain ⟨f₁, hp, rfl⟩ := h
  obtain ⟨-, rfl⟩ := Frame.popMany_eq_ok.1 hp
  rfl

theorem locals_of_popMany {n : Nat} (h : f.popMany n = .ok f') : f'.locals = f.locals := by
  obtain ⟨-, rfl⟩ := Frame.popMany_eq_ok.1 h
  rfl

theorem locals_of_popReceiver {i : Invocation} {m : Member} (h : popReceiver i m f = .ok f') :
    f'.locals = f.locals ∨ ∃ t : ValueType, t.kind = .uninitialized ∧
      f'.locals = f.locals.map (Frame.retype t t.initialized) := by
  rw [popReceiver] at h
  split at h
  · simp only [bind_eq_ok] at h
    obtain ⟨⟨receiver, f₁⟩, hp, h⟩ := h
    obtain ⟨rest, -, rfl⟩ := Frame.pop_eq_ok.1 hp
    split at h
    next hi =>
      cases h
      exact .inr ⟨receiver.type, hi.2.2, rfl⟩
    next =>
      cases h
      exact .inl rfl
  · cases h
    exact .inl rfl

theorem localsAfter_of_invoke {i : Invocation} (h : invoke node i instr f = .ok f') :
    LocalsAfter ctx node instr f f' := by
  rw [invoke] at h
  split at h
  · cases h
  · simp only [bind_eq_ok, mapError_eq_ok, orFault_eq_ok] at h
    obtain ⟨sig, -, f₁, hp, f₂, hr, h⟩ := h
    have hl : f'.locals = f₂.locals := by
      split at h <;> cases h <;> rfl
    rcases locals_of_popReceiver hr with h₂ | ⟨t, ht, h₂⟩ <;> rw [locals_of_popMany hp] at h₂
    · exact .kept (hl.trans h₂)
    · exact .initialized ht (hl.trans h₂)

theorem localsAfter_of_apply (h : apply ctx node instr f = .ok f') :
    LocalsAfter ctx node instr f f' := by
  unfold apply at h
  cases hop : instr.operation <;> simp only [hop, orFault_eq_ok, bind_eq_ok, pure_eq_ok,
    Except.ok.injEq, reduceCtorEq] at h
  case nop | goto | ret | returnVoid | pushNull | push | immediate | jsr | new =>
    subst h
    exact .kept rfl
  case constant =>
    split at h
    · cases h
    · simp only [bind_eq_ok, pure_eq_ok] at h
      obtain ⟨t, -, rfl⟩ := h
      exact .kept rfl
  case load =>
    simp only [load, bind_eq_ok, pure_eq_ok] at h
    obtain ⟨held, -, rfl⟩ := h
    exact .kept rfl
  case store => exact .stored h
  case increment => exact .incremented hop h
  case arrayLoad | throw | checkCast =>
    split at h
    · cases h
      exact .kept rfl
    · cases h
  case shuffle =>
    obtain ⟨stack, -, rfl⟩ := h
    exact .kept rfl
  case arrayStore | branch | switch | returnValue | putStatic | putField | monitor =>
    exact .kept (locals_of_popMany h)
  case unary | binary | arrayLength | instanceOf | newArray | newObjectArray | newMultiArray =>
    exact .kept (locals_of_popPush h)
  case getStatic =>
    obtain ⟨t, -, rfl⟩ := h
    exact .kept rfl
  case getField =>
    obtain ⟨t, -, h⟩ := h
    exact .kept (locals_of_popPush h)
  case invoke => exact localsAfter_of_invoke h

/-- Before a slot is overwritten, no pair that reaches into it is left. -/
theorem seconds_of_clobber (htop : ∀ k node, P k ⟨.top, node⟩) {k : Nat}
    (h : clobber node k f = .ok f') (hf : Seconds P f.locals) : Seconds P f'.locals ∧
      ∀ {j : Nat} {e : Entry}, j + 1 = k → f'.locals[j]? = some e → isPair e = false := by
  rw [clobber] at h
  split at h
  next hpos =>
    obtain ⟨j, rfl⟩ : ∃ j, k = j + 1 := ⟨k - 1, by omega⟩
    have hslot : ((j + 1 : Nat) : Int) - 1 = j := by omega
    rw [hslot] at h
    obtain ⟨e, he, h⟩ := bind_eq_ok.1 h
    have hj := Frame.getLocal_eq_ok.1 he
    split at h
    next hp =>
      obtain ⟨j', hjj, hlt, rfl⟩ := Frame.setLocal_eq_ok.1 h
      obtain rfl : j = j' := by omega
      refine ⟨hf.set_top htop node, fun {i x} hi hx => ?_⟩
      obtain rfl : i = j := by omega
      rw [List.getElem?_set_self hlt] at hx
      cases hx
      rfl
    next hp =>
      cases h
      refine ⟨hf, fun {i x} hi hx => ?_⟩
      obtain rfl : i = j := by omega
      rw [hj] at hx
      cases hx
      simpa using hp
  next hpos =>
    cases h
    exact ⟨hf, fun {j e} hj => by omega⟩

theorem seconds_of_store (htop : ∀ k node, P k ⟨.top, node⟩) (h : store ctx node instr f = .ok f')
    (hf : Seconds P f.locals) : Seconds P f'.locals := by
  simp only [store, bind_eq_ok] at h
  obtain ⟨⟨value, f₁⟩, hp, f₂, hc, f₃, hs, h⟩ := h
  obtain ⟨rest, -, rfl⟩ := Frame.pop_eq_ok.1 hp
  obtain ⟨k, hk, hlt, rfl⟩ := Frame.setLocal_eq_ok.1 hs
  rw [hk] at hc h
  obtain ⟨h₂, hprev⟩ := seconds_of_clobber htop hc hf
  split at h
  next hpair =>
    obtain ⟨k', hk', hlt', rfl⟩ := Frame.setLocal_eq_ok.1 h
    obtain rfl : k' = k + 1 := by omega
    exact h₂.set_pair htop (by simpa using hlt') hprev node
  next hpair =>
    cases h
    refine h₂.set (fun hx => absurd hx hpair) fun {j e} hj he hp => ?_
    rw [hprev hj he] at hp
    cases hp

/-- Every instruction keeps what is behind pairs, if an increment does. -/
theorem seconds_of_apply (htop : ∀ k node, P k ⟨.top, node⟩)
    (hP : ∀ {k e}, P k e → e.type.kind ≠ .uninitialized) (h : apply ctx node instr f = .ok f')
    (hf : Seconds P f.locals)
    (hinc : instr.operation = .increment → ∀ {j : Nat} {e : Entry}, instr.index = (j + 1 : Nat) →
      f.locals[j]? = some e → isPair e = true → P (j + 1) ⟨.int, node⟩) : Seconds P f'.locals := by
  cases localsAfter_of_apply h with
  | kept hl => rwa [hl]
  | stored hs => exact seconds_of_store htop hs hf
  | incremented hop hs =>
    obtain ⟨k, hk, -, rfl⟩ := Frame.setLocal_eq_ok.1 hs
    refine hf.set (fun hx => by cases hx) fun {j e} hj he hp => ?_
    subst hj
    exact hinc hop hk he hp
  | initialized ht hl =>
    rw [hl]
    exact hf.map_retype hP ht

end Effect

/-- Pairs among the locals have the next slot to themselves. -/
def Frame.TwoSlots (f : Frame) : Prop := Seconds (fun _ e => e.type = .top) f.locals

/-- The instruction increments the second slot of a pair. -/
def Instruction.Splits (instr : Instruction) (f : Frame) : Prop :=
  instr.operation = .increment ∧ ∃ (k : Nat) (e : Entry), instr.index = (k + 1 : Nat) ∧
    f.locals[k]? = some e ∧ isPair e = true

namespace Frame.TwoSlots

theorem cons_word {x : Entry} {l st : List Entry} (hx : isPair x = false)
    (h : TwoSlots ⟨l, st⟩) : TwoSlots ⟨x :: l, st⟩ := by
  intro i e hi he
  cases i with
  | zero =>
    cases hi
    rw [hx] at he
    cases he
  | succ i => exact h i e hi he

theorem cons_pair {x : Entry} {l st : List Entry} (node : Int) (h : TwoSlots ⟨l, st⟩) :
    TwoSlots ⟨x :: ⟨.top, node⟩ :: l, st⟩ := by
  intro i e hi he
  cases i with
  | zero => exact ⟨_, rfl, rfl⟩
  | succ i => exact (h.cons_word rfl) i e hi he

theorem free (n : Nat) (node : Int) (st : List Entry) :
    TwoSlots ⟨(List.replicate n ValueType.top).map (⟨·, node⟩), st⟩ := by
  intro i e hi he
  obtain ⟨t, ht, rfl⟩ := List.mem_map.1 (List.mem_of_getElem? hi)
  rw [(List.mem_replicate.1 ht).2] at he
  cases he

theorem slotsOf {l st : List Entry} (node : Int) (h : TwoSlots ⟨l, st⟩) (ts : List ValueType) :
    TwoSlots ⟨(ts.flatMap Method.slotsOf).map (⟨·, node⟩) ++ l, st⟩ := by
  induction ts with
  | nil => exact h
  | cons t ts ih =>
    rw [List.flatMap_cons, Method.slotsOf]
    split
    · exact ih.cons_pair node
    next ht => exact ih.cons_word (by simpa [isPair] using ht)

theorem startFrame {m : Method} {start : Frame} (h : m.startFrame = .ok start) : start.TwoSlots := by
  obtain ⟨sig, n, -, rfl⟩ := Method.startFrame_eq_ok h
  rw [List.map_append]
  exact (free n noNode []).slotsOf noNode _

theorem apply_iff {ctx : Context} {node : Int} {instr : Instruction} {f f' : Frame}
    (h : apply ctx node instr f = .ok f') (hf : f.TwoSlots) : f'.TwoSlots ↔ ¬ instr.Splits f := by
  constructor
  · rintro h' ⟨hop, k, e, hk, he, hp⟩
    rw [apply, hop, orFault_eq_ok] at h
    obtain ⟨k', hk', hlt, rfl⟩ := Frame.setLocal_eq_ok.1 h
    obtain rfl : k' = k + 1 := by omega
    obtain ⟨e', he', ht⟩ := h' k e (by simpa using he) hp
    rw [List.getElem?_set_self hlt] at he'
    cases he'
    cases ht
  · intro hns
    refine seconds_of_apply (fun _ _ => rfl) (fun ht => by simp [ht, ValueType.kind]) h hf ?_
    intro hop j e hj he hp
    exact absurd ⟨hop, j, e, hj, he, hp⟩ hns

end Frame.TwoSlots

/-- What a slot behind a pair may hold: nothing, or the number that an increment of it has left. -/
def BehindPair (g : Graph) (k : Nat) (e : Entry) : Prop :=
  e.type = .top ∨ e.type = .int ∧
    g.At e.producer fun n => n.instr.operation = .increment ∧ n.instr.index = k

section

variable {m : Method} {g : Graph} {ctx : Context} {start : Frame} {c c' : Config}
  {links : List (Config × Config)}

theorem Raises.locals_eq (h : Raises g c c') : c'.frame.locals = c.frame.locals := by
  cases h
  rfl

theorem Advances.behindPair (h : Advances g ctx c c')
    (hc : Seconds (BehindPair g) c.frame.locals) : Seconds (BehindPair g) c'.frame.locals := by
  cases h with
  | @step n succs t frame hn hs ht happ =>
    refine seconds_of_apply (fun _ _ => .inl rfl) ?_ happ hc ?_
    · rintro k e (ht | ⟨ht, -⟩) <;> simp [ht, ValueType.kind]
    · intro hop j e hj _ _
      exact .inr ⟨rfl, c.node, n, rfl, hn, hop, hj⟩

theorem Chain.behindPair (hs : m.startFrame = .ok start) (h : Chain g ctx start c links) :
    Seconds (BehindPair g) c.frame.locals := by
  induction h with
  | start => exact (Frame.TwoSlots.startFrame hs).imp .inl
  | link _ hf ih =>
    rcases hf with hf | hf
    · exact hf.behindPair ih
    · rwa [hf.locals_eq]

theorem Chain.twoSlots (hs : m.startFrame = .ok start) (h : Chain g ctx start c links) :
    c.frame.TwoSlots ∨
      ∃ l ∈ links, ∃ n, g.nodes[l.1.node]? = some n ∧ n.instr.Splits l.1.frame := by
  induction h with
  | start => exact .inl (Frame.TwoSlots.startFrame hs)
  | @link c c' links _ hf ih =>
    rcases ih with ih | ⟨l, hl, hsplit⟩
    · rcases hf with hf | hf
      · cases hf with
        | @step n succs t frame hn hs' ht happ =>
          by_cases hsp : n.instr.Splits c.frame
          · exact .inr ⟨_, List.mem_cons_self, n, hn, hsp⟩
          · exact .inl ((ih.apply_iff happ).2 hsp)
      · rw [Frame.TwoSlots, hf.locals_eq]
        exact .inl ih
    · exact .inr ⟨l, List.mem_cons_of_mem _ hl, hsplit⟩

/-- Among the locals a pair has a slot behind it, which holds nothing but what an increment may have put
there. As long as no increment meets the second slot of a pair, it holds nothing at all; and such an
increment is what breaks this, whatever the frame. -/
theorem pairs_split_by_increments (hs : m.startFrame = .ok start) (declaredLocals : Bool)
    (h : Chain g ⟨m.code, declaredLocals⟩ start c links) :
    (∀ i e, c.frame.locals[i]? = some e → isPair e = true →
      ∃ e', c.frame.locals[i + 1]? = some e' ∧ BehindPair g (i + 1) e') ∧
    (c.frame.TwoSlots ∨
      ∃ l ∈ links, ∃ n, g.nodes[l.1.node]? = some n ∧ n.instr.Splits l.1.frame) ∧
    ∀ ctx node instr f f', apply ctx node instr f = .ok f' → f.TwoSlots →
      (f'.TwoSlots ↔ ¬ instr.Splits f) :=
  ⟨h.behindPair hs, h.twoSlots hs, fun _ _ _ _ _ happ hf => hf.apply_iff happ⟩

end

/-- A long, and an increment of its second slot. -/
def halved : Method where
  className := "a/B"
  name := "m"
  descriptor := "()V"
  static := true
  code := {
    instructions := [{ offset := 0, op := ⟨9⟩ }, { offset := 1, op := ⟨63⟩ },
      { offset := 2, op := ⟨132⟩, index := 1, increment := 1 }, { offset := 5, op := ⟨177⟩ }]
    maxLocals := 2 }

theorem pairs_split_by_increments_halved : ∃ g start links,
    Graph.build halved = .ok g ∧ halved.startFrame = .ok start ∧
    Chain g ⟨halved.code, false⟩ start ⟨3, [⟨.long, 0⟩, ⟨.int, 2⟩], []⟩ links ∧
    ¬ Frame.TwoSlots ⟨[⟨.long, 0⟩, ⟨.int, 2⟩], []⟩ ∧ BehindPair g 1 ⟨.int, 2⟩ ∧
    ∃ l ∈ links, ∃ n, g.nodes[l.1.node]? = some n ∧ n.instr.Splits l.1.frame := by
  have h : (halved.walk? false [1, 2, 3]).any fun t =>
      decide (t.2.2 = ⟨3, [⟨.long, 0⟩, ⟨.int, 2⟩], []⟩) := by decide +kernel
  obtain ⟨⟨g, start, c⟩, ht, h⟩ := (Option.any_eq_true _ _).1 h
  obtain ⟨hb, hs, links, he⟩ := Method.walk?_eq_some ht
  obtain rfl : c = _ := of_decide_eq_true h
  obtain ⟨hbehind, hsplit, -⟩ := pairs_split_by_increments hs false he.chain
  have hnot : ¬ Frame.TwoSlots ⟨[⟨.long, 0⟩, ⟨.int, 2⟩], []⟩ := by
    intro htwo
    obtain ⟨e, he, ht⟩ := htwo 0 ⟨.long, 0⟩ rfl rfl
    cases he
    cases ht
  obtain ⟨e, he', hP⟩ := hbehind 0 ⟨.long, 0⟩ rfl rfl
  cases he'
  exact ⟨g, start, links, hb, hs, he.chain, hnot, hP, hsplit.resolve_left hnot⟩

end BytecodeFlow
