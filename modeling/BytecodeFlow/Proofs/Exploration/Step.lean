import BytecodeFlow.Exploration.Step
import BytecodeFlow.Proofs.Except

namespace BytecodeFlow.Exploration

namespace Run

theorem bind_eq_ok {x : Run σ α} {f : α → Run σ β} {p p' : Progress σ} {b : β} :
    (x >>= f) p = .ok b p' ↔ ∃ a q, x p = .ok a q ∧ f a q = .ok b p' := by
  change EStateM.bind x f p = _ ↔ _
  rw [EStateM.bind]
  cases x p with
  | ok a q =>
    constructor
    · intro h
      exact ⟨a, q, rfl, h⟩
    · rintro ⟨_, _, h, h'⟩
      cases h
      exact h'
  | error e q => simp

@[simp] theorem pure_eq_ok {a b : α} {p p' : Progress σ} :
    (pure a : Run σ α) p = .ok b p' ↔ a = b ∧ p = p' := by
  change EStateM.Result.ok a p = _ ↔ _
  simp

@[simp] theorem throw_ne_ok {e : Failure} {p p' : Progress σ} {b : α} :
    (throw e : Run σ α) p = .ok b p' ↔ False := by
  change EStateM.Result.error e p = _ ↔ _
  simp

@[simp] theorem get_eq_ok {p p' q : Progress σ} :
    (get : Run σ (Progress σ)) p = .ok q p' ↔ p = q ∧ p = p' := by
  change EStateM.Result.ok p p = _ ↔ _
  simp

@[simp] theorem modify_eq_ok {f : Progress σ → Progress σ} {p p' : Progress σ} {u : PUnit} :
    (modify f : Run σ PUnit) p = .ok u p' ↔ f p = p' := by
  change EStateM.Result.ok PUnit.unit (f p) = _ ↔ _
  simp

@[simp] theorem modifyGet_eq_ok {f : Progress σ → α × Progress σ} {p p' : Progress σ} {a : α} :
    (modifyGet f : Run σ α) p = .ok a p' ↔ (f p).1 = a ∧ (f p).2 = p' := by
  change EStateM.Result.ok (f p).1 (f p).2 = _ ↔ _
  simp

@[simp] theorem record_eq_ok {e : Event} {p p' : Progress σ} {u : Unit} :
    record e p = .ok u p' ↔ { p with log := e :: p.log } = p' := modify_eq_ok

@[simp] theorem count_eq_ok {f : Stats → Stats} {p p' : Progress σ} {u : Unit} :
    count f p = .ok u p' ↔ { p with stats := f p.stats } = p' := modify_eq_ok

@[simp] theorem settle_eq_ok {f : Ledger → α × Ledger} {p p' : Progress σ} {a : α} :
    settle f p = .ok a p' ↔ (f p.ledger).1 = a ∧ { p with ledger := (f p.ledger).2 } = p' :=
  modifyGet_eq_ok

@[simp] theorem ofExcept_eq_ok {r : Except Failure α} {p p' : Progress σ} {a : α} :
    ofExcept r p = .ok a p' ↔ r = .ok a ∧ p = p' := by
  cases r <;> simp [ofExcept]

end Run

theorem testNull_eq_decided {jumpsOnNull : Bool} {next target r u : Nat} {f : Frame} {cause : Int}
    (h : Node.testNull jumpsOnNull next target f = .ok (.decided r u cause)) :
    (r = target ∧ u = next) ∨ (r = next ∧ u = target) := by
  simp only [Node.testNull, bind_eq_ok] at h
  obtain ⟨top, -, h⟩ := h
  cases hn : Node.nullness top.type with
  | none => simp [hn] at h
  | some isNull =>
    simp only [hn] at h
    split at h
    · simp only [pure_eq_ok, Successors.decided.injEq] at h
      exact .inl ⟨h.1.symm, h.2.1.symm⟩
    · simp only [pure_eq_ok, Successors.decided.injEq] at h
      exact .inr ⟨h.1.symm, h.2.1.symm⟩

/-- Only a null test is decided, and between two successors by control flow. -/
theorem successors_eq_decided {n : Node} {size r u : Nat} {f : Frame} {cause : Int}
    (h : n.successors size f = .ok (.decided r u cause)) :
    (∃ b, n.instr.operation = .branch (.null b)) ∧ r ∈ n.flow ∧ u ∈ n.flow := by
  rw [Node.successors] at h
  split at h
  next b hop =>
    split at h
    next next target hf =>
      refine ⟨⟨b, hop⟩, ?_⟩
      rw [hf]
      rcases testNull_eq_decided h with ⟨rfl, rfl⟩ | ⟨rfl, rfl⟩ <;> simp
    next => cases h
  next => cases h
  next =>
    simp only [bind_eq_ok, pure_eq_ok] at h
    obtain ⟨_, -, h⟩ := h
    cases h
  next => cases h

def Path.site (path : Path) (n : Node) : Site := ⟨path.node, n.instr, n.line⟩

/-- How a step goes on from a node that is covered: with all successors in the frame, or with the one
that a decided test leaves. -/
inductive Advanced (s : Setting σ) (n : Node) (path : Path) (p : Progress σ) :
    Step → Progress σ → Prop
  | all {targets : List Nat} {frame : Frame} :
    n.successors s.graph.size path.frame = .ok (.all targets) →
    Effect.apply s.effects path.node n.instr path.frame = .ok frame →
    Advanced s n path p
      (.advance targets frame (path.trace.add path.node targets.length) false) p
  | decided {remaining unavailable : Nat} {cause : Int} {frame : Frame} :
    n.successors s.graph.size path.frame = .ok (.decided remaining unavailable cause) →
    Effect.apply s.effects path.node n.instr path.frame = .ok frame →
    Advanced s n path p
      (.advance [remaining] frame (path.trace.add path.node 1)
        (!(p.ledger.prune s.graph path.node unavailable cause).1))
      { p with
        ledger := (p.ledger.prune s.graph path.node unavailable cause).2
        log := .decided s.method path.node unavailable cause
          (p.ledger.prune s.graph path.node unavailable cause).1
          (path.trace.add path.node 1) :: p.log }

theorem Advanced.exists_eq_advance {s : Setting σ} {n : Node} {path : Path} {p q : Progress σ}
    {out : Step} (h : Advanced s n path p out q) : ∃ succs frame trace unproven,
      n.successors s.graph.size path.frame = .ok succs ∧
      Effect.apply s.effects path.node n.instr path.frame = .ok frame ∧
      out = .advance succs.targets frame trace unproven := by
  cases h with
  | all hs hf => exact ⟨_, _, _, _, hs, hf, rfl⟩
  | decided hs hf => exact ⟨_, _, _, _, hs, hf, rfl⟩

/-- The ways in which a step ends. A node that is covered is not shown again; one that is not is cut
where its receiver is null or the visitor says so, and else covered. -/
inductive Stepped (s : Setting σ) (n : Node) (path : Path) (p : Progress σ) :
    Step → Progress σ → Prop
  | again {out : Step} {p' : Progress σ} :
    path.node ∈ p.ledger.covered → Advanced s n path p out p' → Stepped s n path p out p'
  | null {node cause : Int} :
    path.node ∉ p.ledger.covered →
    Receiver.type? (path.site n) path.frame = .error (.nullReceiver node cause) →
    Stepped s n path p (.cut (p.ledger.cut s.graph path.node cause).1)
      { p with
        ledger := (p.ledger.cut s.graph path.node cause).2
        log := .nullReceiver s.method path.node cause :: p.log }
  | refused {t : Option ValueType} {node cause : Int} {seen : σ} :
    path.node ∉ p.ledger.covered →
    Receiver.type? (path.site n) path.frame = .ok t →
    s.visitor.visit (path.site n) path.frame p.seen = (.error (.nullReceiver node cause), seen) →
    Stepped s n path p (.cut (p.ledger.cut s.graph path.node cause).1)
      { p with
        ledger := (p.ledger.cut s.graph path.node cause).2
        seen
        log := .nullReceiver s.method path.node cause :: p.log }
  | shown {t : Option ValueType} {seen : σ} {out : Step} {p' : Progress σ} :
    path.node ∉ p.ledger.covered →
    Receiver.type? (path.site n) path.frame = .ok t →
    s.visitor.visit (path.site n) path.frame p.seen = (.ok (), seen) →
    Advanced s n path { p with ledger := p.ledger.cover s.graph n, seen } out p' →
    Stepped s n path p out p'

theorem advanced_of_advance {s : Setting σ} {n : Node} {path : Path} {p p' : Progress σ} {out : Step}
    (h : advance s n path p = .ok out p') : Advanced s n path p out p' := by
  simp only [advance, Run.bind_eq_ok, Run.ofExcept_eq_ok, Effect.orFault_eq_ok] at h
  obtain ⟨succs, _, ⟨hs, rfl⟩, frame, _, ⟨hf, rfl⟩, h⟩ := h
  cases succs with
  | all targets =>
    simp only [Run.pure_eq_ok] at h
    obtain ⟨rfl, rfl⟩ := h
    exact .all hs hf
  | decided remaining unavailable cause =>
    simp only [Run.bind_eq_ok, Run.settle_eq_ok, Run.record_eq_ok, Run.pure_eq_ok] at h
    obtain ⟨_, _, ⟨rfl, rfl⟩, _, _, rfl, rfl, rfl⟩ := h
    exact .decided hs hf

/-- Showing an instruction ends a path if the receiver is null or the visitor says so. -/
inductive Presented (s : Setting σ) (site : Site) (f : Frame) (p : Progress σ) :
    Option Int → Progress σ → Prop
  | null {node cause : Int} :
    Receiver.type? site f = .error (.nullReceiver node cause) → Presented s site f p (some cause) p
  | refused {t : Option ValueType} {node cause : Int} {seen : σ} :
    Receiver.type? site f = .ok t →
    s.visitor.visit site f p.seen = (.error (.nullReceiver node cause), seen) →
    Presented s site f p (some cause) { p with seen }
  | shown {t : Option ValueType} {seen : σ} :
    Receiver.type? site f = .ok t →
    s.visitor.visit site f p.seen = (.ok (), seen) →
    Presented s site f p none { p with seen }

theorem presented_of_present {s : Setting σ} {site : Site} {f : Frame} {p p' : Progress σ}
    {r : Option Int} (h : present s site f p = .ok r p') : Presented s site f p r p' := by
  rw [present] at h
  cases hr : Receiver.type? site f with
  | error e =>
    cases e <;> simp only [hr, Run.throw_ne_ok, Run.pure_eq_ok] at h
    obtain ⟨rfl, rfl⟩ := h
    exact .null hr
  | ok t =>
    simp only [hr, Run.bind_eq_ok, Run.modifyGet_eq_ok] at h
    obtain ⟨verdict, _, ⟨hv, rfl⟩, h⟩ := h
    have hw : s.visitor.visit site f p.seen = (verdict, (s.visitor.visit site f p.seen).2) := by
      rw [← hv]
    cases verdict with
    | error e =>
      cases e <;> simp only [Run.throw_ne_ok, Run.pure_eq_ok] at h
      obtain ⟨rfl, rfl⟩ := h
      exact .refused hr hw
    | ok u =>
      simp only [Run.pure_eq_ok] at h
      obtain ⟨rfl, rfl⟩ := h
      exact .shown hr hw

theorem stepped_of_step {s : Setting σ} {n : Node} {path : Path} {p p' : Progress σ} {out : Step}
    (h : step s n path p = .ok out p') : Stepped s n path p out p' := by
  simp only [step, Run.bind_eq_ok, Run.get_eq_ok] at h
  obtain ⟨_, _, ⟨rfl, rfl⟩, h⟩ := h
  by_cases hc : path.node ∈ p.ledger.covered
  · rw [if_pos (OrderedSet.contains_iff.2 hc)] at h
    exact .again hc (advanced_of_advance h)
  · rw [if_neg (mt OrderedSet.contains_iff.1 hc), Run.bind_eq_ok] at h
    obtain ⟨r, q, hp, h⟩ := h
    cases presented_of_present hp with
    | null hr =>
      simp only [Run.bind_eq_ok, Run.settle_eq_ok, Run.record_eq_ok, Run.pure_eq_ok] at h
      obtain ⟨_, _, ⟨rfl, rfl⟩, _, _, rfl, rfl, rfl⟩ := h
      exact .null hc hr
    | refused hr hv =>
      simp only [Run.bind_eq_ok, Run.settle_eq_ok, Run.record_eq_ok, Run.pure_eq_ok] at h
      obtain ⟨_, _, ⟨rfl, rfl⟩, _, _, rfl, rfl, rfl⟩ := h
      exact .refused hc hr hv
    | shown hr hv =>
      simp only [Run.bind_eq_ok, Run.modify_eq_ok] at h
      obtain ⟨_, _, rfl, h⟩ := h
      exact .shown hc hr hv (advanced_of_advance h)

def Step.targets : Step → List Nat
  | .cut _ => []
  | .advance targets _ _ _ => targets

theorem Stepped.exists_targets {s : Setting σ} {n : Node} {path : Path} {p q : Progress σ} {out : Step}
    (h : Stepped s n path p out q) : out.targets = [] ∨
      ∃ succs, n.successors s.graph.size path.frame = .ok succs ∧ out.targets = succs.targets := by
  have advanced {p : Progress σ} (h : Advanced s n path p out q) :
      ∃ succs, n.successors s.graph.size path.frame = .ok succs ∧ out.targets = succs.targets := by
    obtain ⟨succs, frame, trace, unproven, hs, -, rfl⟩ := h.exists_eq_advance
    exact ⟨succs, hs, rfl⟩
  cases h with
  | again _ ha => exact .inr (advanced ha)
  | null _ _ => exact .inl rfl
  | refused _ _ _ => exact .inl rfl
  | shown _ _ _ ha => exact .inr (advanced ha)

theorem advance_of_advanced {s : Setting σ} {n : Node} {path : Path} {p p' : Progress σ} {out : Step}
    (h : Advanced s n path p out p') : advance s n path p = .ok out p' := by
  simp only [advance, Run.bind_eq_ok, Run.ofExcept_eq_ok, Effect.orFault_eq_ok]
  cases h with
  | all hs hf => exact ⟨_, _, ⟨hs, rfl⟩, _, _, ⟨hf, rfl⟩, by simp [Successors.targets]⟩
  | decided hs hf =>
    refine ⟨_, _, ⟨hs, rfl⟩, _, _, ⟨hf, rfl⟩, ?_⟩
    simp only [Run.bind_eq_ok, Run.settle_eq_ok, Run.record_eq_ok, Run.pure_eq_ok]
    exact ⟨_, _, ⟨rfl, rfl⟩, (), _, rfl, rfl, rfl⟩

theorem present_of_presented {s : Setting σ} {site : Site} {f : Frame} {p p' : Progress σ}
    {r : Option Int} (h : Presented s site f p r p') : present s site f p = .ok r p' := by
  rw [present]
  cases h with
  | null hr => simp [hr]
  | refused hr hv =>
    simp only [hr, Run.bind_eq_ok, Run.modifyGet_eq_ok, hv]
    exact ⟨_, _, ⟨rfl, rfl⟩, by simp⟩
  | shown hr hv =>
    simp only [hr, Run.bind_eq_ok, Run.modifyGet_eq_ok, hv]
    exact ⟨_, _, ⟨rfl, rfl⟩, by simp⟩

theorem step_of_stepped {s : Setting σ} {n : Node} {path : Path} {p p' : Progress σ} {out : Step}
    (h : Stepped s n path p out p') : step s n path p = .ok out p' := by
  simp only [step, Run.bind_eq_ok, Run.get_eq_ok]
  refine ⟨p, p, ⟨rfl, rfl⟩, ?_⟩
  have fresh (hc : path.node ∉ p.ledger.covered) : ¬ p.ledger.covered.contains path.node = true :=
    mt OrderedSet.contains_iff.1 hc
  cases h with
  | again hc ha =>
    rw [if_pos (OrderedSet.contains_iff.2 hc)]
    exact advance_of_advanced ha
  | null hc hr =>
    rw [if_neg (fresh hc), Run.bind_eq_ok]
    refine ⟨_, _, present_of_presented (.null hr), ?_⟩
    simp only [Run.bind_eq_ok, Run.settle_eq_ok, Run.record_eq_ok, Run.pure_eq_ok]
    exact ⟨_, _, ⟨rfl, rfl⟩, (), _, rfl, rfl, rfl⟩
  | refused hc hr hv =>
    rw [if_neg (fresh hc), Run.bind_eq_ok]
    refine ⟨_, _, present_of_presented (.refused hr hv), ?_⟩
    simp only [Run.bind_eq_ok, Run.settle_eq_ok, Run.record_eq_ok, Run.pure_eq_ok]
    exact ⟨_, _, ⟨rfl, rfl⟩, (), _, rfl, rfl, rfl⟩
  | shown hc hr hv ha =>
    rw [if_neg (fresh hc), Run.bind_eq_ok]
    refine ⟨_, _, present_of_presented (.shown hr hv), ?_⟩
    simp only [Run.bind_eq_ok, Run.modify_eq_ok]
    exact ⟨⟨⟩, _, rfl, advance_of_advanced ha⟩

/-- A step neither reads the counts nor changes them. -/
theorem Stepped.withStats {s : Setting σ} {n : Node} {path : Path} {p p' : Progress σ} {out : Step}
    (h : Stepped s n path p out p') (stats : Stats) :
    Stepped s n path { p with stats } out { p' with stats } := by
  have advanced {p p' : Progress σ} (h : Advanced s n path p out p') :
      Advanced s n path { p with stats } out { p' with stats } := by
    cases h with
    | all hs hf => exact .all hs hf
    | decided hs hf => exact .decided hs hf
  cases h with
  | again hc ha => exact .again hc (advanced ha)
  | null hc hr => exact .null hc hr
  | refused hc hr hv => exact .refused hc hr hv
  | shown hc hr hv ha => exact .shown hc hr hv (advanced ha)

theorem step_withStats {s : Setting σ} {n : Node} {path : Path} {p p' : Progress σ} {out : Step}
    (h : step s n path p = .ok out p') (stats : Stats) :
    step s n path { p with stats } = .ok out { p' with stats } :=
  step_of_stepped ((stepped_of_step h).withStats stats)

end BytecodeFlow.Exploration
