import BytecodeFlow.Proofs.Exploration.Turns

namespace BytecodeFlow.Exploration

/-- What a turn from a path leads to: the entries of handlers that its node may enter, and the targets
of its step unless that is cut. -/
inductive Leads (s : Setting σ) (path : Path) (p : Progress σ) : Nat → Prop
  | handler {n : Node} {hd : Handler} :
    s.graph.nodes[path.node]? = some n → hd ∈ handlersOf n → Leads s path p hd.entry
  | target {n : Node} {targets : List Nat} {frame : Frame} {trace : Trace} {unproven : Bool}
    {q : Progress σ} {t : Nat} :
    s.graph.nodes[path.node]? = some n →
    step s n path p = .ok (.advance targets frame trace unproven) q →
    t ∈ targets → Leads s path p t

/-- The targets of a step that is not cut are the successors that the frame leaves available. -/
theorem leads_iff_successors {s : Setting σ} {path : Path} {p : Progress σ} {t : Nat} :
    Leads s path p t ↔ ∃ n, s.graph.nodes[path.node]? = some n ∧
      ((∃ hd ∈ handlersOf n, hd.entry = t) ∨ ∃ succs frame trace unproven q,
        n.successors s.graph.size path.frame = .ok succs ∧
        step s n path p = .ok (.advance succs.targets frame trace unproven) q ∧
        t ∈ succs.targets) := by
  constructor
  · intro h
    cases h with
    | handler hn hd => exact ⟨_, hn, .inl ⟨_, hd, rfl⟩⟩
    | @target n targets frame trace unproven q _ hn hs ht =>
      obtain ⟨succs, hsucc, rfl⟩ : ∃ succs,
          n.successors s.graph.size path.frame = .ok succs ∧ targets = succs.targets :=
        (stepped_of_step hs).exists_targets.resolve_left (List.ne_nil_of_mem ht)
      exact ⟨n, hn, .inr ⟨succs, frame, trace, unproven, q, hsucc, hs, ht⟩⟩
  · rintro ⟨n, hn, ⟨hd, hh, rfl⟩ | ⟨succs, frame, trace, unproven, q, -, hs, ht⟩⟩
    · exact .handler hn hh
    · exact .target hn hs ht

theorem Leads.of_step {s : Setting σ} {path : Path} {p q : Progress σ} {n : Node} {out : Step} {t : Nat}
    (hn : s.graph.nodes[path.node]? = some n) (hs : step s n path p = .ok out q)
    (h : Leads s path p t) :
    (∃ hd ∈ handlersOf n, hd.entry = t) ∨ ∃ targets frame trace unproven,
      out = .advance targets frame trace unproven ∧ t ∈ targets := by
  cases h with
  | handler hn' hd =>
    rw [hn] at hn'
    cases hn'
    exact .inl ⟨_, hd, rfl⟩
  | target hn' hs' ht =>
    rw [hn] at hn'
    cases hn'
    rw [hs] at hs'
    cases hs'
    exact .inr ⟨_, _, _, _, rfl, ht⟩

def targetsOf : EStateM.Result Failure (Progress σ) Step → List Nat
  | .ok (.advance targets _ _ _) _ => targets
  | _ => []

theorem mem_targetsOf {r : EStateM.Result Failure (Progress σ) Step} {t : Nat} :
    t ∈ targetsOf r ↔ ∃ targets frame trace unproven q,
      r = .ok (.advance targets frame trace unproven) q ∧ t ∈ targets := by
  match r with
  | .error e q => simp [targetsOf]
  | .ok (.cut proven) q => simp [targetsOf]
  | .ok (.advance targets frame trace unproven) q => simp [targetsOf]

def led (s : Setting σ) (path : Path) (p : Progress σ) : List Nat :=
  s.graph.nodes[path.node]?.toList.flatMap fun n =>
    (handlersOf n).map Handler.entry ++ targetsOf (step s n path p)

theorem leads_iff {s : Setting σ} {path : Path} {p : Progress σ} {t : Nat} :
    Leads s path p t ↔ t ∈ led s path p := by
  simp only [led, List.mem_flatMap, Option.mem_toList, List.mem_append, List.mem_map, mem_targetsOf]
  constructor
  · intro h
    cases h with
    | handler hn hd => exact ⟨_, hn, .inl ⟨_, hd, rfl⟩⟩
    | target hn hs ht => exact ⟨_, hn, .inr ⟨_, _, _, _, _, hs, ht⟩⟩
  · rintro ⟨n, hn, ⟨hd, hh, rfl⟩ | ⟨targets, frame, trace, unproven, q, hs, ht⟩⟩
    · exact .handler hn hh
    · exact .target hn hs ht

instance (s : Setting σ) (path : Path) (p : Progress σ) (t : Nat) : Decidable (Leads s path p t) :=
  decidable_of_iff _ leads_iff.symm

theorem nodeOf_eq_ok {s : Setting σ} {i : Nat} {p p' : Progress σ} {n : Node} :
    nodeOf s i p = .ok n p' ↔ s.graph.nodes[i]? = some n ∧ p = p' := by
  rw [nodeOf]
  cases s.graph.nodes[i]? <;> simp

theorem checkCancelled_eq_ok {s : Setting σ} {p p' : Progress σ} {u : Unit} :
    checkCancelled s p = .ok u p' ↔ s.visitor.cancelled p.seen = false ∧ p = p' := by
  simp only [checkCancelled, Run.bind_eq_ok, Run.get_eq_ok]
  cases hc : s.visitor.cancelled p.seen with
  | true =>
    constructor
    · rintro ⟨_, _, ⟨rfl, rfl⟩, h⟩
      simp [hc] at h
    · simp
  | false =>
    constructor
    · rintro ⟨_, _, ⟨rfl, rfl⟩, h⟩
      simpa [hc] using h
    · rintro ⟨-, rfl⟩
      exact ⟨p, p, ⟨rfl, rfl⟩, by simp [hc]⟩

namespace Fast

/-- The paths that wait and the history once handlers have been queued. -/
def entering (path : Path) : List Handler → List Path → History Nat → List Path × History Nat
  | [], waiting, h => (waiting, h)
  | hd :: rest, waiting, h =>
    match enter h hd.entry path.node with
    | (true, h) => entering path rest (waiting ++ [path.handled hd]) h
    | (false, h) => entering path rest waiting h

/-- The paths that wait and the history once a step has ended, after handlers have been queued. -/
def onward (path : Path) : Step → List Path × History Nat → List Path × History Nat
  | .cut _, q => q
  | .advance targets frame trace _, (waiting, h) =>
    queueTargets path.node frame trace targets waiting (h.add path.node path.node).2

def takeUp : List Path × History Nat → Option State
  | ([], _) => none
  | (next :: rest, h) => some ⟨next, rest, h⟩

theorem queueHandlers_ok {path : Path} {hds : List Handler} {waiting : List Path} {h : History Nat}
    {p p' : Progress σ} {r : List Path × History Nat}
    (hq : queueHandlers path hds waiting h p = .ok r p') :
    r = entering path hds waiting h ∧
      ∃ k, p.stats.handlerCopy ≤ k ∧ k ≤ p.stats.handlerCopy + hds.length ∧
        p' = { p with stats := { p.stats with handlerCopy := k } } := by
  induction hds generalizing waiting h p with
  | nil =>
    simp only [queueHandlers, Run.pure_eq_ok] at hq
    obtain ⟨rfl, rfl⟩ := hq
    exact ⟨rfl, p.stats.handlerCopy, Nat.le_refl _, Nat.le_refl _, rfl⟩
  | cons hd rest ih =>
    rw [queueHandlers] at hq
    rw [entering]
    cases he : enter h hd.entry path.node with
    | mk grew h' =>
      simp only [he] at hq
      cases grew with
      | true =>
        simp only [Run.bind_eq_ok, Run.count_eq_ok] at hq
        obtain ⟨_, _, rfl, hq⟩ := hq
        obtain ⟨hr, k, hk, hk', rfl⟩ := ih hq
        refine ⟨hr, k, Nat.le_of_succ_le hk, ?_, rfl⟩
        simp only [List.length_cons] at hk' ⊢
        omega
      | false =>
        obtain ⟨hr, k, hk, hk', rfl⟩ := ih hq
        exact ⟨hr, k, hk, Nat.le_succ_of_le hk', rfl⟩

theorem takeUp_ok {waiting : List Path} {h : History Nat} {q p' : Progress σ} {r : Option State}
    (ht : (match waiting with
      | [] => pure none
      | next :: rest => do
        Run.count fun s => { s with maxQueue := max s.maxQueue waiting.length }
        return some ⟨next, rest, h⟩ : Run σ (Option State)) q = .ok r p') :
    (∃ k, p' = { q with stats := { q.stats with maxQueue := k } }) ∧ r = takeUp (waiting, h) := by
  cases waiting with
  | nil =>
    simp only [Run.pure_eq_ok] at ht
    obtain ⟨rfl, rfl⟩ := ht
    exact ⟨⟨q.stats.maxQueue, rfl⟩, rfl⟩
  | cons next rest =>
    simp only [Run.bind_eq_ok, Run.count_eq_ok, Run.pure_eq_ok] at ht
    obtain ⟨_, _, rfl, rfl, rfl⟩ := ht
    exact ⟨⟨_, rfl⟩, rfl⟩

theorem turn_ok {s : Setting σ} {st : State} {p p' : Progress σ} {r : Option State}
    (h : turn s st p = .ok r p') :
    ∃ n out q, s.graph.nodes[st.current.node]? = some n ∧
      step s n st.current p = .ok out q ∧ (∃ stats, p' = { q with stats }) ∧
      r = takeUp (onward st.current out
        (entering st.current (handlersOf n) st.waiting st.history)) := by
  simp only [turn, Run.bind_eq_ok, checkCancelled_eq_ok, Run.count_eq_ok, nodeOf_eq_ok] at h
  obtain ⟨_, _, ⟨-, rfl⟩, _, _, rfl, n, _, ⟨hn, rfl⟩, ⟨waiting, hist⟩, _, hh, out, q, hs, h⟩ := h
  obtain ⟨hw, k, -, -, rfl⟩ := queueHandlers_ok hh
  refine ⟨n, out, { q with stats := p.stats }, hn, step_withStats hs p.stats, ?_⟩
  rw [← hw]
  cases out with
  | cut proven =>
    simp only [Run.bind_eq_ok, Run.pure_eq_ok] at h
    obtain ⟨_, _, ⟨rfl, rfl⟩, h⟩ := h
    obtain ⟨⟨k', rfl⟩, hr⟩ := takeUp_ok h
    exact ⟨⟨_, rfl⟩, hr⟩
  | advance targets frame trace unproven =>
    simp only [Run.bind_eq_ok, Run.count_eq_ok, Run.pure_eq_ok] at h
    obtain ⟨_, _, rfl, _, _, ⟨rfl, rfl⟩, h⟩ := h
    obtain ⟨⟨k', rfl⟩, hr⟩ := takeUp_ok h
    exact ⟨⟨_, rfl⟩, hr⟩

end Fast

namespace Exhaustive

/-- The threads that go on from a step, and the history that it leaves to its own. -/
def onward (t : Thread) : Step → List Thread × History Nat
  | .cut proven => ([], markIf (!proven) t.history)
  | .advance targets frame trace unproven =>
    let h := markIf unproven (t.history.add t.path.node t.path.node).2
    (branches t.path.node frame trace h targets, h)

/-- The history of a thread that ended, if it may be shared. -/
def ended (q : List Thread × History Nat) : Option (History Nat) :=
  if q.1.isEmpty && !q.2.unmergeable then some q.2 else none

theorem eq_of_mem_ended {q : List Thread × History Nat} {h : History Nat} (hh : h ∈ ended q) :
    h = q.2 := by
  rw [ended] at hh
  split at hh
  · exact (Option.some.inj hh).symm
  · cases hh

theorem bestIndex_lt (covered : NodeSet) {waiting : List Thread} (hw : waiting ≠ []) :
    bestIndex covered waiting < waiting.length := by
  have pos := List.length_pos_iff.2 hw
  simp only [bestIndex]
  split
  next i hi => exact (List.findIdx?_eq_some_iff_getElem.1 hi).1
  next =>
    cases hr : waiting.findIdx? fun t => !t.revisits with
    | none => exact pos
    | some i => exact (List.findIdx?_eq_some_iff_getElem.1 hr).1

theorem exists_resume (covered : NodeSet) {waiting : List Thread} (e : Option (History Nat))
    (hw : waiting ≠ []) : ∃ st, resume covered waiting e = some st := by
  match e, waiting with
  | _, [] => contradiction
  | some h, t :: rest => exact ⟨_, rfl⟩
  | none, t :: rest =>
    simp only [resume, List.getElem?_eq_getElem (bestIndex_lt covered hw)]
    exact ⟨_, rfl⟩

/-- The end of a turn: another thread is resumed, or what was never reached is dead. -/
theorem resume_ok {s : Setting σ} {next waiting : List Thread} {h : History Nat} {q p' : Progress σ}
    {r : Option State}
    (ht : (do
      let waiting := next ++ waiting
      if waiting.isEmpty then
        modify fun p => { p with ledger := p.ledger.closeOff s.graph }
        return none
      else
        Run.count fun s => { s with maxQueue := max s.maxQueue waiting.length }
        let ended := if next.isEmpty && !h.unmergeable then some h else none
        return resume (← get).ledger.covered waiting ended : Run σ (Option State)) q = .ok r p') :
    (next ++ waiting = [] ∧ r = none ∧ p' = { q with ledger := q.ledger.closeOff s.graph }) ∨
      (next ++ waiting ≠ [] ∧ r = resume q.ledger.covered (next ++ waiting) (ended (next, h)) ∧
        ∃ k, p' = { q with stats := { q.stats with maxQueue := k } }) := by
  by_cases hw : next ++ waiting = []
  · rw [if_pos (by simp [hw])] at ht
    simp only [Run.bind_eq_ok, Run.modify_eq_ok, Run.pure_eq_ok] at ht
    obtain ⟨_, _, rfl, rfl, rfl⟩ := ht
    exact .inl ⟨hw, rfl, rfl⟩
  · rw [if_neg (by simpa using hw)] at ht
    simp only [Run.bind_eq_ok, Run.count_eq_ok, Run.get_eq_ok, Run.pure_eq_ok] at ht
    obtain ⟨_, _, rfl, _, _, ⟨rfl, rfl⟩, rfl, rfl⟩ := ht
    exact .inr ⟨hw, rfl, _, rfl⟩

theorem turn_ok {s : Setting σ} {st : State} {p p' : Progress σ} {r : Option State}
    (h : turn s st p = .ok r p') :
    ∃ n out q waiting, s.graph.nodes[st.current.path.node]? = some n ∧
      step s n st.current.path p = .ok out q ∧
      waiting = (onward st.current out).1 ++
        queueLast st.waiting (handlerThreads st.current (handlersOf n)) ∧
      ((waiting = [] ∧ r = none ∧ ∃ stats, p' = { q with ledger := q.ledger.closeOff s.graph, stats }) ∨
        (waiting ≠ [] ∧ r = resume q.ledger.covered waiting (ended (onward st.current out)) ∧
          ∃ stats, p' = { q with stats })) := by
  simp only [turn, Run.bind_eq_ok, checkCancelled_eq_ok, Run.count_eq_ok, nodeOf_eq_ok] at h
  obtain ⟨_, _, ⟨-, rfl⟩, _, _, rfl, n, _, ⟨hn, rfl⟩, _, _, rfl, out, q, hs, h⟩ := h
  refine ⟨n, out, { q with stats := p.stats }, _, hn, step_withStats hs p.stats, rfl, ?_⟩
  cases out with
  | cut proven =>
    simp only [Run.bind_eq_ok, Run.pure_eq_ok] at h
    obtain ⟨_, _, ⟨rfl, rfl⟩, h⟩ := h
    obtain ⟨hw, hr, rfl⟩ | ⟨hw, hr, k, rfl⟩ := resume_ok h
    · exact .inl ⟨hw, hr, _, rfl⟩
    · exact .inr ⟨hw, hr, _, rfl⟩
  | advance targets frame trace unproven =>
    simp only [Run.bind_eq_ok, Run.count_eq_ok, Run.pure_eq_ok] at h
    obtain ⟨_, _, rfl, _, _, ⟨rfl, rfl⟩, h⟩ := h
    obtain ⟨hw, hr, rfl⟩ | ⟨hw, hr, k, rfl⟩ := resume_ok h
    · exact .inl ⟨hw, hr, _, rfl⟩
    · exact .inr ⟨hw, hr, _, rfl⟩

end Exhaustive

end BytecodeFlow.Exploration
