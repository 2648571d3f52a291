import BytecodeFlow.Proofs.Exploration.Turn

/-!
What a run leaves, whether it succeeds or fails. A failure does not undo the progress made, so that
what a visitor was shown before it counts as well.
-/

namespace BytecodeFlow.Exploration

namespace Run

/-- A computation ends with this progress, in success or in failure. -/
def Leaves (x : Run σ α) (p q : Progress σ) : Prop := (∃ a, x p = .ok a q) ∨ ∃ e, x p = .error e q

theorem bind_eq_error {x : Run σ α} {f : α → Run σ β} {p p' : Progress σ} {e : Failure} :
    (x >>= f) p = .error e p' ↔
      x p = .error e p' ∨ ∃ a q, x p = .ok a q ∧ f a q = .error e p' := by
  change EStateM.bind x f p = _ ↔ _
  rw [EStateM.bind]
  cases x p with
  | ok a q =>
    constructor
    · intro h
      exact .inr ⟨a, q, rfl, h⟩
    · rintro (h | ⟨_, _, h, h'⟩)
      · cases h
      · cases h
        exact h'
  | error e q => simp

@[simp] theorem pure_ne_error {a : α} {p p' : Progress σ} {e : Failure} :
    (pure a : Run σ α) p = .error e p' ↔ False := by
  change EStateM.Result.ok a p = _ ↔ _
  simp

@[simp] theorem throw_eq_error {e e' : Failure} {p p' : Progress σ} :
    (throw e : Run σ α) p = .error e' p' ↔ e = e' ∧ p = p' := by
  change EStateM.Result.error e p = _ ↔ _
  simp

@[simp] theorem get_ne_error {p p' : Progress σ} {e : Failure} :
    (get : Run σ (Progress σ)) p = .error e p' ↔ False := by
  change EStateM.Result.ok p p = _ ↔ _
  simp

@[simp] theorem modify_ne_error {f : Progress σ → Progress σ} {p p' : Progress σ} {e : Failure} :
    (modify f : Run σ PUnit) p = .error e p' ↔ False := by
  change EStateM.Result.ok PUnit.unit (f p) = _ ↔ _
  simp

@[simp] theorem modifyGet_ne_error {f : Progress σ → α × Progress σ} {p p' : Progress σ}
    {e : Failure} : (modifyGet f : Run σ α) p = .error e p' ↔ False := by
  change EStateM.Result.ok (f p).1 (f p).2 = _ ↔ _
  simp

@[simp] theorem record_ne_error {event : Event} {p p' : Progress σ} {e : Failure} :
    record event p = .error e p' ↔ False := modify_ne_error

@[simp] theorem count_ne_error {f : Stats → Stats} {p p' : Progress σ} {e : Failure} :
    count f p = .error e p' ↔ False := modify_ne_error

@[simp] theorem settle_ne_error {f : Ledger → α × Ledger} {p p' : Progress σ} {e : Failure} :
    settle f p = .error e p' ↔ False := modifyGet_ne_error

@[simp] theorem ofExcept_eq_error {r : Except Failure α} {p p' : Progress σ} {e : Failure} :
    ofExcept r p = .error e p' ↔ r = .error e ∧ p = p' := by
  cases r <;> simp [ofExcept]

/-- A computation that does not fail. -/
def Total (x : Run σ α) : Prop := ∀ p e q, x p ≠ .error e q

theorem Total.bind {x : Run σ α} {f : α → Run σ β} (hx : x.Total) (hf : ∀ a, (f a).Total) :
    (x >>= f).Total := by
  intro p e q h
  rcases bind_eq_error.1 h with h | ⟨a, r, -, h⟩
  · exact hx p e q h
  · exact hf a r e q h

theorem total_pure (a : α) : (pure a : Run σ α).Total := by simp [Total]

theorem total_get : (get : Run σ (Progress σ)).Total := by simp [Total]

theorem total_modify (f : Progress σ → Progress σ) : (modify f : Run σ PUnit).Total := by
  simp [Total]

theorem total_count (f : Stats → Stats) : (count f : Run σ Unit).Total := total_modify _

theorem leaves_bind {x : Run σ α} {f : α → Run σ β} {p p' : Progress σ} :
    (x >>= f).Leaves p p' ↔ (∃ e, x p = .error e p') ∨ ∃ a q, x p = .ok a q ∧ (f a).Leaves q p' := by
  simp only [Leaves, bind_eq_ok, bind_eq_error]
  constructor
  · rintro (⟨b, a, q, hx, hf⟩ | ⟨e, hx | ⟨a, q, hx, hf⟩⟩)
    · exact .inr ⟨a, q, hx, .inl ⟨b, hf⟩⟩
    · exact .inl ⟨e, hx⟩
    · exact .inr ⟨a, q, hx, .inr ⟨e, hf⟩⟩
  · rintro (⟨e, hx⟩ | ⟨a, q, hx, ⟨b, hf⟩ | ⟨e, hf⟩⟩)
    · exact .inr ⟨e, .inl hx⟩
    · exact .inl ⟨b, a, q, hx, hf⟩
    · exact .inr ⟨e, .inr ⟨a, q, hx, hf⟩⟩

@[simp] theorem leaves_pure {a : α} {p p' : Progress σ} :
    (pure a : Run σ α).Leaves p p' ↔ p = p' := by
  simp [Leaves]

@[simp] theorem leaves_throw {e : Failure} {p p' : Progress σ} :
    (throw e : Run σ α).Leaves p p' ↔ p = p' := by
  simp [Leaves]

end Run

theorem advance_eq_error {s : Setting σ} {n : Node} {path : Path} {p p' : Progress σ} {e : Failure}
    (h : advance s n path p = .error e p') :
    p' = p ∧ (Effect.orFault (n.successors s.graph.size path.frame) = .error e ∨
      Effect.apply s.effects path.node n.instr path.frame = .error e) := by
  simp only [advance, Run.bind_eq_error, Run.ofExcept_eq_error, Run.ofExcept_eq_ok] at h
  rcases h with ⟨he, rfl⟩ | ⟨succs, _, ⟨-, rfl⟩, ⟨he, rfl⟩ | ⟨frame, _, ⟨-, rfl⟩, h⟩⟩
  · exact ⟨rfl, .inl he⟩
  · exact ⟨rfl, .inr he⟩
  · cases succs <;> simp only [Run.bind_eq_error, Run.settle_ne_error, Run.record_ne_error,
      Run.pure_ne_error, false_or, and_false, exists_false] at h

/-- The progress that a step leaves where it fails: none was made, or the visitor was asked and
declined, or it accepted and the instruction then failed. -/
inductive Failed (s : Setting σ) (n : Node) (path : Path) (p : Progress σ) : Progress σ → Prop
  | idle : Failed s n path p p
  | declined {t : Option ValueType} {e : Failure} {seen : σ} :
    path.node ∉ p.ledger.covered →
    Receiver.type? (path.site n) path.frame = .ok t →
    s.visitor.visit (path.site n) path.frame p.seen = (.error e, seen) →
    Failed s n path p { p with seen }
  | shown {t : Option ValueType} {seen : σ} :
    path.node ∉ p.ledger.covered →
    Receiver.type? (path.site n) path.frame = .ok t →
    s.visitor.visit (path.site n) path.frame p.seen = (.ok (), seen) →
    Failed s n path p { p with ledger := p.ledger.cover s.graph n, seen }

theorem present_eq_error {s : Setting σ} {site : Site} {f : Frame} {p p' : Progress σ} {e : Failure}
    (h : present s site f p = .error e p') :
    (p' = p ∧ Receiver.type? site f = .error e ∧ ∀ node cause, e ≠ .nullReceiver node cause) ∨
      ∃ t seen, Receiver.type? site f = .ok t ∧
        s.visitor.visit site f p.seen = (.error e, seen) ∧ p' = { p with seen } := by
  rw [present] at h
  cases hr : Receiver.type? site f with
  | error e' =>
    refine .inl ?_
    cases e' <;> simp only [hr, Run.throw_eq_error, Run.pure_ne_error] at h
    all_goals
      obtain ⟨rfl, rfl⟩ := h
      exact ⟨rfl, rfl, by simp⟩
  | ok t =>
    simp only [hr, Run.bind_eq_error, Run.modifyGet_ne_error, Run.modifyGet_eq_ok, false_or] at h
    obtain ⟨verdict, _, ⟨hv, rfl⟩, h⟩ := h
    have hw : s.visitor.visit site f p.seen = (verdict, (s.visitor.visit site f p.seen).2) := by
      rw [← hv]
    cases verdict with
    | error e' =>
      cases e' <;> simp only [Run.throw_eq_error, Run.pure_ne_error] at h
      all_goals
        obtain ⟨rfl, rfl⟩ := h
        exact .inr ⟨t, _, rfl, hw, rfl⟩
    | ok u => simp at h

theorem failed_of_step {s : Setting σ} {n : Node} {path : Path} {p p' : Progress σ} {e : Failure}
    (h : step s n path p = .error e p') : Failed s n path p p' := by
  simp only [step, Run.bind_eq_error, Run.get_ne_error, Run.get_eq_ok, false_or] at h
  obtain ⟨_, _, ⟨rfl, rfl⟩, h⟩ := h
  by_cases hc : path.node ∈ p.ledger.covered
  · rw [if_pos (OrderedSet.contains_iff.2 hc)] at h
    obtain ⟨rfl, -⟩ := advance_eq_error h
    exact .idle
  · rw [if_neg (mt OrderedSet.contains_iff.1 hc), Run.bind_eq_error] at h
    rcases h with h | ⟨r, q, hp, h⟩
    · rcases present_eq_error h with ⟨rfl, -⟩ | ⟨t, seen, hr, hv, rfl⟩
      · exact .idle
      · exact .declined hc hr hv
    · cases presented_of_present hp with
      | null _ | refused _ _ =>
        simp only [Run.bind_eq_error, Run.settle_ne_error, Run.record_ne_error, Run.pure_ne_error,
          false_or, and_false, exists_false] at h
      | shown hr hv =>
        simp only [Run.bind_eq_error, Run.modify_ne_error, Run.modify_eq_ok, false_or] at h
        obtain ⟨_, _, rfl, h⟩ := h
        obtain ⟨rfl, -⟩ := advance_eq_error h
        exact .shown hc hr hv

theorem Failed.withStats {s : Setting σ} {n : Node} {path : Path} {p q : Progress σ} {stats : Stats}
    (h : Failed s n path { p with stats } q) : ∃ q', Failed s n path p q' ∧ q = { q' with stats } := by
  cases h with
  | idle => exact ⟨p, .idle, rfl⟩
  | declined hc hr hv => exact ⟨_, .declined hc hr hv, rfl⟩
  | shown hc hr hv => exact ⟨_, .shown hc hr hv, rfl⟩

/-- The progress after a turn that takes up a path, in success or in failure. -/
inductive Turned (s : Setting σ) (path : Path) (p : Progress σ) : Progress σ → Prop
  | idle (stats : Stats) : Turned s path p { p with stats }
  | failed {n : Node} {q : Progress σ} (stats : Stats) :
    s.graph.nodes[path.node]? = some n → Failed s n path p q → Turned s path p { q with stats }
  | stepped {n : Node} {out : Step} {q : Progress σ} (stats : Stats) :
    s.graph.nodes[path.node]? = some n → Stepped s n path p out q →
    Turned s path p { q with stats }
  | closed {n : Node} {out : Step} {q : Progress σ} (stats : Stats) :
    s.graph.nodes[path.node]? = some n → Stepped s n path p out q →
    Turned s path p { q with ledger := q.ledger.closeOff s.graph, stats }

theorem checkCancelled_eq_error {s : Setting σ} {p p' : Progress σ} {e : Failure}
    (h : checkCancelled s p = .error e p') : e = .cancelled ∧ p' = p := by
  simp only [checkCancelled, Run.bind_eq_error, Run.get_ne_error, Run.get_eq_ok, false_or] at h
  obtain ⟨_, _, ⟨rfl, rfl⟩, h⟩ := h
  split at h
  · obtain ⟨rfl, rfl⟩ := Run.throw_eq_error.1 h
    exact ⟨rfl, rfl⟩
  · simp at h

theorem nodeOf_eq_error {s : Setting σ} {i : Nat} {p p' : Progress σ} {e : Failure}
    (h : nodeOf s i p = .error e p') : s.graph.nodes[i]? = none ∧ p' = p := by
  rw [nodeOf] at h
  cases hn : s.graph.nodes[i]? with
  | none =>
    rw [hn] at h
    exact ⟨rfl, (Run.throw_eq_error.1 h).2.symm⟩
  | some n => simp [hn] at h

/-- Where a turn fails: it is cancelled, or its path is at no node, or its step fails after so many
copies for handlers have been counted. -/
inductive Stalled (s : Setting σ) (path : Path) (p : Progress σ) (e : Failure) (q : Progress σ) : Prop
  | cancelled : e = .cancelled → q = p → Stalled s path p e q
  | outside {steps : Nat} : s.graph.nodes[path.node]? = none → steps = p.stats.steps + 1 →
    q = { p with stats := { p.stats with steps } } → Stalled s path p e q
  | step {n : Node} {stats : Stats} : s.graph.nodes[path.node]? = some n →
    stats.steps = p.stats.steps + 1 → p.stats.copies ≤ stats.copies →
    stats.copies ≤ p.stats.copies + (handlersOf n).length →
    step s n path { p with stats } = .error e q → Stalled s path p e q

theorem Stalled.turned {s : Setting σ} {path : Path} {p q : Progress σ} {e : Failure}
    (h : Stalled s path p e q) : Turned s path p q := by
  cases h with
  | cancelled _ hq =>
    subst hq
    exact .idle q.stats
  | outside _ _ hq =>
    subst hq
    exact .idle _
  | step hn _ _ _ hs =>
    obtain ⟨q, hf, rfl⟩ := (failed_of_step hs).withStats (p := p)
    exact .failed _ hn hf

namespace Fast

theorem total_queueHandlers (path : Path) (hds : List Handler) (waiting : List Path)
    (h : History Nat) : (queueHandlers path hds waiting h : Run σ _).Total := by
  induction hds generalizing waiting h with
  | nil => exact Run.total_pure _
  | cons hd rest ih =>
    rw [queueHandlers]
    split
    · exact (Run.total_count _).bind fun _ => ih _ _
    · exact ih _ _

theorem turn_eq_error {s : Setting σ} {st : State} {p p' : Progress σ} {e : Failure}
    (h : turn s st p = .error e p') : Stalled s st.current p e p' := by
  simp only [turn, Run.bind_eq_error, Run.count_ne_error, Run.count_eq_ok, checkCancelled_eq_ok,
    nodeOf_eq_ok, false_or] at h
  rcases h with h | ⟨_, _, ⟨-, rfl⟩, _, _, rfl, h | ⟨n, _, ⟨hn, rfl⟩, h⟩⟩
  · obtain ⟨he, hp⟩ := checkCancelled_eq_error h
    exact .cancelled he hp
  · obtain ⟨hn, hp⟩ := nodeOf_eq_error h
    exact .outside hn rfl hp
  rcases h with h | ⟨⟨waiting, hist⟩, _, hh, h | ⟨out, q, -, h⟩⟩
  · exact absurd h (total_queueHandlers _ _ _ _ _ _ _)
  · obtain ⟨-, k, hk, hk', rfl⟩ := queueHandlers_ok hh
    refine .step hn rfl ?_ ?_ h
    · exact Nat.add_le_add_left hk _
    · rw [Stats.copies, Stats.copies, Nat.add_assoc]
      exact Nat.add_le_add_left hk' _
  · -- nothing fails once the step is taken
    cases out with
    | cut =>
      refine absurd h ((Run.total_pure _).bind (fun r => ?_) _ _ _)
      split
      · exact Run.total_pure _
      · exact (Run.total_count _).bind fun _ => Run.total_pure _
    | advance =>
      refine absurd h ((Run.total_count _).bind (fun _ => (Run.total_pure _).bind fun r => ?_) _ _ _)
      split
      · exact Run.total_pure _
      · exact (Run.total_count _).bind fun _ => Run.total_pure _

theorem turned_of_turn {s : Setting σ} {st : State} {p p' : Progress σ}
    (h : (turn s st).Leaves p p') : Turned s st.current p p' := by
  rcases h with ⟨r, h⟩ | ⟨e, h⟩
  · obtain ⟨n, out, q, hn, hs, ⟨stats, rfl⟩, -⟩ := turn_ok h
    exact .stepped stats hn (stepped_of_step hs)
  · exact (turn_eq_error h).turned

end Fast

namespace Exhaustive

theorem turn_eq_error {s : Setting σ} {st : State} {p p' : Progress σ} {e : Failure}
    (h : turn s st p = .error e p') : Stalled s st.current.path p e p' := by
  simp only [turn, Run.bind_eq_error, Run.count_ne_error, Run.count_eq_ok, checkCancelled_eq_ok,
    nodeOf_eq_ok, false_or] at h
  rcases h with h | ⟨_, _, ⟨-, rfl⟩, _, _, rfl, h | ⟨n, _, ⟨hn, rfl⟩, _, _, rfl, h⟩⟩
  · obtain ⟨he, hp⟩ := checkCancelled_eq_error h
    exact .cancelled he hp
  · obtain ⟨hn, hp⟩ := nodeOf_eq_error h
    exact .outside hn rfl hp
  rcases h with h | ⟨out, q, -, h⟩
  · refine .step hn rfl ?_ ?_ h
    · exact Nat.add_le_add_left (Nat.le_add_right _ _) _
    · exact Nat.le_of_eq (Nat.add_assoc _ _ _).symm
  · cases out with
    | cut =>
      refine absurd h ((Run.total_pure _).bind (fun r => ?_) _ _ _)
      split
      · exact (Run.total_modify _).bind fun _ => Run.total_pure _
      · exact (Run.total_count _).bind fun _ => Run.total_get.bind fun _ => Run.total_pure _
    | advance =>
      refine absurd h ((Run.total_count _).bind (fun _ => (Run.total_pure _).bind fun r => ?_) _ _ _)
      split
      · exact (Run.total_modify _).bind fun _ => Run.total_pure _
      · exact (Run.total_count _).bind fun _ => Run.total_get.bind fun _ => Run.total_pure _

theorem turned_of_turn {s : Setting σ} {st : State} {p p' : Progress σ}
    (h : (turn s st).Leaves p p') : Turned s st.current.path p p' := by
  rcases h with ⟨r, h⟩ | ⟨e, h⟩
  · obtain ⟨n, out, q, threads, hn, hs, -, ⟨-, -, stats, rfl⟩ | ⟨-, -, stats, rfl⟩⟩ := turn_ok h
    · exact .closed stats hn (stepped_of_step hs)
    · exact .stepped stats hn (stepped_of_step hs)
  · exact (turn_eq_error h).turned

end Exhaustive

end BytecodeFlow.Exploration
