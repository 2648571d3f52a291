import BytecodeFlow.Proofs.Exploration.Drained
import BytecodeFlow.Proofs.Exploration.Outcome
import BytecodeFlow.Proofs.Execution
import BytecodeFlow.Proofs.Graph.Reachability
import Mathlib.Logic.Relation

/-!
Every path that an exploration takes up goes along a chain of steps and exceptions from the start, so
that no frame mixes the effects of two of them. What each turn keeps on such paths, a run keeps as a
whole, even if it fails.
-/

namespace BytecodeFlow

open Exploration

/-- A link of a path: a normal step, or an exception that leaves only the caught object on the stack.
Unlike in `Follows`, the receiver may be null where a step starts, since a node that is covered is not
checked again. -/
inductive Linked (g : Graph) (ctx : Effect.Context) : Config → Config → Prop
  | step {c c' : Config} : Advances g ctx c c' → Linked g ctx c c'
  | exception {i : Nat} {f : Frame} {n : Node} {hd : Handler} :
    g.nodes[i]? = some n → n.throws = true → hd ∈ n.handlers →
    Linked g ctx ⟨i, f⟩
      ⟨hd.entry, f.locals, [⟨.nonNullObject
        (if hd.catchType = "" then "java/lang/Throwable" else hd.catchType), i⟩]⟩

theorem linked_iff {g : Graph} {ctx : Effect.Context} {c c' : Config} :
    Linked g ctx c c' ↔ Advances g ctx c c' ∨ Raises g c c' := by
  constructor
  · rintro (h | ⟨hn, ht, hh⟩)
    · exact .inl h
    · exact .inr (.exception (c := ⟨_, _⟩) hn (by rwa [handlersOf, if_pos ht]))
  · rintro (h | h)
    · exact .step h
    · cases h with
      | exception hn hh =>
        rw [handlersOf] at hh
        split at hh
        next ht => exact .exception hn ht hh
        next => cases hh

/-- A chain of links leads here from the start. -/
def Config.Arises (g : Graph) (ctx : Effect.Context) (start : Frame) (c : Config) : Prop :=
  Relation.ReflTransGen (Linked g ctx) ⟨0, start⟩ c

namespace Exploration

theorem Stepped.advances {s : Setting σ} {n : Node} {path : Path} {p q : Progress σ}
    {targets : List Nat} {frame : Frame} {trace : Trace} {unproven : Bool} {t : Nat}
    (hn : s.graph.nodes[path.node]? = some n)
    (h : Stepped s n path p (.advance targets frame trace unproven) q) (ht : t ∈ targets) :
    Advances s.graph s.effects path.config ⟨t, frame⟩ := by
  have advanced {p : Progress σ} (h : Advanced s n path p (.advance targets frame trace unproven) q) :
      Advances s.graph s.effects path.config ⟨t, frame⟩ := by
    cases h with
    | all hs hf => exact .step hn hs ht hf
    | decided hs hf => exact .step hn hs ht hf
  cases h with
  | again _ ha => exact advanced ha
  | shown _ _ _ ha => exact advanced ha

/-- A pass whose turns only change the progress by a step from the current path, and only leave paths
that were waiting or are linked to the current one. -/
structure View.Faithful {S : Type} (v : View S) (s : Setting σ) (turn : S → Run σ (Option S)) :
    Prop where
  turned : ∀ {st p p'}, (turn st).Leaves p p' → Turned s (v.current st) p p'
  linked : ∀ {st st' p p'}, turn st p = .ok (some st') p' →
    ∀ w ∈ v.current st' :: v.waiting st',
      w ∈ v.waiting st ∨ Linked s.graph s.effects (v.current st).config w.config

namespace Fast

theorem mem_entering {path w : Path} {hds : List Handler} {waiting : List Path} {h : History Nat}
    (hw : w ∈ (entering path hds waiting h).1) :
    w ∈ waiting ∨ ∃ hd ∈ hds, w = path.handled hd := by
  induction hds generalizing waiting h with
  | nil => exact .inl hw
  | cons hd rest ih =>
    rw [entering] at hw
    split at hw
    · rcases ih hw with hw | ⟨hd', hh, rfl⟩
      · rcases List.mem_append.1 hw with hw | hw
        · exact .inl hw
        · exact .inr ⟨hd, List.mem_cons_self, List.mem_singleton.1 hw⟩
      · exact .inr ⟨hd', List.mem_cons_of_mem _ hh, rfl⟩
    · rcases ih hw with hw | ⟨hd', hh, rfl⟩
      · exact .inl hw
      · exact .inr ⟨hd', List.mem_cons_of_mem _ hh, rfl⟩

theorem mem_queueTargets {source : Nat} {frame : Frame} {trace : Trace} {targets : List Nat}
    {waiting : List Path} {h : History Nat} {w : Path}
    (hw : w ∈ (queueTargets source frame trace targets waiting h).1) :
    w ∈ waiting ∨ ∃ t ∈ targets, w = ⟨t, frame, trace⟩ := by
  induction targets with
  | nil => exact .inl hw
  | cons t ts ih =>
    rw [queueTargets, List.foldr_cons, ← queueTargets] at hw
    cases hr : queueTargets source frame trace ts waiting h with
    | mk waiting' h' =>
      rw [hr] at hw ih
      have later (hw : w ∈ waiting') : w ∈ waiting ∨ ∃ t' ∈ t :: ts, w = ⟨t', frame, trace⟩ := by
        rcases ih hw with hw | ⟨t', ht, rfl⟩
        · exact .inl hw
        · exact .inr ⟨t', List.mem_cons_of_mem _ ht, rfl⟩
      simp only at hw
      split at hw
      · rcases List.mem_cons.1 hw with rfl | hw
        · exact .inr ⟨t, List.mem_cons_self, rfl⟩
        · exact later hw
      · exact later hw

theorem takeUp_eq_some {r : List Path × History Nat} {st : State} (h : takeUp r = some st) :
    r.1 = st.current :: st.waiting ∧ r.2 = st.history := by
  obtain ⟨ws, hist⟩ := r
  cases ws with
  | nil => cases h
  | cons w ws =>
    cases h
    exact ⟨rfl, rfl⟩

theorem faithful_turn (s : Setting σ) : view.Faithful s (turn s) where
  turned := turned_of_turn
  linked := by
    intro st st' p p' h w hw
    obtain ⟨n, out, q, hn, hs, -, hr⟩ := turn_ok h
    have hw' : w ∈ (onward st.current out
        (entering st.current (handlersOf n) st.waiting st.history)).1 := by
      rw [(takeUp_eq_some hr.symm).1]
      exact hw
    have entered (hw : w ∈ (entering st.current (handlersOf n) st.waiting st.history).1) :
        w ∈ st.waiting ∨ Linked s.graph s.effects st.current.config w.config := by
      rcases mem_entering hw with hw | ⟨hd, hh, rfl⟩
      · exact .inl hw
      · exact .inr (linked_iff.2 (.inr (.exception hn hh)))
    cases out with
    | cut proven => exact entered hw'
    | advance targets frame trace unproven =>
      rcases mem_queueTargets hw' with hw | ⟨t, ht, rfl⟩
      · exact entered hw
      · exact .inr (.step ((stepped_of_step hs).advances hn ht))

end Fast

namespace Exhaustive

theorem faithful_turn (s : Setting σ) : view.Faithful s (turn s) where
  turned := turned_of_turn
  linked := by
    intro st st' p p' h w hw
    obtain ⟨n, out, q, threads, hn, hs, ht, ⟨-, hr, -⟩ | ⟨-, hr, -⟩⟩ := turn_ok h
    · cases hr
    obtain ⟨u, hu, hcur, -, hsub, -⟩ := resume_eq_some hr.symm
    -- whatever is current or waits now was among the threads after the step
    obtain ⟨u, hu, rfl⟩ : ∃ u ∈ threads, u.path = w := by
      rcases List.mem_cons.1 hw with rfl | hw
      · exact ⟨u, hu, hcur.symm⟩
      · obtain ⟨x, hx, rfl⟩ := List.mem_map.1 hw
        exact ⟨x, hsub x hx, rfl⟩
    rw [ht, List.mem_append, mem_queueLast] at hu
    rcases hu with hu | hu | hu
    · cases out with
      | cut proven => simp [onward] at hu
      | advance targets frame trace unproven =>
        obtain ⟨t, htt, _, -, rfl⟩ := mem_branches hu
        exact .inr (.step ((stepped_of_step hs).advances hn htt))
    · exact .inl (List.mem_map_of_mem hu)
    · obtain ⟨hd, hh, -, rfl⟩ := mem_handlerThreads.1 hu
      exact .inr (linked_iff.2 (.inr (.exception hn hh)))

end Exhaustive

/-- The states with their progress that turns of a pass lead to. -/
def Reached {S : Type} (exit? : Progress σ → Option Exit) (turn : S → Run σ (Option S)) :
    S × Progress σ → S × Progress σ → Prop :=
  Relation.ReflTransGen fun x y => exit? x.2 = none ∧ turn x.1 x.2 = .ok (some y.1) y.2

/-- A property of progress that steps from paths which arise keep, also where they fail. -/
structure Steady (s : Setting σ) (start : Frame) (I : Progress σ → Prop) : Prop where
  step : ∀ {n : Node} {path : Path} {p q : Progress σ} {out : Step},
    s.graph.nodes[path.node]? = some n → path.config.Arises s.graph s.effects start →
    Stepped s n path p out q → I p → I q
  failure : ∀ {n : Node} {path : Path} {p q : Progress σ},
    s.graph.nodes[path.node]? = some n → path.config.Arises s.graph s.effects start →
    Failed s n path p q → I p → I q
  stats : ∀ {p : Progress σ} (stats : Stats), I p → I { p with stats }
  note : ∀ {p : Progress σ} (e : Event), I p → I { p with log := e :: p.log }
  closeOff : ∀ {p : Progress σ}, I p → I { p with ledger := p.ledger.closeOff s.graph }

theorem steady_true (s : Setting σ) (start : Frame) : Steady s start fun _ => True :=
  ⟨fun _ _ _ _ => trivial, fun _ _ _ _ => trivial, fun _ _ => trivial, fun _ _ => trivial,
    fun _ => trivial⟩

namespace Fast

/-- However the loop ends, it stops where turns lead to, or with the turn from there. -/
theorem reached_of_loop {s : Setting σ} {fuel : Nat} {st : State} {p p' : Progress σ}
    (h : (loop s fuel st).Leaves p p') :
    ∃ y, Reached (exit? s) (turn s) (st, p) y ∧ (p' = y.2 ∨ (turn s y.1).Leaves y.2 p') := by
  induction fuel generalizing st p with
  | zero =>
    rw [loop, Run.leaves_throw] at h
    exact ⟨_, .refl, .inl h.symm⟩
  | succ fuel ih =>
    simp only [loop, Run.leaves_bind, Run.get_ne_error, Run.get_eq_ok, exists_false, false_or] at h
    obtain ⟨_, _, ⟨rfl, rfl⟩, h⟩ := h
    split at h
    · exact ⟨_, .refl, .inl (Run.leaves_pure.1 h).symm⟩
    next hf =>
      rcases Run.leaves_bind.1 h with he | ⟨r, q, ht, h⟩
      · exact ⟨_, .refl, .inr (.inr he)⟩
      · cases r with
        | none =>
          obtain rfl := Run.leaves_pure.1 h
          exact ⟨_, .refl, .inr (.inl ⟨_, ht⟩)⟩
        | some st' =>
          obtain ⟨y, hy, hl⟩ := ih h
          exact ⟨y, .head ⟨by simp [exit?, hf], ht⟩ hy, hl⟩

end Fast

namespace Exhaustive

theorem reached_of_loop {s : Setting σ} {cutoff fuel : Nat} {st : State} {p p' : Progress σ}
    (h : (loop s cutoff fuel st).Leaves p p') :
    ∃ y, Reached (exit? s cutoff) (turn s) (st, p) y ∧
      ((∃ e, p' = noteExit s cutoff e y.2) ∨ (turn s y.1).Leaves y.2 p') := by
  induction fuel generalizing st p with
  | zero =>
    rw [loop, Run.leaves_throw] at h
    exact ⟨_, .refl, .inl ⟨.settled, h.symm⟩⟩
  | succ fuel ih =>
    simp only [loop, Run.leaves_bind, Run.get_ne_error, Run.get_eq_ok, exists_false, false_or] at h
    obtain ⟨_, _, ⟨rfl, rfl⟩, h⟩ := h
    split at h
    · exact ⟨_, .refl, .inl ⟨.settled, (Run.leaves_pure.1 h).symm⟩⟩
    next hf =>
      split at h
      · simp only [Run.leaves_bind, Run.count_ne_error, Run.count_eq_ok, exists_false, false_or] at h
        obtain ⟨_, _, rfl, h⟩ := h
        simp only [Run.Leaves, Run.record_eq_ok, Run.record_ne_error, exists_const, exists_false,
          or_false] at h
        exact ⟨_, .refl, .inl ⟨.cutOff, h.symm⟩⟩
      next hc =>
        rcases Run.leaves_bind.1 h with he | ⟨r, q, ht, h⟩
        · exact ⟨_, .refl, .inr (.inr he)⟩
        · cases r with
          | none =>
            obtain rfl := Run.leaves_pure.1 h
            exact ⟨_, .refl, .inr (.inl ⟨_, ht⟩)⟩
          | some st' =>
            obtain ⟨y, hy, hl⟩ := ih h
            exact ⟨y, .head ⟨by simp [exit?, hf, hc], ht⟩ hy, hl⟩

end Exhaustive

namespace Steady

variable {s : Setting σ} {start : Frame} {I : Progress σ → Prop} {p p' : Progress σ}

theorem turned (hk : Steady s start I) {path : Path} (ha : path.config.Arises s.graph s.effects start)
    (h : Turned s path p p') (hp : I p) : I p' := by
  cases h with
  | idle stats => exact hk.stats stats hp
  | failed stats hn hf => exact hk.stats stats (hk.failure hn ha hf hp)
  | stepped stats hn hs => exact hk.stats stats (hk.step hn ha hs hp)
  | closed stats hn hs => exact hk.stats stats (hk.closeOff (hk.step hn ha hs hp))

theorem reached (hk : Steady s start I) {S : Type} {v : View S} {exit? : Progress σ → Option Exit}
    {turn : S → Run σ (Option S)} (hv : v.Faithful s turn) {x y : S × Progress σ}
    (h : Reached exit? turn x y)
    (hx : ∀ w ∈ v.current x.1 :: v.waiting x.1, w.config.Arises s.graph s.effects start)
    (hp : I x.2) :
    (∀ w ∈ v.current y.1 :: v.waiting y.1, w.config.Arises s.graph s.effects start) ∧ I y.2 := by
  induction h with
  | refl => exact ⟨hx, hp⟩
  | tail _ ht ih =>
    obtain ⟨ha, hp⟩ := ih
    have hcur := ha _ List.mem_cons_self
    refine ⟨fun w hw => ?_, hk.turned hcur (hv.turned (.inl ⟨_, ht.2⟩)) hp⟩
    rcases hv.linked ht.2 w hw with hw | hl
    · exact ha w (List.mem_cons_of_mem _ hw)
    · exact hcur.tail hl

theorem fast_reached (hk : Steady s start I) {y : Fast.State × Progress σ}
    (h : Reached (Fast.exit? s) (Fast.turn s) (Fast.initial s start, p) y) (hp : I p) :
    y.1.current.config.Arises s.graph s.effects start ∧ I y.2 := by
  obtain ⟨ha, hy⟩ := hk.reached (Fast.faithful_turn s) h (by
    intro w hw
    obtain rfl := List.mem_singleton.1 hw
    exact .refl) hp
  exact ⟨ha _ List.mem_cons_self, hy⟩

theorem exhaustive_reached (hk : Steady s start I) {cutoff : Nat} {y : Exhaustive.State × Progress σ}
    (h : Reached (Exhaustive.exit? s cutoff) (Exhaustive.turn s) (Exhaustive.initial s start, p) y)
    (hp : I p) : y.1.current.path.config.Arises s.graph s.effects start ∧ I y.2 := by
  obtain ⟨ha, hy⟩ := hk.reached (Exhaustive.faithful_turn s) h (by
    intro w hw
    obtain rfl := List.mem_singleton.1 hw
    exact .refl) hp
  exact ⟨ha _ List.mem_cons_self, hy⟩

theorem fast (hk : Steady s start I) (h : (Fast.run s start).Leaves p p') (hp : I p) : I p' := by
  simp only [Fast.run, Run.leaves_bind, Run.count_ne_error, Run.count_eq_ok, exists_false,
    false_or] at h
  obtain ⟨_, _, rfl, h⟩ := h
  obtain ⟨y, hy, hl⟩ := Fast.reached_of_loop h
  obtain ⟨ha, hq⟩ := hk.fast_reached hy (hk.stats {} hp)
  rcases hl with rfl | hl
  · exact hq
  · exact hk.turned ha (Fast.turned_of_turn hl) hq

theorem exhaustive (hk : Steady s start I) {cutoff : Nat}
    (h : (Exhaustive.run s cutoff start).Leaves p p') (hp : I p) : I p' := by
  simp only [Exhaustive.run, Run.leaves_bind, Run.count_ne_error, Run.count_eq_ok, exists_false,
    false_or] at h
  obtain ⟨_, _, rfl, h⟩ := h
  obtain ⟨y, hy, hl⟩ := Exhaustive.reached_of_loop h
  obtain ⟨ha, hq⟩ := hk.exhaustive_reached hy (hk.stats {} hp)
  rcases hl with ⟨e, rfl⟩ | hl
  · cases e with
    | cutOff => exact hk.note (.cutOff s.method cutoff) (hk.stats { y.2.stats with cutOff := true } hq)
    | settled | drained => exact hq
  · exact hk.turned ha (Exhaustive.turned_of_turn hl) hq

theorem runFast (hk : Steady s start I) (h : (runFast s start).Leaves p p') (hp : I p) : I p' := by
  rcases Run.leaves_bind.1 h with he | ⟨_, q, hr, h⟩
  · exact hk.fast (.inr he) hp
  · have hq := hk.fast (.inl ⟨_, hr⟩) hp
    simp only [Run.leaves_bind, Run.get_ne_error, Run.get_eq_ok, exists_false, false_or] at h
    obtain ⟨_, _, ⟨rfl, rfl⟩, h⟩ := h
    simp only [Run.Leaves, Run.record_eq_ok, Run.record_ne_error, exists_const, exists_false,
      or_false] at h
    subst h
    exact hk.note _ hq

theorem runExhaustive (hk : Steady s start I) {cutoff : Nat} {fallback : Bool}
    (h : (runExhaustive s cutoff fallback start).Leaves p p') (hp : I p) : I p' := by
  simp only [Exploration.runExhaustive, Run.leaves_bind, Run.get_ne_error, Run.get_eq_ok,
    Run.record_ne_error, Run.record_eq_ok, Run.count_ne_error, Run.count_eq_ok, exists_false,
    false_or] at h
  obtain ⟨_, _, ⟨rfl, rfl⟩, _, _, rfl, ⟨e, he⟩ | ⟨_, q, hr, _, _, rfl, _, _, ⟨rfl, rfl⟩, h⟩⟩ := h
  · exact hk.exhaustive (.inr ⟨e, he⟩) (hk.note _ hp)
  · have hq := hk.exhaustive (.inl ⟨_, hr⟩) (hk.note _ hp)
    simp only [Run.Leaves, Run.record_eq_ok, Run.record_ne_error, exists_const, exists_false,
      or_false] at h
    subst h
    exact hk.note (.exhaustiveDone s.method { q.stats with fallback })
      (hk.stats { q.stats with fallback } hq)

end Steady

/-- What steps keep, an exploration keeps, whether it succeeds or fails. -/
theorem steady_explore {s : Setting σ} {I : Progress σ → Prop} {o : Options} {p p' : Progress σ}
    (hk : ∀ start, s.method.startFrame = .ok start → Steady s start I)
    (h : (explore s o).Leaves p p') (hp : I p) : I p' := by
  rcases Run.leaves_bind.1 h with ⟨e, he⟩ | ⟨start, q, hq, h⟩
  · obtain ⟨-, rfl⟩ := Run.ofExcept_eq_error.1 he
    exact hp
  obtain ⟨hs, rfl⟩ := Run.ofExcept_eq_ok.1 hq
  have hk := hk start hs
  cases ho : o.exhaustive with
  | true =>
    simp only [ho, ↓reduceIte, Run.leaves_bind, Run.get_ne_error, Run.get_eq_ok, Run.leaves_pure,
      exists_false, false_or] at h
    rcases h with ⟨e, he⟩ | ⟨_, q, hr, _, _, ⟨rfl, rfl⟩, rfl⟩
    · exact hk.runExhaustive (.inr ⟨e, he⟩) hp
    · exact hk.runExhaustive (.inl ⟨_, hr⟩) hp
  | false =>
    simp only [ho, Bool.false_eq_true, ↓reduceIte, Run.leaves_bind, Run.get_ne_error, Run.get_eq_ok,
      exists_false, false_or] at h
    rcases h with ⟨e, he⟩ | ⟨_, q, hr, _, _, ⟨rfl, rfl⟩, h⟩
    · exact hk.runFast (.inr ⟨e, he⟩) hp
    have hq := hk.runFast (.inl ⟨_, hr⟩) hp
    cases hf : finished s q with
    | true =>
      simp only [hf, Bool.not_true, Bool.false_eq_true, ↓reduceIte, Run.leaves_bind,
        Run.get_ne_error, Run.get_eq_ok, Run.leaves_pure, exists_false, false_or] at h
      obtain ⟨_, _, ⟨rfl, rfl⟩, rfl⟩ := h
      exact hq
    | false =>
      simp only [hf, Bool.not_false, ↓reduceIte, Run.leaves_bind, Run.get_ne_error, Run.get_eq_ok,
        Run.leaves_pure, exists_false, false_or] at h
      rcases h with ⟨e, he⟩ | ⟨_, q', hr, _, _, ⟨rfl, rfl⟩, rfl⟩
      · exact hk.runExhaustive (.inr ⟨e, he⟩) hq
      · exact hk.runExhaustive (.inl ⟨_, hr⟩) hq

theorem explore_leaves (o : Options) (g : Graph) (v : Visitor σ) (init : σ) :
    (explore ⟨g, v, o.declaredLocals⟩ o).Leaves ⟨{}, {}, init, []⟩ (o.explore g v init).2 := by
  rw [Options.explore, Run.Leaves]
  cases explore ⟨g, v, o.declaredLocals⟩ o ⟨{}, {}, init, []⟩ with
  | ok r p => exact .inl ⟨r, rfl⟩
  | error e p => exact .inr ⟨e, rfl⟩

/-- A path is taken up for a turn of one of the passes. -/
inductive TakesUp (s : Setting σ) (o : Options) (p₀ : Progress σ) : Path → Prop
  | fast {start : Frame} {st : Fast.State} {p : Progress σ} :
    s.method.startFrame = .ok start → o.exhaustive = false →
    Reached (Fast.exit? s) (Fast.turn s) (Fast.initial s start, { p₀ with stats := {} }) (st, p) →
    Fast.exit? s p = none → TakesUp s o p₀ st.current
  | exhaustive {start : Frame} {st : Exhaustive.State} {p q : Progress σ} :
    s.method.startFrame = .ok start → Opens s o start p₀ q →
    Reached (Exhaustive.exit? s o.bound) (Exhaustive.turn s)
      (Exhaustive.initial s start, { q with stats := {} }) (st, p) →
    Exhaustive.exit? s o.bound p = none → TakesUp s o p₀ st.current.path

theorem TakesUp.arises {s : Setting σ} {o : Options} {p₀ : Progress σ} {path : Path}
    (h : TakesUp s o p₀ path) :
    ∃ start, s.method.startFrame = .ok start ∧ path.config.Arises s.graph s.effects start := by
  cases h with
  | fast hs _ hr _ => exact ⟨_, hs, ((steady_true s _).fast_reached hr trivial).1⟩
  | exhaustive hs _ hr _ => exact ⟨_, hs, ((steady_true s _).exhaustive_reached hr trivial).1⟩

end Exploration

/-- The node is live, and so are the nodes that the frame can return to. -/
structure Config.Live (g : Graph) (c : Config) : Prop where
  node : c.node < g.size ∧ c.node ∉ g.dead
  address : ∀ e ∈ c.frame.entries, ∀ {a : Int}, e.type = .returnAddress a →
    ∃ t : Nat, a = t ∧ t < g.size ∧ t ∉ g.dead

section

variable {g : Graph} {ctx : Effect.Context} {start : Frame} {c c' : Config}

theorem Config.Live.succ (hg : g.Wf) (h : c.Live g) {t : Nat} (ht : t ∈ g.succs c.node) :
    t < g.size ∧ t ∉ g.dead :=
  ⟨hg.succ_lt ht, hg.live_succ h.node.2 ht⟩

theorem Advances.live (hg : g.Wf) (hsize : g.size ≤ 0x8000000000000000) (h : Advances g ctx c c')
    (hc : c.Live g) : c'.Live g where
  node := by
    rcases h.mem_succs hg with ht | ⟨e, he, ha⟩
    · exact hc.succ hg ht
    · obtain ⟨t, ht, hlive⟩ := hc.address e he ha
      obtain rfl := Int.ofNat_inj.1 ht
      exact hlive
  address := by
    intro e he a ha
    rcases h.returnAddress he ha with ⟨x, hx, hxa⟩ | ⟨hcall, ha⟩
    · exact hc.address x hx hxa
    · -- a call pushes the address of the node that it falls through to
      obtain ⟨hword, hsucc⟩ := hcall.returns hg hsize
      exact ⟨_, ha.trans hword, hc.succ hg hsucc⟩

theorem Raises.live (hg : g.Wf) (h : Raises g c c') (hc : c.Live g) : c'.Live g where
  node := hc.succ hg (h.mem_succs hg)
  address := by
    intro e he a ha
    obtain ⟨x, hx, hxa⟩ := h.returnAddress he ha
    exact hc.address x hx hxa

theorem Config.Arises.live {m : Method} (hg : g.Wf) (hsize : g.size ≤ 0x8000000000000000)
    (hs : m.startFrame = .ok start) (h : c.Arises g ctx start) : c.Live g := by
  induction h with
  | refl =>
    exact ⟨⟨hg.pos, hg.entry_live⟩, fun e he a ha => absurd ha (m.startFrame_entries hs he a)⟩
  | tail _ hl ih =>
    rcases linked_iff.1 hl with hl | hl
    · exact hl.live hg hsize ih
    · exact hl.live hg ih

end

end BytecodeFlow
