import BytecodeFlow.Proofs.Exploration.Paths
import BytecodeFlow.Proofs.Exploration.Termination
import BytecodeFlow.Proofs.Failures

/-!
An exploration stays inside the live part of the graph, and fails only where the method or the visitor
is to blame. Return addresses come from frames and not from edges, so that they are followed back to
the calls that pushed them.
-/

namespace BytecodeFlow

namespace Exploration

open History

/-- A path is current or waits at some stage of one of the passes, and goes on with this history. -/
inductive Pends (s : Setting σ) (o : Options) (p₀ : Progress σ) : Path → History Nat → Prop
  | fast {start : Frame} {st : Fast.State} {p : Progress σ} {w : Path} :
    s.method.startFrame = .ok start → o.exhaustive = false →
    Reached (Fast.exit? s) (Fast.turn s) (Fast.initial s start, { p₀ with stats := {} }) (st, p) →
    w ∈ st.current :: st.waiting → Pends s o p₀ w st.history
  | exhaustive {start : Frame} {st : Exhaustive.State} {p q : Progress σ} {t : Exhaustive.Thread} :
    s.method.startFrame = .ok start → Opens s o start p₀ q →
    Reached (Exhaustive.exit? s o.bound) (Exhaustive.turn s)
      (Exhaustive.initial s start, { q with stats := {} }) (st, p) →
    t ∈ st.current :: st.waiting → Pends s o p₀ t.path t.history

section

variable {s : Setting σ} {S : Type} {v : View S} {exit? : Progress σ → Option Exit}
  {turn : S → Run σ (Option S)} {x y : S × Progress σ}

theorem Reached.induct {I : S → Progress σ → Prop} (h : Reached exit? turn x y) (hx : I x.1 x.2)
    (keep : ∀ {st st' p p'}, I st p → turn st p = .ok (some st') p' → I st' p') : I y.1 y.2 := by
  induction h with
  | refl => exact hx
  | tail _ ht ih => exact keep ih ht.2

/-- A return address that a path holds was pushed by a call that the pass has taken up. -/
theorem Reached.returnAddress (hv : v.Faithful s turn) (h : Reached exit? turn x y)
    (hx : ∀ w ∈ v.current x.1 :: v.waiting x.1, ∀ e ∈ w.frame.entries, ∀ a,
      e.type ≠ .returnAddress a) :
    ∀ w ∈ v.current y.1 :: v.waiting y.1, ∀ e ∈ w.frame.entries, ∀ {a : Int},
      e.type = .returnAddress a → ∃ z, Reached exit? turn x z ∧ exit? z.2 = none ∧
        s.graph.Calls (v.current z.1).node ∧ a = word ((v.current z.1).node + 1) := by
  induction h with
  | refl => exact fun w hw e he a ha => absurd ha (hx w hw e he a)
  | @tail z z' hz ht ih =>
    intro w hw e he a ha
    rcases hv.linked ht.2 w hw with hw | hl
    · exact ih w (List.mem_cons_of_mem _ hw) e he ha
    have before {e : Entry} (he : e ∈ (v.current z.1).frame.entries)
        (ha : e.type = .returnAddress a) := ih _ List.mem_cons_self e he ha
    rcases linked_iff.1 hl with hl | hl
    · rcases hl.returnAddress he ha with ⟨e', he', ha'⟩ | ⟨hcall, ha⟩
      · exact before he' ha'
      · exact ⟨z, hz, ht.1, hcall, ha⟩
    · obtain ⟨e', he', ha'⟩ := hl.returnAddress he ha
      exact before he' ha'

end

theorem Ends.exists_failed {S : Type} {exit? : Progress σ → Option Exit} {turn : S → Run σ (Option S)}
    {st : S} {p q : Progress σ} {k : Nat} {e : Failure} {r : EStateM.Result Failure (Progress σ) Exit}
    (h : Ends exit? turn st p k r) (hr : r = .error e q) :
    ∃ y, Reached exit? turn (st, p) y ∧ exit? y.2 = none ∧ turn y.1 y.2 = .error e q := by
  induction h with
  | stop _ => cases hr
  | drain _ _ => cases hr
  | fail he ht =>
    cases hr
    exact ⟨_, .refl, he, ht⟩
  | turn he ht _ ih =>
    obtain ⟨y, hy, hy'⟩ := ih hr
    exact ⟨y, .head ⟨he, ht⟩ hy, hy'⟩

theorem Fast.exists_failed {s : Setting σ} (hg : s.graph.Wf) {start : Frame} {p q : Progress σ}
    {e : Failure} (h : run s start p = .error e q) :
    ∃ y, Reached (exit? s) (turn s) (initial s start, { p with stats := {} }) y ∧
      exit? s y.2 = none ∧ turn s y.1 y.2 = .error e q := by
  obtain ⟨k, r, hk, hle⟩ := exists_ends hg start p
  rw [run_of_ends hk hle] at h
  cases r with
  | ok => cases h
  | error e' q' =>
    cases h
    exact hk.exists_failed rfl

theorem Exhaustive.exists_failed {s : Setting σ} (hg : s.graph.Wf) {cutoff : Nat} {start : Frame}
    {p q : Progress σ} {e : Failure} (h : run s cutoff start p = .error e q) :
    ∃ y, Reached (exit? s cutoff) (turn s) (initial s start, { p with stats := {} }) y ∧
      exit? s cutoff y.2 = none ∧ turn s y.1 y.2 = .error e q := by
  obtain ⟨k, r, hk, hle⟩ := exists_ends hg cutoff start p
  rw [run_of_ends hk hle] at h
  cases r with
  | ok => cases h
  | error e' q' =>
    cases h
    exact hk.exists_failed rfl

/-- Where an exploration fails: at the start frame, or in one of the passes. -/
inductive Aborts (s : Setting σ) (o : Options) (p₀ : Progress σ) (e : Failure) : Prop
  | start : s.method.startFrame = .error e → Aborts s o p₀ e
  | fast {start : Frame} {q : Progress σ} : s.method.startFrame = .ok start → o.exhaustive = false →
    Fast.run s start p₀ = .error e q → Aborts s o p₀ e
  | exhaustive {start : Frame} {p q : Progress σ} : s.method.startFrame = .ok start →
    Opens s o start p₀ p → Exhaustive.run s o.bound start p = .error e q → Aborts s o p₀ e

theorem run_of_runFast {s : Setting σ} {start : Frame} {p q : Progress σ} {e : Failure}
    (h : runFast s start p = .error e q) : Fast.run s start p = .error e q := by
  simpa only [runFast, Run.bind_eq_error, Run.get_ne_error, Run.record_ne_error, false_or, and_false,
    exists_false, or_false] using h

theorem run_of_runExhaustive {s : Setting σ} {cutoff : Nat} {fallback : Bool} {start : Frame}
    {p q : Progress σ} {e : Failure} (h : runExhaustive s cutoff fallback start p = .error e q) :
    Exhaustive.run s cutoff start (noteFallback s p) = .error e q := by
  simp only [runExhaustive, Run.bind_eq_error, Run.get_ne_error, Run.get_eq_ok, Run.record_ne_error,
    Run.record_eq_ok, Run.count_ne_error, false_or, and_false, exists_false, or_false] at h
  obtain ⟨_, _, ⟨rfl, rfl⟩, _, _, rfl, h⟩ := h
  exact h

theorem aborts_of_explore {s : Setting σ} {o : Options} {p₀ q : Progress σ} {e : Failure}
    (h : explore s o p₀ = .error e q) : Aborts s o p₀ e := by
  simp only [explore, Run.bind_eq_error, Run.ofExcept_eq_error, Run.ofExcept_eq_ok] at h
  rcases h with ⟨he, -⟩ | ⟨start, _, ⟨hs, rfl⟩, h⟩
  · exact .start he
  cases ho : o.exhaustive with
  | true =>
    simp only [ho, ↓reduceIte, Run.bind_eq_error, Run.get_ne_error, Run.pure_ne_error, and_false,
      exists_false, or_false] at h
    exact .exhaustive hs (.only ho) (run_of_runExhaustive h)
  | false =>
    simp only [ho, Bool.false_eq_true, ↓reduceIte, Run.bind_eq_error, Run.get_ne_error, Run.get_eq_ok,
      false_or] at h
    rcases h with h | ⟨_, _, hf, _, _, ⟨rfl, rfl⟩, h⟩
    · exact .fast hs ho (run_of_runFast h)
    obtain ⟨turns, e', q', hp, rfl⟩ := pass_of_runFast hf
    cases hq : finished s q' with
    | true =>
      have hq' : finished s (noteFast s q') = true := hq
      simp only [hq', Bool.not_true, Bool.false_eq_true, ↓reduceIte, Run.bind_eq_error,
        Run.get_ne_error, Run.pure_ne_error, and_false, exists_false, or_false] at h
    | false =>
      have hq' : finished s (noteFast s q') = false := hq
      simp only [hq', Bool.not_false, ↓reduceIte, Run.bind_eq_error, Run.get_ne_error,
        Run.pure_ne_error, and_false, exists_false, or_false] at h
      exact .exhaustive hs (.fallback ho hp hq) (run_of_runExhaustive h)

theorem explore_eq_error {o : Options} {g : Graph} {v : Visitor σ} {init : σ} {e : Failure}
    {p : Progress σ} (h : o.explore g v init = (.error e, p)) :
    explore ⟨g, v, o.declaredLocals⟩ o ⟨{}, {}, init, []⟩ = .error e p := by
  rw [Options.explore] at h
  split at h
  · cases h
  next hx =>
    cases h
    exact hx

theorem ordinary_of_step {s : Setting σ} {m : Method} {n : Node} {path : Path} {p q : Progress σ}
    {e : Failure} (hi : n.instr.Complete)
    (ha : ∀ e ∈ path.frame.entries, ∀ {a : Int}, e.type = .returnAddress a →
      0 ≤ a ∧ a < s.graph.size)
    (h : step s n path p = .error e q) :
    e.Ordinary m ∨ ∃ seen seen', s.visitor.visit (path.site n) path.frame seen = (.error e, seen') := by
  have advancing {p : Progress σ} (h : advance s n path p = .error e q) : e.Ordinary m := by
    rcases (advance_eq_error h).2 with he | he
    · exact Effect.failsOnly_orFault (Node.failsOnly_successors ha) e he
    · exact Effect.failsOnly_apply hi e he
  simp only [step, Run.bind_eq_error, Run.get_ne_error, Run.get_eq_ok, false_or] at h
  obtain ⟨_, _, ⟨rfl, rfl⟩, h⟩ := h
  split at h
  · exact .inl (advancing h)
  rcases Run.bind_eq_error.1 h with h | ⟨r, q', -, h⟩
  · rcases present_eq_error h with ⟨-, hr, hne⟩ | ⟨t, seen, -, hv, -⟩
    · refine .inl ((Receiver.failsOnly_type? (path.site n) hi e hr).resolve_right ?_)
      rintro ⟨node, cause, rfl⟩
      exact hne node cause rfl
    · exact .inr ⟨_, _, hv⟩
  · cases r with
    | some cause =>
      simp only [Run.bind_eq_error, Run.settle_ne_error, Run.record_ne_error, Run.pure_ne_error,
        false_or, and_false, exists_false] at h
    | none =>
      simp only [Run.bind_eq_error, Run.modify_ne_error, Run.modify_eq_ok, false_or] at h
      obtain ⟨_, _, rfl, h⟩ := h
      exact .inl (advancing h)

section

variable {s : Setting σ} {o : Options} {p₀ : Progress σ}

theorem Pends.arises {w : Path} {h : History Nat} (hp : Pends s o p₀ w h) :
    ∃ start, s.method.startFrame = .ok start ∧ w.config.Arises s.graph s.effects start := by
  have entry (start : Frame) :
      ∀ w ∈ [(⟨0, start, {}⟩ : Path)], w.config.Arises s.graph s.effects start := by
    intro w hw
    rw [List.mem_singleton.1 hw]
    exact .refl
  cases hp with
  | @fast start _ _ _ hs _ hr hw =>
    exact ⟨start, hs, ((steady_true s start).reached (Fast.faithful_turn s) hr (entry start)
      trivial).1 w hw⟩
  | @exhaustive start _ _ _ t hs _ hr ht =>
    exact ⟨start, hs, ((steady_true s start).reached (Exhaustive.faithful_turn s) hr (entry start)
      trivial).1 _ (List.mem_map_of_mem ht)⟩

theorem Pends.within (hg : s.graph.Wf) {w : Path} {h : History Nat} (hp : Pends s o p₀ w h) :
    h.Within s.graph.size := by
  cases hp with
  | fast _ _ hr _ =>
    exact (hr.induct (Fast.paid_initial s _ p₀) fun hp ht => hp.turn hg ht).within
  | exhaustive _ _ hr ht =>
    exact (hr.induct (Exhaustive.paid_initial s _ _) fun hp ht => hp.turn hg ht).within _ ht

theorem Pends.returnAddress {w : Path} {h : History Nat} (hp : Pends s o p₀ w h) {e : Entry}
    (he : e ∈ w.frame.entries) {a : Int} (ha : e.type = .returnAddress a) :
    ∃ call, TakesUp s o p₀ call ∧ s.graph.Calls call.node ∧ a = word (call.node + 1) := by
  have entry {start : Frame} (hs : s.method.startFrame = .ok start) :
      ∀ w ∈ [(⟨0, start, {}⟩ : Path)], ∀ e ∈ w.frame.entries, ∀ a, e.type ≠ .returnAddress a := by
    intro w hw e he
    rw [List.mem_singleton.1 hw] at he
    exact s.method.startFrame_entries hs he
  cases hp with
  | fast hs ho hr hw =>
    obtain ⟨z, hz, hex, hcall, ha⟩ :=
      hr.returnAddress (Fast.faithful_turn s) (entry hs) w hw e he ha
    exact ⟨_, .fast hs ho hz hex, hcall, ha⟩
  | exhaustive hs ho hr ht =>
    obtain ⟨z, hz, hex, hcall, ha⟩ :=
      hr.returnAddress (Exhaustive.faithful_turn s) (entry hs) _ (List.mem_map_of_mem ht) e he ha
    exact ⟨_, .exhaustive hs ho hz hex, hcall, ha⟩

theorem Stalled.ordinary {m : Method} (hb : Graph.build m = .ok s.graph) {path : Path}
    (hl : path.config.Live s.graph) {p q : Progress σ} {e : Failure} (h : Stalled s path p e q) :
    e.Ordinary m ∨ ∃ n seen seen', s.graph.nodes[path.node]? = some n ∧
      s.visitor.visit (path.site n) path.frame seen = (.error e, seen') := by
  cases h with
  | cancelled he _ =>
    rw [he]
    exact .inl .cancelled
  | outside hn _ _ =>
    have hlt : path.node < s.graph.nodes.size := hl.node.1
    rw [Array.getElem?_eq_getElem hlt] at hn
    cases hn
  | @step n stats hn _ _ _ hs =>
    have hc : n.instr.Complete :=
      Method.complete_of_defect? (Graph.build_eq_ok hb).1 _
        (List.mem_of_getElem? (Graph.instr_of_build hb hn))
    refine (ordinary_of_step hc ?_ hs).imp_right ?_
    · intro e he a ha
      obtain ⟨t, rfl, ht, -⟩ := hl.address e he ha
      omega
    · rintro ⟨seen, seen', hv⟩
      exact ⟨n, seen, seen', hn, hv⟩

theorem Leads.lt (hg : s.graph.Wf) {path : Path} {p : Progress σ} {t : Nat} (h : Leads s path p t) :
    t < s.graph.size := by
  cases h with
  | handler hn hh => exact hg.entry_lt hn (mem_handlers hh)
  | target hn hs ht => exact (stepped_of_step hs).target_lt hg hn _ ht

/-- Where an exploration fails, that is for ordinary reasons, or because a visitor said so of a path
that was taken up, or because there are more locals than memory holds. -/
theorem Aborts.ordinary {m : Method} (hb : Graph.build m = .ok s.graph)
    (hsize : s.graph.size ≤ 0x8000000000000000) {e : Failure} (h : Aborts s o p₀ e) :
    e.Ordinary m ∨ (e = .slotLimit ∧ Frame.slotLimit < m.code.maxLocals) ∨
      ∃ path n seen seen', TakesUp s o p₀ path ∧ s.graph.nodes[path.node]? = some n ∧
        s.visitor.visit (path.site n) path.frame seen = (.error e, seen') := by
  have hg := Graph.wf_of_build hb
  have hm : s.method = m := Graph.method_of_build hb
  have stalled {path : Path} {p q : Progress σ} (ht : TakesUp s o p₀ path)
      (hst : Stalled s path p e q) :
      e.Ordinary m ∨ (e = .slotLimit ∧ Frame.slotLimit < m.code.maxLocals) ∨
        ∃ path n seen seen', TakesUp s o p₀ path ∧ s.graph.nodes[path.node]? = some n ∧
          s.visitor.visit (path.site n) path.frame seen = (.error e, seen') := by
    obtain ⟨start, hs, ha⟩ := ht.arises
    refine (hst.ordinary hb (ha.live hg hsize hs)).imp_right ?_
    rintro ⟨n, seen, seen', hn, hv⟩
    exact .inr ⟨path, n, seen, seen', ht, hn, hv⟩
  cases h with
  | start he =>
    rw [hm] at he
    exact (m.failsOnly_startFrame e he).imp_right .inl
  | fast hs ho h =>
    obtain ⟨y, hy, hex, ht⟩ := Fast.exists_failed hg h
    exact stalled (.fast hs ho hy hex) (Fast.turn_eq_error ht)
  | exhaustive hs ho h =>
    obtain ⟨y, hy, hex, ht⟩ := Exhaustive.exists_failed hg h
    exact stalled (.exhaustive hs ho hy hex) (Exhaustive.turn_eq_error ht)

end

/-- An exploration takes up live nodes only, and asks the graph and its histories for nothing but nodes.
A return address that a pending path holds is that behind a call which was taken up. If it fails, the
method, the visitor or its cancellation is the reason. -/
theorem exploration_stays_inside {m : Method} {g : Graph} (hb : Graph.build m = .ok g)
    (hsize : g.size ≤ 0x8000000000000000) (o : Options) (v : Visitor σ) (init : σ) :
    (∀ path, TakesUp ⟨g, v, o.declaredLocals⟩ o ⟨{}, {}, init, []⟩ path →
      path.node < g.size ∧ g.Walk 0 path.node ∧
        ∀ p t, Leads ⟨g, v, o.declaredLocals⟩ path p t → t < g.size) ∧
    (∀ w h, Pends ⟨g, v, o.declaredLocals⟩ o ⟨{}, {}, init, []⟩ w h →
      w.node < g.size ∧ g.Walk 0 w.node ∧ h.Within g.size ∧
        ∀ e ∈ w.frame.entries, ∀ a, e.type = .returnAddress a →
          ∃ call, TakesUp ⟨g, v, o.declaredLocals⟩ o ⟨{}, {}, init, []⟩ call ∧
            g.Calls call.node ∧ a = call.node + 1 ∧ call.node + 1 < g.size) ∧
    ∀ e p, o.explore g v init = (.error e, p) →
      e.Ordinary m ∨ (e = .slotLimit ∧ Frame.slotLimit < m.code.maxLocals) ∨
        ∃ path n seen seen', TakesUp ⟨g, v, o.declaredLocals⟩ o ⟨{}, {}, init, []⟩ path ∧
          g.nodes[path.node]? = some n ∧
          v.visit (path.site n) path.frame seen = (.error e, seen') := by
  have hg := Graph.wf_of_build hb
  have live {c : Config} {start : Frame} (hs : g.method.startFrame = .ok start)
      (ha : c.Arises g ⟨g.method.code, o.declaredLocals⟩ start) :
      c.node < g.size ∧ g.Walk 0 c.node := by
    obtain ⟨hlt, hd⟩ := (ha.live hg hsize hs).node
    exact ⟨hlt, Classical.not_not.1 (mt (Graph.mem_dead_iff hb hlt).2 hd)⟩
  refine ⟨fun path ht => ?_, fun w h hp => ?_, fun e p h => ?_⟩
  · obtain ⟨start, hs, ha⟩ := ht.arises
    obtain ⟨hlt, hw⟩ := live hs ha
    exact ⟨hlt, hw, fun p t hl => hl.lt hg⟩
  · obtain ⟨start, hs, ha⟩ := hp.arises
    obtain ⟨hlt, hw⟩ := live hs ha
    refine ⟨hlt, hw, hp.within hg, fun e he a ha => ?_⟩
    obtain ⟨call, ht, hcall, ha⟩ := hp.returnAddress he ha
    obtain ⟨hword, hsucc⟩ := hcall.returns hg hsize
    exact ⟨call, ht, hcall, ha.trans hword, hg.succ_lt hsucc⟩
  · have hx := explore_eq_error h
    exact (aborts_of_explore hx).ordinary hb hsize

/-- A subroutine that takes more off the stack than its return address. -/
def unbalanced : Method where
  className := "a/B"
  name := "m"
  descriptor := "()V"
  static := true
  code := {
    instructions := [{ offset := 0, op := ⟨168⟩, target := 4 }, { offset := 3, op := ⟨177⟩ },
      { offset := 4, op := ⟨89⟩ }, { offset := 5, op := ⟨75⟩ }, { offset := 6, op := ⟨87⟩ },
      { offset := 7, op := ⟨87⟩ }, { offset := 8, op := ⟨169⟩ }]
    maxLocals := 1 }

theorem exploration_stays_inside_unbalanced : ∃ g e p, Graph.build unbalanced = .ok g ∧
    g.size ≤ 0x8000000000000000 ∧ ({} : Options).explore g (.accepting false) () = (.error e, p) ∧
    (∀ w h, Pends ⟨g, .accepting false, false⟩ {} ⟨{}, {}, (), []⟩ w h →
      w.node < g.size ∧ g.Walk 0 w.node ∧ h.Within g.size ∧
        ∀ e ∈ w.frame.entries, ∀ a, e.type = .returnAddress a →
          ∃ call, TakesUp ⟨g, .accepting false, false⟩ {} ⟨{}, {}, (), []⟩ call ∧
            g.Calls call.node ∧ a = call.node + 1 ∧ call.node + 1 < g.size) ∧
    (e.Ordinary unbalanced ∨ (e = .slotLimit ∧ Frame.slotLimit < unbalanced.code.maxLocals) ∨
      ∃ path n seen seen', TakesUp ⟨g, .accepting false, false⟩ {} ⟨{}, {}, (), []⟩ path ∧
        g.nodes[path.node]? = some n ∧
        (Visitor.accepting false).visit (path.site n) path.frame seen = (.error e, seen')) := by
  have h : unbalanced.opened?.any fun t => decide (t.1.size ≤ 0x8000000000000000) &&
      !(({} : Options).explore t.1 (.accepting false) ()).1.isOk := by decide +kernel
  obtain ⟨⟨g, start⟩, ht, h⟩ := (Option.any_eq_true _ _).1 h
  simp only [Bool.and_eq_true, decide_eq_true_eq, Bool.not_eq_true'] at h
  obtain ⟨hb, -⟩ := Method.opened?_eq_some ht
  obtain ⟨-, hpend, hfail⟩ := exploration_stays_inside hb h.1 {} (.accepting false) ()
  cases hx : ({} : Options).explore g (.accepting false) () with
  | mk r p =>
    cases r with
    | ok r =>
      rw [hx] at h
      cases h.2
    | error e => exact ⟨g, e, p, hb, h.1, hx, hpend, hfail e p hx⟩

end Exploration

end BytecodeFlow
