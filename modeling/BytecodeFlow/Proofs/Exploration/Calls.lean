import BytecodeFlow.Proofs.Exploration.Paths

/-!
The calls of a visitor. A visitor that may answer by all that it was shown before is one that keeps its
calls, so that what holds of them holds for every visitor.
-/

namespace BytecodeFlow

/-- What a visitor was shown, and its answer. -/
structure Call where
  site : Site
  frame : Frame
  answer : Except Failure Unit

/-- The call is about the node of a configuration, in its frame. -/
def Call.Shows (g : Graph) (call : Call) (c : Config) : Prop :=
  call.frame = c.frame ∧ ∃ n, g.nodes[c.node]? = some n ∧ call.site = ⟨c.node, n.instr, n.line⟩

/-- The visitor that answers by its calls so far, newest first. -/
def Visitor.ofHistory (answer : List Call → Site → Frame → Except Failure Unit)
    (cancelled : List Call → Bool) : Visitor (List Call) where
  visit site f calls := (answer calls site f, ⟨site, f, answer calls site f⟩ :: calls)
  cancelled

theorem Visitor.visit_ofHistory_eq {answer : List Call → Site → Frame → Except Failure Unit}
    {cancelled : List Call → Bool} {site : Site} {f : Frame} {calls calls' : List Call}
    {r : Except Failure Unit} (h : (ofHistory answer cancelled).visit site f calls = (r, calls')) :
    calls' = ⟨site, f, r⟩ :: calls := by
  obtain ⟨rfl, rfl⟩ := Prod.mk.inj h
  rfl

theorem Visitor.visit_collector_ok {stop : Bool} {site : Site} {f : Frame}
    {found found' : List Dependency}
    (h : (collector stop).visit site f found = (.ok (), found')) :
    ∃ d?, Dependency.ofSite? site f = .ok d? ∧ found' = found ++ d?.toList := by
  simp only [collector] at h
  cases hd : Dependency.ofSite? site f with
  | error e => simp [hd] at h
  | ok d? =>
    refine ⟨d?, rfl, ?_⟩
    cases d? <;> simp_all

theorem Visitor.visit_collector_error {stop : Bool} {site : Site} {f : Frame}
    {found found' : List Dependency} {e : Failure}
    (h : (collector stop).visit site f found = (.error e, found')) : found' = found := by
  simp only [collector] at h
  cases hd : Dependency.ofSite? site f with
  | error e' => simp_all
  | ok d? => cases d? <;> simp [hd] at h

theorem Dependency.node_of_ofSite? {site : Site} {f : Frame} {d : Dependency}
    (h : ofSite? site f = .ok (some d)) : d.node = site.index := by
  simp only [ofSite?, bind_eq_ok, pure_eq_ok] at h
  obtain ⟨receiver, -, h⟩ := h
  split at h
  · cases h
  · cases h
    rfl

theorem Dependency.sorted_eq {found : List Dependency} (h : ∀ d ∈ found, 0 ≤ d.node) :
    sorted found = found.mergeSort fun d e => d.node ≤ e.node := by
  rw [sorted, if_pos]
  exact List.all_eq_true.2 fun d hd => decide_eq_true (h d hd)

namespace Exploration

@[simp] theorem covered_cut (l : Ledger) (g : Graph) (node : Nat) (cause : Int) :
    (l.cut g node cause).2.covered = l.covered := by
  rw [Ledger.cut]
  split <;> rfl

@[simp] theorem covered_prune (l : Ledger) (g : Graph) (node unavailable : Nat) (cause : Int) :
    (l.prune g node unavailable cause).2.covered = l.covered := by
  rw [Ledger.prune]
  split <;> rfl

/-- What a step makes of the covered nodes and of the visitor: it does not ask, or is declined, or is
accepted and covers the node. -/
inductive Asked (s : Setting σ) (n : Node) (path : Path) (covered : NodeSet) (seen : σ) :
    NodeSet → σ → Prop
  | unasked : Asked s n path covered seen covered seen
  | declined {t : Option ValueType} {e : Failure} {seen' : σ} : path.node ∉ covered →
    Receiver.type? (path.site n) path.frame = .ok t →
    s.visitor.visit (path.site n) path.frame seen = (.error e, seen') →
    Asked s n path covered seen covered seen'
  | accepted {t : Option ValueType} {seen' : σ} : path.node ∉ covered →
    Receiver.type? (path.site n) path.frame = .ok t →
    s.visitor.visit (path.site n) path.frame seen = (.ok (), seen') →
    Asked s n path covered seen (covered.union (n.sameLine.diff s.graph.dead)) seen'

section

variable {s : Setting σ} {n : Node} {path : Path} {p q : Progress σ}

theorem Advanced.kept {out : Step} (h : Advanced s n path p out q) :
    q.ledger.covered = p.ledger.covered ∧ q.seen = p.seen := by
  cases h <;> simp

theorem Stepped.asked {out : Step} (h : Stepped s n path p out q) :
    Asked s n path p.ledger.covered p.seen q.ledger.covered q.seen := by
  cases h with
  | again _ ha =>
    rw [ha.kept.1, ha.kept.2]
    exact .unasked
  | null _ _ =>
    rw [covered_cut]
    exact .unasked
  | refused hc hr hv =>
    rw [covered_cut]
    exact .declined hc hr hv
  | shown hc hr hv ha =>
    rw [ha.kept.1, ha.kept.2]
    exact .accepted hc hr hv

theorem Failed.asked (h : Failed s n path p q) :
    Asked s n path p.ledger.covered p.seen q.ledger.covered q.seen := by
  cases h with
  | idle => exact .unasked
  | declined hc hr hv => exact .declined hc hr hv
  | shown hc hr hv => exact .accepted hc hr hv

end

/-- What asking keeps of the covered nodes and the visitor, explorations keep. -/
theorem steady_of_asked {s : Setting σ} {start : Frame} {J : NodeSet → σ → Prop}
    (keep : ∀ {n : Node} {path : Path} {covered covered' : NodeSet} {seen seen' : σ},
      s.graph.nodes[path.node]? = some n → path.config.Arises s.graph s.effects start →
      Asked s n path covered seen covered' seen' → J covered seen → J covered' seen') :
    Steady s start fun p => J p.ledger.covered p.seen where
  step hn ha hs hp := keep hn ha hs.asked hp
  failure hn ha hf hp := keep hn ha hf.asked hp
  stats _ hp := hp
  note _ hp := hp
  closeOff hp := hp

/-- What holds of no calls, and of one more whenever a path that arises is shown, holds of the calls of
an exploration. -/
theorem steady_of_shown {g : Graph} {o : Options} {start : Frame}
    {answer : List Call → Site → Frame → Except Failure Unit} {cancelled : List Call → Bool}
    {J : List Call → Prop}
    (keep : ∀ {c : Config} {call : Call} {calls : List Call}, call.Shows g c →
      c.Arises g ⟨g.method.code, o.declaredLocals⟩ start → J calls → J (call :: calls)) :
    Steady ⟨g, .ofHistory answer cancelled, o.declaredLocals⟩ start fun p => J p.seen := by
  apply steady_of_asked (J := fun _ => J)
  intro n path covered covered' calls calls' hn ha h hp
  cases h with
  | unasked => exact hp
  | declined _ _ hv | accepted _ _ hv =>
    rw [Visitor.visit_ofHistory_eq hv]
    exact keep ⟨rfl, n, hn, rfl⟩ ha hp

/-- Every path that an exploration takes up, and every frame that it shows to the visitor, comes along
one chain of normal steps and exceptions from the start. -/
theorem explored_along_links {m : Method} {g : Graph} (hb : Graph.build m = .ok g) (o : Options)
    (answer : List Call → Site → Frame → Except Failure Unit) (cancelled : List Call → Bool) :
    (∀ path, TakesUp ⟨g, .ofHistory answer cancelled, o.declaredLocals⟩ o ⟨{}, {}, [], []⟩ path →
      ∃ start, m.startFrame = .ok start ∧
        path.config.Arises g ⟨m.code, o.declaredLocals⟩ start) ∧
    ∀ call ∈ (o.explore g (.ofHistory answer cancelled) []).2.seen,
      ∃ start c, m.startFrame = .ok start ∧ call.Shows g c ∧
        c.Arises g ⟨m.code, o.declaredLocals⟩ start := by
  obtain rfl := Graph.method_of_build hb
  refine ⟨fun path h => h.arises, ?_⟩
  refine steady_explore (fun start hs => steady_of_shown (J := fun calls => ∀ call ∈ calls, ∃ start c,
    g.method.startFrame = .ok start ∧ call.Shows g c ∧
      c.Arises g ⟨g.method.code, o.declaredLocals⟩ start) ?_) (explore_leaves o g _ []) (by simp)
  intro c call calls hc ha hp
  exact List.forall_mem_cons.2 ⟨⟨start, c, hs, hc, ha⟩, hp⟩

/-- A call with a handler for all exceptions. -/
def rescued : Method where
  className := "a/B"
  name := "m"
  descriptor := "(Ljava/lang/Object;)V"
  static := true
  code := {
    instructions := [{ offset := 0, op := ⟨42⟩ },
      { offset := 1, op := ⟨182⟩, member := some ⟨"java/lang/Object", "hashCode", "()I"⟩ },
      { offset := 4, op := ⟨87⟩ }, { offset := 5, op := ⟨177⟩ },
      { offset := 6, op := ⟨87⟩ }, { offset := 7, op := ⟨177⟩ }]
    handlers := [⟨1, 4, 6, ""⟩]
    maxLocals := 1 }

theorem explored_along_links_rescued : ∃ g, Graph.build rescued = .ok g ∧
    (∃ path,
      TakesUp ⟨g, .ofHistory (fun _ _ _ => .ok ()) fun _ => false, false⟩ {} ⟨{}, {}, [], []⟩ path ∧
      ∃ start, rescued.startFrame = .ok start ∧
        path.config.Arises g ⟨rescued.code, false⟩ start) ∧
    ∃ call ∈ (({} : Options).explore g (.ofHistory (fun _ _ _ => .ok ()) fun _ => false) []).2.seen,
      call.site.index = 4 ∧ ∃ start c, rescued.startFrame = .ok start ∧ call.Shows g c ∧
        c.Arises g ⟨rescued.code, false⟩ start := by
  have h : rescued.opened?.any fun (g, _) =>
      !finished ⟨g, .ofHistory (fun _ _ _ => .ok ()) fun _ => false, false⟩ ⟨{}, {}, [], []⟩ &&
        (({} : Options).explore g (.ofHistory (fun _ _ _ => .ok ()) fun _ => false) []).2.seen.any
          (·.site.index == 4) := by
    decide +kernel
  obtain ⟨⟨g, start⟩, ho, h⟩ := (Option.any_eq_true _ _).1 h
  simp only [Bool.and_eq_true, Bool.not_eq_true', List.any_eq_true, beq_iff_eq] at h
  obtain ⟨hf, call, hc, hi⟩ := h
  obtain ⟨hb, hs⟩ := Method.opened?_eq_some ho
  have hall := explored_along_links hb {} (fun _ _ _ => .ok ()) fun _ => false
  have ht : TakesUp ⟨g, .ofHistory (fun _ _ _ => .ok ()) fun _ => false, false⟩ {} ⟨{}, {}, [], []⟩
      ⟨0, start, {}⟩ := by
    refine .fast ?_ rfl .refl (if_neg (by simpa using hf))
    rw [Setting.method, Graph.method_of_build hb]
    exact hs
  exact ⟨g, hb, ⟨_, ht, hall.1 _ ht⟩, call, hc, hi, hall.2 call hc⟩

end Exploration

end BytecodeFlow
