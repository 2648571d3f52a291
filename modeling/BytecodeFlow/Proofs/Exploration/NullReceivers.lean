import BytecodeFlow.Proofs.Exploration.DeadCode

/-!
What is behind a report that a node is reached with a null receiver only. A drained exhaustive pass
follows each execution until its history turns a link away or the visitor declines, so that a receiver
which is not null stays unseen only behind such a link or a wrong verdict.
-/

namespace BytecodeFlow.Exploration

/-- The visitor ends a path as if its receiver were null. -/
def Declines (s : Setting σ) (path : Path) (p : Progress σ) : Prop :=
  ∃ n node cause seen, s.graph.nodes[path.node]? = some n ∧
    s.visitor.visit (path.site n) path.frame p.seen = (.error (.nullReceiver node cause), seen)

/-- A link that a pass drops: a turn takes up where it starts, but no turn where it leads. Either the
history of that turn had nothing to add along the link, or the visitor declined. -/
structure Dropped (s : Setting σ) (turns : List (Exhaustive.State × Progress σ))
    (l : Config × Config) : Prop where
  turned_away : ∃ x ∈ turns, x.1.current.path.config = l.1 ∧
    (l.2.node = l.1.node ∨ Refuses x.1.current.history l.1.node l.2.node ∨
      Declines s x.1.current.path x.2)
  never : ∀ y ∈ turns, y.1.current.path.config ≠ l.2

/-- A step goes on to all successors, unless it is the first at its node and the receiver is null
there, or the visitor declines. -/
theorem cut_or_advance {s : Setting σ} {n : Node} {path : Path} {p q : Progress σ} {out : Step}
    (hn : s.graph.nodes[path.node]? = some n) (h : step s n path p = .ok out q) :
    (path.config.HasNullReceiver s.graph ∧ path.node ∉ p.ledger.covered) ∨ Declines s path p ∨
      ∃ succs frame trace unproven,
        n.successors s.graph.size path.frame = .ok succs ∧
        Effect.apply s.effects path.node n.instr path.frame = .ok frame ∧
        out = .advance succs.targets frame trace unproven := by
  cases stepped_of_step h with
  | again _ ha => exact .inr (.inr ha.exists_eq_advance)
  | null hc hr => exact .inl ⟨⟨n, _, _, hn, hr⟩, hc⟩
  | refused _ _ hv => exact .inr (.inl ⟨n, _, _, _, hn, hv⟩)
  | shown _ _ _ ha => exact .inr (.inr ha.exists_eq_advance)

section Drained

variable {s : Setting σ} {cutoff : Nat} {start : Frame} {p q : Progress σ}
  {turns : List (Exhaustive.State × Progress σ)} {x : Exhaustive.State × Progress σ} {c c' : Config}

/-- After a turn, a drained pass takes up where a normal step leads, unless the history has nothing to
add along the link, or the turn is cut. -/
theorem taken_or_held (h : Exhaustive.Pass s cutoff start p turns .drained q) (hx : x ∈ turns)
    (hf : Advances s.graph s.effects x.1.current.path.config c') :
    (∃ y ∈ turns, y.1.current.path.config = c') ∨
      (c'.node = x.1.current.path.node ∨
        Refuses x.1.current.history x.1.current.path.node c'.node) ∨
      Declines s x.1.current.path x.2 ∨
      (x.1.current.path.config.HasNullReceiver s.graph ∧
        x.1.current.path.node ∉ x.2.ledger.covered) := by
  obtain ⟨hsize, n, out, q', hn, hs, hthreads⟩ := Exhaustive.takes_up_threads h hx
  cases hf with
  | @step n' succs t frame hn' hsucc ht happ =>
    rw [show x.1.current.path.config.node = x.1.current.path.node from rfl, hn] at hn'
    cases hn'
    rcases cut_or_advance hn hs with hnull | hd |
      ⟨succs', frame', trace, unproven, hsucc', happ', rfl⟩
    · exact .inr (.inr (.inr hnull))
    · exact .inr (.inr (.inl hd))
    · rw [show x.1.current.path.config.frame = x.1.current.path.frame from rfl, hsucc'] at hsucc
      cases hsucc
      have happ'' : Except.ok frame' = Except.ok frame := happ'.symm.trans happ
      cases happ''
      have hnode : x.1.current.path.node < x.1.current.history.size := by
        rw [hsize.1]
        exact Graph.node_lt hn
      rcases Exhaustive.exists_onward ht hnode with hr | ⟨u, hu, hp⟩
      · exact .inr (.inl hr)
      · obtain ⟨y, hy, hpath⟩ := hthreads u (List.mem_append_left _ hu)
        exact .inl ⟨y, hy, by rw [hpath, hp]; rfl⟩

/-- After a turn, a drained pass takes up where an exception leads, unless the history has nothing to
add along the link. -/
theorem taken_or_refused (h : Exhaustive.Pass s cutoff start p turns .drained q) (hx : x ∈ turns)
    (hf : Raises s.graph x.1.current.path.config c') :
    (∃ y ∈ turns, y.1.current.path.config = c') ∨
      Refuses x.1.current.history x.1.current.path.node c'.node := by
  obtain ⟨-, n, out, q', hn, -, hthreads⟩ := Exhaustive.takes_up_threads h hx
  cases hf with
  | @exception n' hd hn' hh =>
    rw [show x.1.current.path.config.node = x.1.current.path.node from rfl, hn] at hn'
    cases hn'
    rcases @Exhaustive.exists_handlerThread x.1.current _ _ hh with hr | ⟨u, hu, hp⟩
    · exact .inr hr
    · obtain ⟨y, hy, hpath⟩ := hthreads u
        (List.mem_append_right _ (Exhaustive.mem_queueLast.2 (.inr hu)))
      exact .inl ⟨y, hy, by rw [hpath, hp]; rfl⟩

theorem taken_or_dropped (h : Exhaustive.Pass s cutoff start p turns .drained q)
    (hc : ∃ x ∈ turns, x.1.current.path.config = c) (hf : Follows s.graph s.effects c c') :
    (∃ y ∈ turns, y.1.current.path.config = c') ∨ Dropped s turns (c, c') := by
  by_cases ht : ∃ y ∈ turns, y.1.current.path.config = c'
  · exact .inl ht
  refine .inr ⟨?_, fun y hy he => ht ⟨y, hy, he⟩⟩
  obtain ⟨x, hx, rfl⟩ := hc
  refine ⟨x, hx, rfl, ?_⟩
  rcases hf with ⟨hnull, hf⟩ | hf
  · rcases (taken_or_held h hx hf).resolve_left ht with (he | hr) | hd | hn
    · exact .inl he
    · exact .inr (.inl hr)
    · exact .inr (.inr hd)
    · exact absurd hn.1 hnull
  · exact .inr (.inl ((taken_or_refused h hx hf).resolve_left ht))

/-- A drained pass follows a chain to its end, if it takes up where a link leads whenever it takes up
where the link starts. -/
theorem Chain.taken_or {D : Config × Config → Prop} {links : List (Config × Config)}
    (h : Exhaustive.Pass s cutoff start p turns .drained q)
    (hc : Chain s.graph s.effects start c links)
    (hd : ∀ l ∈ links, (∃ x ∈ turns, x.1.current.path.config = l.1) →
      (∃ y ∈ turns, y.1.current.path.config = l.2) ∨ D l) :
    (∃ x ∈ turns, x.1.current.path.config = c) ∨ ∃ l ∈ links, D l := by
  induction hc with
  | start =>
    obtain ⟨x, hx, hpath⟩ := (Exhaustive.conserved_turn s).takes_up h
      (Exhaustive.sized_initial s start) _ List.mem_cons_self
    exact .inl ⟨x, hx, congrArg Path.config hpath⟩
  | link _ _ ih =>
    rcases ih fun l hl => hd l (List.mem_cons_of_mem _ hl) with hx | ⟨l, hl, hl'⟩
    · exact (hd _ List.mem_cons_self hx).imp_right fun h => ⟨_, List.mem_cons_self, h⟩
    · exact .inr ⟨l, List.mem_cons_of_mem _ hl, hl'⟩

theorem Execution.taken_or_dropped {links : List (Config × Config)}
    (h : Exhaustive.Pass s cutoff start p turns .drained q)
    (he : Execution s.graph s.effects start c links) :
    (∃ x ∈ turns, x.1.current.path.config = c) ∨ ∃ l ∈ links, Dropped s turns l :=
  Chain.taken_or h he.chain fun _ hl hx => Exploration.taken_or_dropped h hx (he.follows hl)

end Drained

theorem mem_covered_of_advanced {s : Setting σ} {n : Node} {path : Path} {p q : Progress σ}
    {out : Step} (h : Advanced s n path p out q) {i : Nat} (hi : i ∈ p.ledger.covered) :
    i ∈ q.ledger.covered := by
  cases h with
  | all _ _ => exact hi
  | decided _ _ =>
    simp only [Ledger.prune]
    split <;> exact hi

theorem mem_covered_of_stepped {s : Setting σ} {n : Node} {path : Path} {p q : Progress σ}
    {out : Step} (h : Stepped s n path p out q) {i : Nat} (hi : i ∈ p.ledger.covered) :
    i ∈ q.ledger.covered := by
  cases h with
  | again _ ha => exact mem_covered_of_advanced ha hi
  | null _ _ | refused _ _ _ =>
    simp only [Ledger.cut]
    split <;> exact hi
  | shown _ _ _ ha => exact mem_covered_of_advanced ha (OrderedSet.mem_union.2 (.inl hi))

namespace Exhaustive

theorem mem_covered_of_turn {s : Setting σ} {st : State} {p p' : Progress σ} {r : Option State}
    (h : turn s st p = .ok r p') {i : Nat} (hi : i ∈ p.ledger.covered) : i ∈ p'.ledger.covered := by
  obtain ⟨n, out, q, threads, -, hs, -, hr⟩ := turn_ok h
  have hq := mem_covered_of_stepped (stepped_of_step hs) hi
  rcases hr with ⟨-, -, stats, rfl⟩ | ⟨-, -, stats, rfl⟩ <;> exact hq

/-- A turn covers its node, unless the receiver is null there or the visitor declines. -/
theorem covers_of_turn {s : Setting σ} (hg : s.graph.Wf) {st : State} {p p' : Progress σ}
    {r : Option State} (h : turn s st p = .ok r p') :
    (st.current.path.node ∈ p'.ledger.covered ∨ st.current.path.node ∈ s.graph.dead) ∨
      st.current.path.config.HasNullReceiver s.graph ∨ Declines s st.current.path p := by
  obtain ⟨n, out, q, threads, hn, hs, -, hr⟩ := turn_ok h
  have covered (hq : st.current.path.node ∈ q.ledger.covered) :
      st.current.path.node ∈ p'.ledger.covered := by
    rcases hr with ⟨-, -, stats, rfl⟩ | ⟨-, -, stats, rfl⟩ <;> exact hq
  cases stepped_of_step hs with
  | again hc ha => exact .inl (.inl (covered (mem_covered_of_advanced ha hc)))
  | null _ ht => exact .inr (.inl ⟨n, _, _, hn, ht⟩)
  | refused _ _ hv => exact .inr (.inr ⟨n, _, _, _, hn, hv⟩)
  | shown _ _ _ ha =>
    by_cases hd : st.current.path.node ∈ s.graph.dead
    · exact .inl (.inr hd)
    · refine .inl (.inl (covered (mem_covered_of_advanced ha (OrderedSet.mem_union.2 (.inr ?_)))))
      exact OrderedSet.mem_diff.2 ⟨hg.mem_sameLine hn, hd⟩

theorem covers_of_pass {s : Setting σ} (hg : s.graph.Wf) {cutoff : Nat} {start : Frame}
    {p p' : Progress σ} {turns : List (State × Progress σ)} {e : Exit}
    (h : Pass s cutoff start p turns e p') : ∀ x ∈ turns,
      (x.1.current.path.node ∈ p'.ledger.covered ∨ x.1.current.path.node ∈ s.graph.dead) ∨
        x.1.current.path.config.HasNullReceiver s.graph ∨ Declines s x.1.current.path x.2 := by
  apply h.after (R := fun x q =>
    (x.1.current.path.node ∈ q.ledger.covered ∨ x.1.current.path.node ∈ s.graph.dead) ∨
      x.1.current.path.config.HasNullReceiver s.graph ∨ Declines s x.1.current.path x.2)
  · intro st p r p' ht
    exact covers_of_turn hg ht
  · intro x st p r p' hc ht
    rcases hc with (hc | hc) | hc
    · exact .inl (.inl (mem_covered_of_turn ht hc))
    · exact .inl (.inr hc)
    · exact .inr hc

end Exhaustive

/-- The drained exhaustive pass lost sight of an execution: it dropped one of the links, or the visitor
declined at the end. -/
def LosesSight (s : Setting σ) (o : Options) (start : Frame) (p₀ : Progress σ) (c : Config)
    (links : List (Config × Config)) : Prop :=
  ∃ turns q, Drains s o start p₀ turns q ∧
    ((∃ l ∈ links, Dropped s turns l) ∨
      ∃ x ∈ turns, x.1.current.path.config = c ∧ Declines s x.1.current.path x.2)

/-- A report that a node is reached with a null receiver only is right as far as the exploration judges
right: an execution that reaches the node with a receiver that is not null starts from an entry that
the verdicts give up, takes a link that a verdict rules out, or was lost sight of. -/
theorem usable_receiver_unseen {m : Method} {g : Graph} {o : Options} {v : Visitor σ} {init : σ}
    {r : Result} {p : Progress σ} {start : Frame} {c : Config} {links : List (Config × Config)}
    (hb : Graph.build m = .ok g) (hsize : g.size ≤ 0x8000000000000000)
    (h : o.explore g v init = (.ok r, p)) (hcut : r.stats.cutOff = false)
    (hs : m.startFrame = .ok start) (he : Execution g ⟨m.code, o.declaredLocals⟩ start c links)
    (hc : c.node ∈ r.noContext) (hnull : ¬ c.HasNullReceiver g) :
    GivenUp g (Verdict g p.log) 0 ∨ (∃ l ∈ links, Verdict g p.log l.1.node l.2.node) ∨
      LosesSight ⟨g, v, o.declaredLocals⟩ o start ⟨{}, {}, init, []⟩ c links := by
  have hg := Graph.wf_of_build hb
  obtain rfl := Graph.method_of_build hb
  obtain ⟨start', hs', hcourse, rfl⟩ := explore_eq_ok h
  rw [hs] at hs'
  cases hs'
  have haddr : ∀ e ∈ start.entries, ∀ a, e.type ≠ .returnAddress a :=
    fun e he a => g.method.startFrame_entries hs he a
  obtain ⟨-, hcov⟩ := OrderedSet.mem_diff.1 hc
  have judged (hgu : GivenUp g (Verdict g p.log) c.node) : GivenUp g (Verdict g p.log) 0 ∨
      (∃ l ∈ links, Verdict g p.log l.1.node l.2.node) ∨
        LosesSight ⟨g, v, o.declaredLocals⟩ o start ⟨{}, {}, init, []⟩ c links :=
    (Verdict.of_execution hg hsize hs he hgu).imp_right .inl
  rcases ((kept_wf hg).and (kept_judged hg)).course hcourse
    ⟨Ledger.wf_empty, fun x hx => absurd hx (OrderedSet.not_mem_empty x)⟩ with
    ⟨⟨hw, hj⟩, hf | hf⟩ | ⟨turns, q, q', hdrain, -, -, hl, -⟩
  · -- all nodes are settled, and this one is not covered
    rcases hw.settled hg (of_decide_eq_true hf) (he.node_lt hg hsize haddr) with hx | hx
    · exact absurd hx hcov
    · exact judged (Ledger.givenUp_of_knownDead hj _ hx)
  · have hcut' : p.stats.cutOff = false := hcut
    rw [hf] at hcut'
    cases hcut'
  · obtain ⟨p₁, -, hpass⟩ := id hdrain
    rcases Execution.taken_or_dropped hpass he with ⟨x, hx, rfl⟩ | hd
    · rcases Exhaustive.covers_of_pass hg hpass x hx with (hx' | hx') | hx' | hx'
      · rw [← hl] at hx'
        exact absurd hx' hcov
      · exact judged (.unreached hx')
      · exact absurd hx' hnull
      · exact .inr (.inr ⟨turns, q, hdrain, .inr ⟨x, hx, rfl, hx'⟩⟩)
    · exact .inr (.inr ⟨turns, q, hdrain, .inl hd⟩)

/-- Two variables that hand an object on: after two rounds of the loop the first holds it, and its
method is called. -/
def handedOn : Method where
  className := "a/B"
  name := "m"
  descriptor := "(I)V"
  static := true
  code := {
    instructions := [{ offset := 0, op := ⟨1⟩ }, { offset := 1, op := ⟨76⟩ },
      { offset := 2, op := ⟨1⟩ }, { offset := 3, op := ⟨77⟩ },
      { offset := 4, op := ⟨26⟩ }, { offset := 5, op := ⟨153⟩, target := 16 },
      { offset := 8, op := ⟨44⟩ }, { offset := 9, op := ⟨76⟩ },
      { offset := 10, op := ⟨18⟩, constant := some (.string []) }, { offset := 12, op := ⟨77⟩ },
      { offset := 13, op := ⟨167⟩, target := 4 }, { offset := 16, op := ⟨43⟩ },
      { offset := 17, op := ⟨182⟩, member := some ⟨"java/lang/Object", "hashCode", "()I"⟩ },
      { offset := 20, op := ⟨87⟩ }, { offset := 21, op := ⟨177⟩ }]
    maxLocals := 3 }

theorem usable_receiver_unseen_handedOn :
    ∃ g r p start c links, Graph.build handedOn = .ok g ∧
      ({} : Options).explore g (.accepting false) () = (.ok r, p) ∧ r.stats.cutOff = false ∧
      handedOn.startFrame = .ok start ∧
      Execution g ⟨handedOn.code, false⟩ start c links ∧ c.node ∈ r.noContext ∧
      ¬ c.HasNullReceiver g ∧
      (GivenUp g (Verdict g p.log) 0 ∨ (∃ l ∈ links, Verdict g p.log l.1.node l.2.node) ∨
        LosesSight ⟨g, .accepting false, false⟩ {} start ⟨{}, {}, (), []⟩ c links) := by
  have h : (handedOn.trial? {}
      [1, 2, 3, 4, 5, 6, 7, 8, 9, 10, 4, 5, 6, 7, 8, 9, 10, 4, 5, 11, 12]).any fun t =>
        decide (t.graph.size ≤ 0x8000000000000000) && !t.result.stats.cutOff &&
          t.result.noContext.contains t.config.node && !t.config.nullReceiver t.graph := by
    decide +kernel
  obtain ⟨t, ht, h⟩ := (Option.any_eq_true _ _).1 h
  simp only [Bool.and_eq_true, decide_eq_true_eq, Bool.not_eq_true', OrderedSet.contains_iff] at h
  obtain ⟨⟨⟨hsize, hcut⟩, hc⟩, hn⟩ := h
  have hnull : ¬ t.config.HasNullReceiver t.graph := by
    rw [← Config.nullReceiver_iff, hn]
    nofun
  obtain ⟨hb, ⟨p, hx⟩, start, links, hs, he⟩ := Method.trial?_eq_some ht
  exact ⟨_, _, p, start, _, links, hb, hx, hcut, hs, he, hc, hnull,
    usable_receiver_unseen hb hsize hx hcut hs he hc hnull⟩

end BytecodeFlow.Exploration
