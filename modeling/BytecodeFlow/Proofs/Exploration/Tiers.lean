import BytecodeFlow.Proofs.Exploration.NullReceivers
import BytecodeFlow.Proofs.Exploration.Partition

/-!
Two explorations of one method side by side, such as a fast one and an exhaustive one. Both account for
nodes by chains from the same start, so that they can only differ where one of them overlooks a chain
that the other has followed.
-/

namespace BytecodeFlow

/-- A step that shows this configuration covers the node. -/
def Config.Covers (g : Graph) (c : Config) (i : Nat) : Prop :=
  ¬ c.HasNullReceiver g ∧ ∃ n, g.nodes[c.node]? = some n ∧ i ∈ n.sameLine

section

variable {g : Graph} {ctx : Effect.Context} {start : Frame} {c : Config}

theorem Chain.arises {links : List (Config × Config)} (h : Chain g ctx start c links) :
    c.Arises g ctx start := by
  induction h with
  | start => exact .refl
  | link _ hl ih => exact ih.tail (linked_iff.2 hl)

theorem Config.Arises.exists_chain (h : c.Arises g ctx start) :
    ∃ links, Chain g ctx start c links := by
  induction h with
  | refl => exact ⟨[], .start⟩
  | tail _ hl ih =>
    obtain ⟨links, h⟩ := ih
    exact ⟨_, h.link (linked_iff.1 hl)⟩

end

namespace Exploration

/-- A ledger whose entries come from configurations that arise. A node is covered together with the
line of the node that was shown. -/
structure Sourced (g : Graph) (ctx : Effect.Context) (start : Frame) (l : Ledger) : Prop where
  covered : ∀ i ∈ l.covered, ∃ (c : Config) (n : Node), c.Arises g ctx start ∧
    ¬ c.HasNullReceiver g ∧ g.nodes[c.node]? = some n ∧ i ∈ n.sameLine ∧
    ∀ j ∈ n.sameLine, j ∉ g.dead → j ∈ l.covered
  noContext : ∀ i ∈ l.noContext, ∃ c : Config, c.Arises g ctx start ∧ c.HasNullReceiver g ∧ c.node = i

namespace Sourced

variable {g : Graph} {ctx : Effect.Context} {start : Frame} {l : Ledger}

theorem empty : Sourced g ctx start {} where
  covered i hi := absurd hi (OrderedSet.not_mem_empty i)
  noContext i hi := absurd hi (OrderedSet.not_mem_empty i)

theorem cover (hl : Sourced g ctx start l) {c : Config} {n : Node} (hc : c.Arises g ctx start)
    (hnull : ¬ c.HasNullReceiver g) (hn : g.nodes[c.node]? = some n) :
    Sourced g ctx start (l.cover g n) where
  covered := by
    intro i hi
    rcases OrderedSet.mem_union.1 hi with hi | hi
    · obtain ⟨c', n', hc', hnull', hn', his, hall⟩ := hl.covered i hi
      exact ⟨c', n', hc', hnull', hn', his,
        fun j hj hd => OrderedSet.mem_union.2 (.inl (hall j hj hd))⟩
    · exact ⟨c, n, hc, hnull, hn, (OrderedSet.mem_diff.1 hi).1,
        fun j hj hd => OrderedSet.mem_union.2 (.inr (OrderedSet.mem_diff.2 ⟨hj, hd⟩))⟩
  noContext i hi := hl.noContext i (OrderedSet.mem_diff.1 hi).1

theorem cut (hl : Sourced g ctx start l) {c : Config} (hc : c.Arises g ctx start)
    (hnull : c.HasNullReceiver g) (cause : Int) : Sourced g ctx start (l.cut g c.node cause).2 := by
  have hl' : Sourced g ctx start { l with noContext := l.noContext.insert c.node } := by
    refine ⟨hl.covered, fun i hi => ?_⟩
    rcases OrderedSet.mem_insert.1 hi with hi | rfl
    · exact hl.noContext i hi
    · exact ⟨c, hc, hnull, rfl⟩
  rw [Ledger.cut]
  split <;> exact ⟨hl'.covered, hl'.noContext⟩

theorem prune (hl : Sourced g ctx start l) (node unavailable : Nat) (cause : Int) :
    Sourced g ctx start (l.prune g node unavailable cause).2 := by
  rw [Ledger.prune]
  split <;> exact ⟨hl.covered, hl.noContext⟩

end Sourced

theorem not_hasNullReceiver {g : Graph} {n : Node} {path : Path} {t : Option ValueType}
    (hn : g.nodes[path.node]? = some n) (h : Receiver.type? (path.site n) path.frame = .ok t) :
    ¬ path.config.HasNullReceiver g := by
  rintro ⟨n', node, cause, hn', h'⟩
  rw [show path.config.node = path.node from rfl, hn] at hn'
  cases hn'
  have := h.symm.trans h'
  cases this

theorem steady_sourced {s : Setting σ} {start : Frame}
    (hv : ∀ path p, ¬ Declines s path p) :
    Steady s start fun p => Sourced s.graph s.effects start p.ledger where
  step := by
    intro n path p q out hn hc h hp
    have advanced {p : Progress σ} (h : Advanced s n path p out q)
        (hp : Sourced s.graph s.effects start p.ledger) :
        Sourced s.graph s.effects start q.ledger := by
      cases h with
      | all _ _ => exact hp
      | decided _ _ => exact hp.prune _ _ _
    cases h with
    | again _ ha => exact advanced ha hp
    | null _ hr => exact hp.cut hc ⟨n, _, _, hn, hr⟩ _
    | refused _ _ hr => exact absurd ⟨n, _, _, _, hn, hr⟩ (hv path p)
    | shown _ hr _ ha => exact advanced ha (hp.cover hc (not_hasNullReceiver hn hr) hn)
  failure := by
    intro n path p q hn hc h hp
    cases h with
    | idle => exact hp
    | declined _ _ _ => exact hp
    | shown _ hr _ => exact hp.cover hc (not_hasNullReceiver hn hr) hn
  stats _ hp := hp
  note _ hp := hp
  closeOff hp := ⟨hp.covered, hp.noContext⟩

/-- A link that a pass loses: a turn takes up where it starts, but no turn where it leads. Either the
history of that turn had nothing to add along the link, or the turn was cut at a null receiver. -/
structure Lost (s : Setting σ) (turns : List (Exhaustive.State × Progress σ))
    (l : Config × Config) : Prop where
  turned_away : ∃ x ∈ turns, x.1.current.path.config = l.1 ∧
    (l.2.node = l.1.node ∨ Refuses x.1.current.history l.1.node l.2.node ∨
      (l.1.HasNullReceiver s.graph ∧ l.1.node ∉ x.2.ledger.covered))
  never : ∀ y ∈ turns, y.1.current.path.config ≠ l.2

theorem taken_or_lost {s : Setting σ} (hv : ∀ path p, ¬ Declines s path p) {cutoff : Nat}
    {start : Frame} {p q : Progress σ} {turns : List (Exhaustive.State × Progress σ)} {c c' : Config}
    (h : Exhaustive.Pass s cutoff start p turns .drained q)
    (hc : ∃ x ∈ turns, x.1.current.path.config = c)
    (hl : Advances s.graph s.effects c c' ∨ Raises s.graph c c') :
    (∃ y ∈ turns, y.1.current.path.config = c') ∨ Lost s turns (c, c') := by
  by_cases ht : ∃ y ∈ turns, y.1.current.path.config = c'
  · exact .inl ht
  refine .inr ⟨?_, fun y hy he => ht ⟨y, hy, he⟩⟩
  obtain ⟨x, hx, rfl⟩ := hc
  refine ⟨x, hx, rfl, ?_⟩
  rcases hl with hl | hl
  · rcases (taken_or_held h hx hl).resolve_left ht with (he | hr) | hd | hn
    · exact .inl he
    · exact .inr (.inl hr)
    · exact absurd hd (hv _ _)
    · exact .inr (.inr hn)
  · exact .inr (.inl ((taken_or_refused h hx hl).resolve_left ht))

/-- An exploration overlooks a chain: its verdicts give up the entry or rule out one of the links, or
its drained exhaustive pass loses one. -/
def Overlooks (s : Setting σ) (o : Options) (start : Frame) (p₀ p : Progress σ)
    (links : List (Config × Config)) : Prop :=
  GivenUp s.graph (Verdict s.graph p.log) 0 ∨
    (∃ l ∈ links, Verdict s.graph p.log l.1.node l.2.node) ∨
    ∃ turns q, Drains s o start p₀ turns q ∧ ∃ l ∈ links, Lost s turns l

/-- The result of an exploration misses a node: a chain leads to where a step covers the node, or
finds its receiver null, but the result says otherwise. Either the chain is overlooked, or the node
that is shown at its end is covered as a copy of another, whose line the missed node is not on. -/
inductive Misses (g : Graph) (o : Options) (r : Result) (p : Progress Unit) (i : Nat) : Prop
  | usable {start : Frame} {c : Config} {links : List (Config × Config)} :
    g.method.startFrame = .ok start → Chain g ⟨g.method.code, o.declaredLocals⟩ start c links →
    c.Covers g i → i ∉ r.covered →
    Overlooks ⟨g, .accepting false, o.declaredLocals⟩ o start ⟨{}, {}, (), []⟩ p links →
    Misses g o r p i
  | null {start : Frame} {c : Config} {links : List (Config × Config)} :
    g.method.startFrame = .ok start → Chain g ⟨g.method.code, o.declaredLocals⟩ start c links →
    c.HasNullReceiver g → c.node = i → i ∈ r.dead →
    Overlooks ⟨g, .accepting false, o.declaredLocals⟩ o start ⟨{}, {}, (), []⟩ p links →
    Misses g o r p i
  | copied {start : Frame} {c : Config} {links : List (Config × Config)} {k : Nat} {n : Node} :
    g.method.startFrame = .ok start → Chain g ⟨g.method.code, o.declaredLocals⟩ start c links →
    c.Covers g i → i ∉ r.covered →
    g.nodes[k]? = some n → k ∈ r.covered → c.node ∈ n.sameLine → i ∉ n.sameLine →
    Misses g o r p i

theorem not_declines_accepting {g : Graph} {cancelled declaredLocals : Bool} (path : Path)
    (p : Progress Unit) : ¬ Declines ⟨g, .accepting cancelled, declaredLocals⟩ path p := by
  rintro ⟨n, node, cause, seen, -, h⟩
  cases h

section

variable {g : Graph} {o : Options} {r : Result} {p : Progress Unit} {start : Frame}

theorem sourced_of_explore (h : o.explore g (.accepting false) () = (.ok r, p))
    (hs : g.method.startFrame = .ok start) :
    Sourced g ⟨g.method.code, o.declaredLocals⟩ start p.ledger := by
  have hsteady : ∀ start', g.method.startFrame = .ok start' →
      Steady ⟨g, .accepting false, o.declaredLocals⟩ start' fun p =>
        Sourced g ⟨g.method.code, o.declaredLocals⟩ start p.ledger := by
    intro start' hs'
    rw [hs] at hs'
    cases hs'
    exact steady_sourced not_declines_accepting
  have hl := steady_explore (s := ⟨g, .accepting false, o.declaredLocals⟩) hsteady
    (explore_leaves o g (.accepting false) ()) .empty
  rwa [h] at hl

theorem accounted_of_explore (hg : g.Wf) (h : o.explore g (.accepting false) () = (.ok r, p))
    (hcut : r.stats.cutOff = false) :
    ∀ i < g.size, i ∈ r.covered ∨ i ∈ r.noContext ∨ i ∈ r.dead := by
  obtain ⟨start, -, hcourse, rfl⟩ := explore_eq_ok h
  refine fun i hi => mem_result ?_
  rcases (kept_wf hg).course hcourse Ledger.wf_empty with
    ⟨hw, hf | hf⟩ | ⟨turns, q, q', -, -, rfl, hl, -⟩
  · exact (hw.settled hg (of_decide_eq_true hf) hi).imp_right .inl
  · have hcut' : p.stats.cutOff = false := hcut
    rw [hf] at hcut'
    cases hcut'
  · rw [hl]
    exact @Ledger.settled_closeOff g q'.ledger i hi

theorem not_covered_of_noContext (h : o.explore g (.accepting false) () = (.ok r, p)) {i : Nat}
    (hi : i ∈ r.noContext) : i ∉ r.covered := by
  obtain ⟨-, -, -, rfl⟩ := explore_eq_ok h
  exact (OrderedSet.mem_diff.1 hi).2

variable (hg : g.Wf) (hsize : g.size ≤ 0x8000000000000000)
  (h : o.explore g (.accepting false) () = (.ok r, p)) (hcut : r.stats.cutOff = false)

include hg hsize h in
theorem sound_of_explore : p.ledger.Sound g := by
  have hl := steady_explore (fun start hs => steady_sound hg hsize hs)
    (explore_leaves o g (.accepting false) ())
    ⟨Ledger.wf_empty, fun i hi => absurd hi (OrderedSet.not_mem_empty i)⟩
  rwa [h] at hl

include hg h hcut in
theorem notCovered_of_explore : r.notCovered = ∅ := by
  have hall := accounted_of_explore hg h hcut
  obtain ⟨-, -, -, rfl⟩ := explore_eq_ok h
  exact notCovered_eq_empty hall

include hg hsize h hcut

theorem mem_dead_iff_of_explore {i : Nat} :
    i ∈ r.dead ↔ i < g.size ∧ i ∉ r.covered ∧ i ∉ r.noContext := by
  have hl := sound_of_explore hg hsize h
  constructor
  · intro hd
    obtain ⟨-, -, -, rfl⟩ := explore_eq_ok h
    obtain ⟨hd, hn⟩ := OrderedSet.mem_diff.1 hd
    refine ⟨hl.toWf.knownDead_lt hg i hd, fun hc => ?_, hn⟩
    rcases OrderedSet.mem_union.1 hd with hd | hd
    · exact (hl.covered i hc).2 hd
    · exact (hl.dead i hd).2 hc
  · rintro ⟨hi, hc, hn⟩
    exact ((accounted_of_explore hg h hcut i hi).resolve_left hc).resolve_left hn

/-- An exploration that is not cut off accounts for the end of a chain, or overlooks the chain. -/
theorem met_or_overlooks (hs : g.method.startFrame = .ok start) {c : Config}
    {links : List (Config × Config)} (hc : Chain g ⟨g.method.code, o.declaredLocals⟩ start c links) :
    c.node ∈ r.covered ∨ (c.HasNullReceiver g ∧ c.node ∈ r.noContext) ∨
      Overlooks ⟨g, .accepting false, o.declaredLocals⟩ o start ⟨{}, {}, (), []⟩ p links := by
  obtain ⟨start', hs', hcourse, rfl⟩ := explore_eq_ok h
  rw [hs] at hs'
  cases hs'
  have hlive := (hc.arises.live hg hsize hs).node
  rcases ((kept_wf hg).and (kept_judged hg)).course hcourse
    ⟨Ledger.wf_empty, fun x hx => absurd hx (OrderedSet.not_mem_empty x)⟩ with
    ⟨⟨hw, hj⟩, hf | hf⟩ | ⟨turns, q, q', hdrain, -, -, hl, -⟩
  · -- all nodes are settled
    rcases hw.settled hg (of_decide_eq_true hf) hlive.1 with hx | hx
    · exact .inl hx
    · have hgu := Ledger.givenUp_of_knownDead hj _ hx
      exact .inr (.inr ((Verdict.of_chain hg hsize hs hc hgu).imp_right .inl))
  · have hcut' : p.stats.cutOff = false := hcut
    rw [hf] at hcut'
    cases hcut'
  · obtain ⟨p₁, -, hpass⟩ := id hdrain
    rcases Chain.taken_or hpass hc fun l hl hx =>
      taken_or_lost not_declines_accepting hpass hx (hc.linked hl) with ⟨x, hx, rfl⟩ | hlost
    · by_cases hcov : x.1.current.path.node ∈ p.ledger.covered
      · exact .inl hcov
      have hnot : x.1.current.path.node ∉ q.ledger.covered := hl ▸ hcov
      have hnull : x.1.current.path.config.HasNullReceiver g := by
        rcases Exhaustive.covers_of_pass hg hpass x hx with (hx' | hx') | hx' | hx'
        · exact absurd hx' hnot
        · exact absurd hx' hlive.2
        · exact hx'
        · exact absurd hx' (not_declines_accepting _ _)
      refine .inr (.inl ⟨hnull, OrderedSet.mem_diff.2 ⟨?_, hcov⟩⟩)
      rw [hl]
      exact ((Exhaustive.met_of_pass hg hpass x hx).resolve_left hnot).resolve_right hlive.2
    · exact .inr (.inr (.inr (.inr ⟨turns, q, hdrain, hlost⟩)))

variable {o' : Options} {r' : Result} {p' : Progress Unit}
  (h' : o'.explore g (.accepting false) () = (.ok r', p'))
  (hd : o'.declaredLocals = o.declaredLocals) {i : Nat}

include h' hd

theorem covered_or_misses (hi : i ∈ r'.covered) : i ∈ r.covered ∨ Misses g o r p i := by
  by_cases hnot : i ∈ r.covered
  · exact .inl hnot
  refine .inr ?_
  have hlive := (sound_of_explore hg hsize h').covered i
  obtain ⟨start, hs, -, rfl⟩ := explore_eq_ok h'
  obtain ⟨c, n, hc, hnull, hn, his, -⟩ := (hd ▸ sourced_of_explore h' hs).covered i hi
  obtain ⟨links, hchain⟩ := hc.exists_chain
  have hcov : c.Covers g i := ⟨hnull, n, hn, his⟩
  rcases met_or_overlooks hg hsize h hcut hs hchain with hmet | ⟨hnull', -⟩ | hover
  · have hsrc := sourced_of_explore h hs
    obtain ⟨-, -, -, rfl⟩ := explore_eq_ok h
    obtain ⟨c', n', hc', -, hn', hcs, hall⟩ := hsrc.covered _ hmet
    have hk := hall c'.node (hg.mem_sameLine hn') (hc'.live hg hsize hs).node.2
    exact .copied hs hchain hcov hnot hn' hk hcs fun hin => hnot (hall i hin (hlive hi).2)
  · exact absurd hnull' hnull
  · exact .usable hs hchain hcov hnot hover

theorem noContext_or_misses (hi : i ∈ r'.noContext) :
    i ∈ r.covered ∨ i ∈ r.noContext ∨ Misses g o r p i := by
  obtain ⟨start, hs, -, rfl⟩ := explore_eq_ok h'
  obtain ⟨c, hc, hnull, rfl⟩ :=
    (hd ▸ sourced_of_explore h' hs).noContext i (OrderedSet.mem_diff.1 hi).1
  obtain ⟨links, hchain⟩ := hc.exists_chain
  by_cases hcov : c.node ∈ r.covered
  · exact .inl hcov
  by_cases hn : c.node ∈ r.noContext
  · exact .inr (.inl hn)
  have hdead := (mem_dead_iff_of_explore hg hsize h hcut).2
    ⟨(hc.live hg hsize hs).node.1, hcov, hn⟩
  rcases met_or_overlooks hg hsize h hcut hs hchain with hmet | ⟨-, hmet⟩ | hover
  · exact absurd hmet hcov
  · exact absurd hmet hn
  · exact .inr (.inr (.null hs hchain hnull rfl hdead hover))

end

/-- Two explorations of a method without a visitor, neither of them cut off, sort a node the same way,
unless one of them misses it. -/
theorem tiers_agree_or_miss {m : Method} {g : Graph} {o o' : Options} {r r' : Result}
    {p p' : Progress Unit} (hb : Graph.build m = .ok g) (hsize : g.size ≤ 0x8000000000000000)
    (hd : o.declaredLocals = o'.declaredLocals)
    (h : o.explore g (.accepting false) () = (.ok r, p)) (hcut : r.stats.cutOff = false)
    (h' : o'.explore g (.accepting false) () = (.ok r', p')) (hcut' : r'.stats.cutOff = false) :
    r.notCovered = r'.notCovered ∧
      ∀ i, ((i ∈ r.noContext ↔ i ∈ r'.noContext) ∧ (i ∈ r.dead ↔ i ∈ r'.dead)) ∨
        Misses g o r p i ∨ Misses g o' r' p' i := by
  have hg := Graph.wf_of_build hb
  refine ⟨(notCovered_of_explore hg h hcut).trans
    (notCovered_of_explore hg h' hcut').symm, fun i => ?_⟩
  by_cases hm : Misses g o r p i ∨ Misses g o' r' p' i
  · exact .inr hm
  obtain ⟨hm, hm'⟩ := not_or.1 hm
  have hcov : i ∈ r.covered ↔ i ∈ r'.covered := by
    constructor
    · intro hi
      exact (covered_or_misses hg hsize h' hcut' h hd hi).resolve_right hm'
    · intro hi
      exact (covered_or_misses hg hsize h hcut h' hd.symm hi).resolve_right hm
  have hnull : i ∈ r.noContext ↔ i ∈ r'.noContext := by
    constructor
    · intro hi
      rcases noContext_or_misses hg hsize h' hcut' h hd hi with hc | hn | hm
      · exact absurd (hcov.2 hc) (not_covered_of_noContext h hi)
      · exact hn
      · exact absurd hm hm'
    · intro hi
      rcases noContext_or_misses hg hsize h hcut h' hd.symm hi with hc | hn | hm'
      · exact absurd (hcov.1 hc) (not_covered_of_noContext h' hi)
      · exact hn
      · exact absurd hm' hm
  refine .inl ⟨hnull, ?_⟩
  rw [mem_dead_iff_of_explore hg hsize h hcut, mem_dead_iff_of_explore hg hsize h' hcut', hcov,
    hnull]

/-- A call that is cut where the argument was cleared before, in a block with a handler. -/
def guardedNotify : Method where
  className := "a/B"
  name := "m"
  descriptor := "(Ljava/lang/Object;I)V"
  static := true
  code := {
    instructions := [{ offset := 0, op := ⟨27⟩ }, { offset := 1, op := ⟨153⟩, target := 6 },
      { offset := 4, op := ⟨1⟩ }, { offset := 5, op := ⟨75⟩ }, { offset := 6, op := ⟨42⟩ },
      { offset := 7, op := ⟨182⟩, member := some ⟨"java/lang/Object", "notify", "()V"⟩ },
      { offset := 10, op := ⟨177⟩ }, { offset := 11, op := ⟨87⟩ }, { offset := 12, op := ⟨177⟩ }]
    handlers := [⟨6, 10, 11, ""⟩]
    maxLocals := 2 }

theorem tiers_agree_or_miss_guardedNotify :
    ∃ g r r' p p', Graph.build guardedNotify = .ok g ∧
      ({} : Options).explore g (.accepting false) () = (.ok r, p) ∧ r.stats.cutOff = false ∧
      ({ exhaustive := true } : Options).explore g (.accepting false) () = (.ok r', p') ∧
      r'.stats.cutOff = false ∧ 5 ∈ r.covered ∧ 5 ∈ r'.noContext ∧
      r.notCovered = r'.notCovered ∧
        ∀ i, ((i ∈ r.noContext ↔ i ∈ r'.noContext) ∧ (i ∈ r.dead ↔ i ∈ r'.dead)) ∨
          Misses g {} r p i ∨ Misses g { exhaustive := true } r' p' i := by
  have h : (guardedNotify.trial? {} []).any fun t =>
      (guardedNotify.trial? { exhaustive := true } []).any fun t' =>
        decide (t.graph.size ≤ 0x8000000000000000) && !t.result.stats.cutOff &&
          !t'.result.stats.cutOff && t.result.covered.contains 5 &&
          t'.result.noContext.contains 5 := by
    decide +kernel
  obtain ⟨t, ht, h⟩ := (Option.any_eq_true _ _).1 h
  obtain ⟨t', ht', h⟩ := (Option.any_eq_true _ _).1 h
  simp only [Bool.and_eq_true, decide_eq_true_eq, Bool.not_eq_true', OrderedSet.contains_iff] at h
  obtain ⟨⟨⟨⟨hsize, hcut⟩, hcut'⟩, hcov⟩, hnull⟩ := h
  obtain ⟨hb, ⟨p, hx⟩, -⟩ := Method.trial?_eq_some ht
  obtain ⟨hb', ⟨p', hx'⟩, -⟩ := Method.trial?_eq_some ht'
  rw [← Except.ok.inj (hb.symm.trans hb')] at hx'
  exact ⟨_, _, _, p, p', hb, hx, hcut, hx', hcut', hcov, hnull,
    tiers_agree_or_miss hb hsize rfl hx hcut hx' hcut'⟩

end Exploration

end BytecodeFlow
