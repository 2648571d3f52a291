import BytecodeFlow.Proofs.Exploration.Accounting
import BytecodeFlow.Proofs.Exploration.Drained

/-!
What makes a node dead. Verdicts of the log rule out links, nodes whose links are all ruled out are
given up, and a drained exhaustive pass leaves out what it never led to. An execution that reaches a
dead node all the same has gone against one of these.
-/

namespace BytecodeFlow

/-- Nodes that cannot be reached if no link of `ruled` is taken: those that no edge leads to, and those
with predecessors that are all given up or ruled out. -/
inductive GivenUp (g : Graph) (ruled : Nat → Nat → Prop) : Nat → Prop
  | unreached {i : Nat} : i ∈ g.dead → GivenUp g ruled i
  | closed {i : Nat} : g.preds i ≠ [] → (∀ p ∈ g.preds i, ¬ ruled p i → GivenUp g ruled p) →
    GivenUp g ruled i

section GivenUp

variable {g : Graph} {ruled ruled' : Nat → Nat → Prop}

theorem GivenUp.mono (h : ∀ i t, ruled i t → ruled' i t) {i : Nat} (hi : GivenUp g ruled i) :
    GivenUp g ruled' i := by
  induction hi with
  | unreached hd => exact .unreached hd
  | closed hne _ ih => exact .closed hne fun p hp hr => ih p hp fun hr' => hr (h _ _ hr')

theorem GivenUp.pred (hg : g.Wf) {i t : Nat} (h : GivenUp g ruled t) (hi : t ∈ g.succs i)
    (hr : ¬ ruled i t) : GivenUp g ruled i := by
  cases h with
  | unreached hd => exact .unreached (hg.dead_pred hd hi)
  | closed _ hp => exact hp i (hg.mem_preds.2 hi) hr

theorem GivenUp.of_preds (hg : g.Wf) {i t : Nat} (hi : t ∈ g.succs i)
    (hp : ∀ p ∈ g.preds t, ¬ ruled p t → GivenUp g ruled p) : GivenUp g ruled t :=
  .closed (List.ne_nil_of_mem (hg.mem_preds.2 hi)) hp

/-- A chain that reaches a node given up has taken a link that was ruled out, unless the entry is given
up itself. What is ruled out of a call must include every link from there, since the call returns by a
link from another node. -/
theorem Chain.exists_ruled {ctx : Effect.Context} {start : Frame} {c : Config}
    {links : List (Config × Config)} (hg : g.Wf) (hsize : g.size ≤ 0x8000000000000000)
    (hs : ∀ e ∈ start.entries, ∀ a, e.type ≠ .returnAddress a)
    (hcall : ∀ i t t', g.Calls i → ruled i t → ruled i t') (h : Chain g ctx start c links)
    (hc : GivenUp g ruled c.node) :
    GivenUp g ruled 0 ∨ ∃ l ∈ links, ruled l.1.node l.2.node := by
  -- the induction needs the same of every node that the chain has left
  suffices hall : (GivenUp g ruled c.node → GivenUp g ruled 0 ∨ ∃ l ∈ links, ruled l.1.node l.2.node) ∧
      ∀ l ∈ links, GivenUp g ruled l.1.node →
        GivenUp g ruled 0 ∨ ∃ l ∈ links, ruled l.1.node l.2.node from hall.1 hc
  clear hc
  induction h with
  | start => exact ⟨.inl, by simp⟩
  | @link c c' links h hf ih =>
    have later : (GivenUp g ruled 0 ∨ ∃ l ∈ links, ruled l.1.node l.2.node) →
        GivenUp g ruled 0 ∨ ∃ l ∈ (c, c') :: links, ruled l.1.node l.2.node := by
      rintro (h | ⟨l, hl, hr⟩)
      · exact .inl h
      · exact .inr ⟨l, List.mem_cons_of_mem _ hl, hr⟩
    refine ⟨fun hc' => ?_, fun l hl hgl => later ?_⟩
    · rcases h.follows_edge hg hsize hs hf with he | ⟨l, hl, hcl, he⟩
      · by_cases hr : ruled c.node c'.node
        · exact .inr ⟨_, List.mem_cons_self, hr⟩
        · exact later (ih.1 (hc'.pred hg he hr))
      · by_cases hr : ruled l.1.node c'.node
        · exact .inr ⟨l, List.mem_cons_of_mem _ hl, hcall _ _ _ hcl hr⟩
        · exact later (ih.2 l hl (hc'.pred hg he hr))
    · rcases List.mem_cons.1 hl with rfl | hl
      · exact ih.1 hgl
      · exact ih.2 l hl hgl

end GivenUp

namespace Ledger

variable {g : Graph} {l : Ledger} {ruled : Nat → Nat → Prop}

theorem prune_fst (node unavailable : Nat) (cause : Int) :
    (l.prune g node unavailable cause).1 = precedes g cause node := by
  rw [prune]
  split
  next h => exact h.symm
  next h => exact (eq_false_of_ne_true h).symm

theorem givenUp_of_knownDead (hl : ∀ x ∈ l.dead, GivenUp g ruled x) :
    ∀ x ∈ l.knownDead g, GivenUp g ruled x := by
  intro x hx
  rcases OrderedSet.mem_union.1 hx with hx | hx
  · exact .unreached hx
  · exact hl x hx

theorem givenUp_of_addDead (hl : ∀ x ∈ l.dead, GivenUp g ruled x) {set : NodeSet}
    (hset : ∀ x ∈ set, GivenUp g ruled x) : ∀ x ∈ (l.addDead g set).dead, GivenUp g ruled x := by
  intro x hx
  rcases OrderedSet.mem_union.1 hx with hx | hx
  · exact hl x hx
  · exact hset x (OrderedSet.mem_diff.1 (OrderedSet.mem_diff.1 hx).1).1

/-- A decided test gives up what is only reached through the link that it rules out. -/
theorem givenUp_of_prune (hg : g.Wf) (hl : ∀ x ∈ l.dead, GivenUp g ruled x) {node unavailable : Nat}
    {cause : Int} (hlink : unavailable ∈ g.succs node)
    (hr : precedes g cause node = true → ruled node unavailable) :
    ∀ x ∈ (l.prune g node unavailable cause).2.dead, GivenUp g ruled x := by
  have hk := givenUp_of_knownDead hl
  rw [prune]
  split
  next hp =>
    refine givenUp_of_addDead hl ?_
    split
    next ho =>
      refine hg.successorClosure_induction (fun hs hpreds => ?_) hk ?_
      · exact .of_preds hg hs fun p hp _ => hpreds p hp
      · refine .of_preds hg hlink fun p hpred hnr => ?_
        simp only [Bool.and_eq_true, onlyReachedFrom, List.all_eq_true, Bool.or_eq_true, beq_iff_eq,
          OrderedSet.contains_iff] at ho
        rcases ho.2 p hpred with rfl | hd
        · exact absurd (hr hp) hnr
        · exact hk p hd
    next => exact hk
  next => exact hl

/-- A cut at a node gives up what only follows that node, whose links are ruled out. -/
theorem givenUp_of_cut (hg : g.Wf) (hl : ∀ x ∈ l.dead, GivenUp g ruled x) {node : Nat} {cause : Int}
    (hr : precedes g cause node = true → ∀ t, ruled node t) :
    ∀ x ∈ (l.cut g node cause).2.dead, GivenUp g ruled x := by
  rw [cut]
  split
  next hp =>
    refine givenUp_of_addDead hl fun x hx => ?_
    obtain ⟨hx, hne⟩ := OrderedSet.mem_erase.1 hx
    have hk : ∀ x ∈ l.knownDead g, x = node ∨ GivenUp g ruled x :=
      fun x hx => .inr (givenUp_of_knownDead hl x hx)
    refine (hg.successorClosure_induction (fun hs hpreds => ?_) hk (.inl rfl) x hx).resolve_left hne
    refine .inr (.of_preds hg hs fun p hpred hnr => ?_)
    rcases hpreds p hpred with rfl | h
    · exact absurd (hr hp _) hnr
    · exact h
  next => exact hl

end Ledger

namespace Exploration

/-- What the log rules out: all links from a node cut at a null receiver that a node of its straight
run produced, and the link that a null test leaves out for a value from its straight run. -/
inductive Verdict (g : Graph) (log : List Event) (i t : Nat) : Prop
  | cut {cause : Int} : .nullReceiver g.method i cause ∈ log → Ledger.precedes g cause i = true →
    Verdict g log i t
  | decided {n : Node} {b : Bool} {cause : Int} {trace : Trace} :
    .decided g.method i t cause true trace ∈ log → g.nodes[i]? = some n →
    n.instr.operation = .branch (.null b) → Verdict g log i t

theorem Verdict.mono {g : Graph} {log log' : List Event} (h : ∀ e ∈ log, e ∈ log') {i t : Nat}
    (hv : Verdict g log i t) : Verdict g log' i t := by
  cases hv with
  | cut he hp => exact .cut (h _ he) hp
  | decided he hn hop => exact .decided (h _ he) hn hop

theorem Verdict.of_calls {g : Graph} {log : List Event} {i t : Nat} (t' : Nat) (hc : g.Calls i)
    (hv : Verdict g log i t) : Verdict g log i t' := by
  cases hv with
  | cut he hp => exact .cut he hp
  | decided _ hn hop =>
    obtain ⟨n, long, hn', hop'⟩ := hc
    rw [hn] at hn'
    cases hn'
    rw [hop] at hop'
    cases hop'

/-- A chain that reaches a node which the verdicts of a log give up goes against one of them, or starts
from an entry that they give up as well. -/
theorem Verdict.of_chain {g : Graph} {log : List Event} {ctx : Effect.Context} {start : Frame}
    {c : Config} {links : List (Config × Config)} (hg : g.Wf) (hsize : g.size ≤ 0x8000000000000000)
    (hs : g.method.startFrame = .ok start) (h : Chain g ctx start c links)
    (hc : GivenUp g (Verdict g log) c.node) :
    GivenUp g (Verdict g log) 0 ∨ ∃ l ∈ links, Verdict g log l.1.node l.2.node :=
  h.exists_ruled hg hsize (fun _ he a => g.method.startFrame_entries hs he a)
    (fun _ _ t' hi hv => hv.of_calls t' hi) hc

theorem Verdict.of_execution {g : Graph} {log : List Event} {ctx : Effect.Context} {start : Frame}
    {c : Config} {links : List (Config × Config)} (hg : g.Wf) (hsize : g.size ≤ 0x8000000000000000)
    (hs : g.method.startFrame = .ok start) (h : Execution g ctx start c links)
    (hc : GivenUp g (Verdict g log) c.node) :
    GivenUp g (Verdict g log) 0 ∨ ∃ l ∈ links, Verdict g log l.1.node l.2.node :=
  of_chain hg hsize hs h.chain hc

/-- All nodes that an exploration holds dead are given up by the verdicts of its log. -/
def Judged (g : Graph) (p : Progress σ) : Prop :=
  ∀ x ∈ p.ledger.dead, GivenUp g (Verdict g p.log) x

theorem kept_judged {s : Setting σ} (hg : s.graph.Wf) : Kept s (Judged s.graph) where
  step := by
    intro n path p q out hn h hp
    have later {log : List Event} (e : Event) {x : Nat} (hx : GivenUp s.graph (Verdict s.graph log) x) :
        GivenUp s.graph (Verdict s.graph (e :: log)) x :=
      hx.mono fun i t hv => hv.mono fun _ he => List.mem_cons_of_mem _ he
    have advanced {p q : Progress σ} (h : Advanced s n path p out q) (hp : Judged s.graph p) :
        Judged s.graph q := by
      cases h with
      | all _ _ => exact hp
      | @decided remaining unavailable cause frame hs _ =>
        obtain ⟨⟨b, hop⟩, -, hu⟩ := successors_eq_decided hs
        have hlink : unavailable ∈ s.graph.succs path.node := by
          rw [Graph.succs_eq hn, hg.mem_succs hn]
          exact .inl hu
        refine Ledger.givenUp_of_prune hg (fun x hx => later _ (hp x hx)) hlink fun hpre => ?_
        rw [Ledger.prune_fst, hpre]
        exact .decided List.mem_cons_self hn hop
    have cut (cause : Int) (seen : σ) : Judged s.graph
        { p with
          ledger := (p.ledger.cut s.graph path.node cause).2
          seen
          log := .nullReceiver s.method path.node cause :: p.log } :=
      Ledger.givenUp_of_cut hg (fun x hx => later _ (hp x hx)) fun hpre _ =>
        .cut List.mem_cons_self hpre
    cases h with
    | again _ ha => exact advanced ha hp
    | null _ _ => exact cut _ _
    | refused _ _ _ => exact cut _ _
    | shown _ _ _ ha => exact advanced ha fun x hx => hp x (OrderedSet.mem_diff.1 hx).1
  stats := fun _ hp => hp
  note := fun _ hp x hx => (hp x hx).mono fun _ _ hv => hv.mono fun _ he => List.mem_cons_of_mem _ he

/-- A node that a step has taken up is accounted for: covered, reached with a null receiver, or outside
of what the edges reach. -/
def Met (g : Graph) (i : Nat) (l : Ledger) : Prop := i ∈ l.covered ∨ i ∈ l.noContext ∨ i ∈ g.dead

theorem Met.cover {g : Graph} {i : Nat} {l : Ledger} (n : Node) (h : Met g i l) :
    Met g i (l.cover g n) := by
  rcases h with h | h | h
  · exact .inl (OrderedSet.mem_union.2 (.inl h))
  · by_cases hs : i ∈ n.sameLine.diff g.dead
    · exact .inl (OrderedSet.mem_union.2 (.inr hs))
    · exact .inr (.inl (OrderedSet.mem_diff.2 ⟨h, hs⟩))
  · exact .inr (.inr h)

theorem Met.cut {g : Graph} {i : Nat} {l : Ledger} (node : Nat) (cause : Int)
    (h : Met g i l ∨ i = node) : Met g i (l.cut g node cause).2 := by
  have h' : Met g i { l with noContext := l.noContext.insert node } := by
    rcases h with (h | h | h) | rfl
    · exact .inl h
    · exact .inr (.inl (OrderedSet.mem_insert.2 (.inl h)))
    · exact .inr (.inr h)
    · exact .inr (.inl (OrderedSet.mem_insert.2 (.inr rfl)))
  rw [Ledger.cut]
  split <;> exact h'

theorem Met.prune {g : Graph} {i : Nat} {l : Ledger} (node unavailable : Nat) (cause : Int)
    (h : Met g i l) : Met g i (l.prune g node unavailable cause).2 := by
  rw [Ledger.prune]
  split <;> exact h

theorem Met.advanced {s : Setting σ} {n : Node} {path : Path} {p q : Progress σ} {out : Step} {i : Nat}
    (h : Advanced s n path p out q) (hp : Met s.graph i p.ledger) : Met s.graph i q.ledger := by
  cases h with
  | all _ _ => exact hp
  | decided _ _ => exact hp.prune _ _ _

theorem Met.stepped {s : Setting σ} {n : Node} {path : Path} {p q : Progress σ} {out : Step} {i : Nat}
    (h : Stepped s n path p out q) (hp : Met s.graph i p.ledger) : Met s.graph i q.ledger := by
  cases h with
  | again _ ha => exact hp.advanced ha
  | null _ _ => exact .cut _ _ (.inl hp)
  | refused _ _ _ => exact .cut _ _ (.inl hp)
  | shown _ _ _ ha => exact (hp.cover n).advanced ha

theorem met_of_stepped {s : Setting σ} (hg : s.graph.Wf) {n : Node} {path : Path} {p q : Progress σ}
    {out : Step} (hn : s.graph.nodes[path.node]? = some n) (h : Stepped s n path p out q) :
    Met s.graph path.node q.ledger := by
  cases h with
  | again hc ha => exact .advanced ha (.inl hc)
  | null _ _ => exact .cut _ _ (.inr rfl)
  | refused _ _ _ => exact .cut _ _ (.inr rfl)
  | shown _ _ _ ha =>
    refine .advanced ha ?_
    by_cases hd : path.node ∈ s.graph.dead
    · exact .inr (.inr hd)
    · exact .inl (OrderedSet.mem_union.2 (.inr (OrderedSet.mem_diff.2 ⟨hg.mem_sameLine hn, hd⟩)))

namespace Exhaustive

/-- A turn meets its node, and what was met before stays so. -/
theorem met_of_turn {s : Setting σ} (hg : s.graph.Wf) {st : State} {p p' : Progress σ}
    {r : Option State} {i : Nat} (h : turn s st p = .ok r p')
    (hp : Met s.graph i p.ledger ∨ i = st.current.path.node) : Met s.graph i p'.ledger := by
  obtain ⟨n, out, q, threads, hn, hs, -, hr⟩ := turn_ok h
  have hq : Met s.graph i q.ledger := by
    rcases hp with hp | rfl
    · exact hp.stepped (stepped_of_step hs)
    · exact met_of_stepped hg hn (stepped_of_step hs)
  rcases hr with ⟨-, -, stats, rfl⟩ | ⟨-, -, stats, rfl⟩ <;> exact hq

theorem met_of_pass {s : Setting σ} (hg : s.graph.Wf) {cutoff : Nat} {start : Frame}
    {p p' : Progress σ} {turns : List (State × Progress σ)} {e : Exit}
    (h : Pass s cutoff start p turns e p') :
    ∀ x ∈ turns, Met s.graph x.1.current.path.node p'.ledger := by
  apply h.after (R := fun x q => Met s.graph x.1.current.path.node q.ledger)
  · intro st p r p' ht
    exact met_of_turn hg ht (.inr rfl)
  · intro x st p r p' hm ht
    exact met_of_turn hg ht (.inl hm)

end Exhaustive

/-- Turns of the drained exhaustive pass take up a node, but none of them leads on to `t`. -/
def Missed (s : Setting σ) (o : Options) (start : Frame) (p₀ : Progress σ) (i t : Nat) : Prop :=
  ∃ turns q, Drains s o start p₀ turns q ∧ (∃ x ∈ turns, x.1.current.path.node = i) ∧
    ∀ x ∈ turns, x.1.current.path.node = i → ¬ Leads s x.1.current.path x.2 t

/-- An execution that reaches a node which no turn of a drained pass takes up has a link that the pass
missed: the first that leaves what the turns take up. -/
theorem exists_missed {s : Setting σ} {o : Options} {start : Frame} {p₀ q : Progress σ}
    {turns : List (Exhaustive.State × Progress σ)} (hd : Drains s o start p₀ turns q)
    {ctx : Effect.Context} {c : Config} {links : List (Config × Config)}
    (h : Execution s.graph ctx start c links)
    (hc : ∀ x ∈ turns, x.1.current.path.node ≠ c.node) :
    ∃ l ∈ links, Missed s o start p₀ l.1.node l.2.node := by
  obtain ⟨p, -, hpass⟩ := id hd
  induction h with
  | start =>
    obtain ⟨x, hx, hnode⟩ := (Exhaustive.conserved_turn s).takes_up hpass
      (Exhaustive.sized_initial s start) _ List.mem_cons_self
    exact absurd (congrArg Path.node hnode) (hc x hx)
  | @link c c' links _ _ ih =>
    by_cases ht : ∃ x ∈ turns, x.1.current.path.node = c.node
    · refine ⟨_, List.mem_cons_self, turns, q, hd, ht, fun x hx _ hl => ?_⟩
      obtain ⟨y, hy, hnode⟩ := Exhaustive.takes_up_led hpass x hx _ hl
      exact hc y hy hnode
    · obtain ⟨l, hl, hm⟩ := ih fun x hx hnode => ht ⟨x, hx, hnode⟩
      exact ⟨l, List.mem_cons_of_mem _ hl, hm⟩

/-- Dead code is unreachable as far as the exploration judges right: an execution that reaches a dead
node starts from an entry that the verdicts give up, or takes a link that a verdict rules out or that
the drained exhaustive pass missed. -/
theorem dead_reached_against_verdict {m : Method} {g : Graph} {o : Options} {v : Visitor σ} {init : σ}
    {r : Result} {p : Progress σ} {start : Frame} {c : Config} {links : List (Config × Config)}
    (hb : Graph.build m = .ok g) (hsize : g.size ≤ 0x8000000000000000)
    (h : o.explore g v init = (.ok r, p)) (hs : m.startFrame = .ok start)
    (he : Execution g ⟨m.code, o.declaredLocals⟩ start c links) (hc : c.node ∈ r.dead) :
    GivenUp g (Verdict g p.log) 0 ∨
      ∃ l ∈ links, Verdict g p.log l.1.node l.2.node ∨
        Missed ⟨g, v, o.declaredLocals⟩ o start ⟨{}, {}, init, []⟩ l.1.node l.2.node := by
  have hg := Graph.wf_of_build hb
  obtain rfl := Graph.method_of_build hb
  obtain ⟨start', hs', hcourse, rfl⟩ := explore_eq_ok h
  rw [hs] at hs'
  cases hs'
  have judged (hgu : GivenUp g (Verdict g p.log) c.node) :
      GivenUp g (Verdict g p.log) 0 ∨ ∃ l ∈ links, Verdict g p.log l.1.node l.2.node ∨
        Missed ⟨g, v, o.declaredLocals⟩ o start ⟨{}, {}, init, []⟩ l.1.node l.2.node := by
    refine (Verdict.of_execution hg hsize hs he hgu).imp_right ?_
    rintro ⟨l, hl, hv⟩
    exact ⟨l, hl, .inl hv⟩
  rcases OrderedSet.mem_union.1 (OrderedSet.mem_diff.1 hc).1 with hd | hd
  · exact judged (.unreached hd)
  rcases (kept_judged hg).course hcourse (fun x hx => absurd hx (OrderedSet.not_mem_empty x)) with
    ⟨hj, -⟩ | ⟨turns, q, q', hdrain, hj, rfl, hl, e, hlog⟩
  · exact judged (hj _ hd)
  rw [hl] at hd
  rcases OrderedSet.mem_union.1 hd with hd | hd
  · refine judged ((hj _ hd).mono fun i t hv => hv.mono fun e he => ?_)
    rw [hlog]
    exact List.mem_cons_of_mem _ he
  · -- closed off: no turn has taken the node up
    obtain ⟨hu, hn⟩ := OrderedSet.mem_diff.1 hd
    obtain ⟨hu, -⟩ := OrderedSet.mem_diff.1 hu
    obtain ⟨hu, hcov⟩ := OrderedSet.mem_diff.1 hu
    obtain ⟨-, hdead⟩ := OrderedSet.mem_diff.1 hu
    obtain ⟨p₁, -, hpass⟩ := id hdrain
    have hfree : ∀ x ∈ turns, x.1.current.path.node ≠ c.node := by
      intro x hx hnode
      rcases Exhaustive.met_of_pass hg hpass x hx with hx | hx | hx
      · exact hcov (hnode ▸ hx)
      · exact hn (hnode ▸ hx)
      · exact hdead (hnode ▸ hx)
    obtain ⟨l, hl, hmiss⟩ := exists_missed hdrain he hfree
    exact .inr ⟨l, hl, .inr hmiss⟩

/-- A loop back to the entry, left as soon as the argument is not null. Each round but the first tests
a null that the loop has stored. -/
def entryLoop : Method where
  className := "a/B"
  name := "m"
  descriptor := "(Ljava/lang/Object;)V"
  static := true
  code := {
    instructions := [{ offset := 0, op := ⟨42⟩ }, { offset := 1, op := ⟨199⟩, target := 9 },
      { offset := 4, op := ⟨1⟩ }, { offset := 5, op := ⟨75⟩ },
      { offset := 6, op := ⟨167⟩, target := 0 }, { offset := 9, op := ⟨177⟩ }]
    maxLocals := 1 }

theorem dead_reached_against_verdict_entryLoop :
    ∃ g r p start c links, Graph.build entryLoop = .ok g ∧
      ({} : Options).explore g (.accepting false) () = (.ok r, p) ∧
      entryLoop.startFrame = .ok start ∧
      Execution g ⟨entryLoop.code, false⟩ start c links ∧ c.node ∈ r.dead ∧
      (GivenUp g (Verdict g p.log) 0 ∨ ∃ l ∈ links, Verdict g p.log l.1.node l.2.node ∨
        Missed ⟨g, .accepting false, false⟩ {} start ⟨{}, {}, (), []⟩ l.1.node l.2.node) := by
  have h : (entryLoop.trial? {} [1, 5]).any fun t =>
      decide (t.graph.size ≤ 0x8000000000000000) && t.result.dead.contains t.config.node := by
    decide +kernel
  obtain ⟨t, ht, h⟩ := (Option.any_eq_true _ _).1 h
  simp only [Bool.and_eq_true, decide_eq_true_eq, OrderedSet.contains_iff] at h
  obtain ⟨hb, ⟨p, hx⟩, start, links, hs, he⟩ := Method.trial?_eq_some ht
  exact ⟨_, _, p, start, _, links, hb, hx, hs, he, h.2,
    dead_reached_against_verdict hb h.1 hx hs he h.2⟩

end Exploration

end BytecodeFlow
