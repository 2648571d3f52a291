import BytecodeFlow.Proofs.Exploration.Accounting
import BytecodeFlow.Proofs.Exploration.Calls
import BytecodeFlow.Proofs.Exploration.Paths

/-!
What a visitor may rely on. Over both passes it is only asked where a receiver is not null, and once it
has accepted a node, neither that node nor a copy on the same line is shown again.
-/

namespace BytecodeFlow

namespace Call

/-- The instruction that is shown dereferences nothing, or something that is not null. -/
def ReceiverNotNull (call : Call) : Prop :=
  ∀ d, Receiver.depth? call.site.instr = .ok (some d) →
    ∃ e, call.frame.stack[d]? = some e ∧ e.type ≠ .null

/-- A node with a place on the line of the node that is shown. -/
def SameLine (g : Graph) (call : Call) (i : Nat) : Prop :=
  ∃ k n, call.site.index = (k : Nat) ∧ g.nodes[k]? = some n ∧ i ∈ n.sameLine

/-- After a call that was accepted, this one is for another node, and for none on its line that is
live. -/
def Spares (g : Graph) (later earlier : Call) : Prop :=
  earlier.answer = .ok () → later.site.index ≠ earlier.site.index ∧
    ∀ i, earlier.SameLine g i → i ∉ g.dead → later.site.index ≠ i

end Call

theorem Receiver.notNull_of_type {site : Site} {f : Frame} {t : Option ValueType}
    (h : type? site f = .ok t) (answer : Except Failure Unit) :
    Call.ReceiverNotNull ⟨site, f, answer⟩ := by
  intro d hd
  simp only [type?, bind_eq_ok] at h
  obtain ⟨_, hd', h⟩ := h
  rw [hd] at hd'
  cases hd'
  cases hp : f.peek d with
  | error e => simp [hp] at h
  | ok e =>
    refine ⟨e, Frame.peek_eq_ok.1 hp, fun hn => ?_⟩
    simp [hp, hn, ValueType.isNull] at h

namespace Exploration

/-- What holds of the covered nodes and the calls of a visitor, newest first. -/
structure Contract (g : Graph) (covered : NodeSet) (calls : List Call) : Prop where
  shown : ∀ call ∈ calls, ∃ c, call.Shows g c ∧ c.node ∉ g.dead
  receiver : ∀ call ∈ calls, call.ReceiverNotNull
  once : calls.Pairwise (Call.Spares g)
  covered_iff : ∀ i, i ∈ covered ↔ i ∉ g.dead ∧ ∃ call ∈ calls, call.answer = .ok () ∧ call.SameLine g i

variable {g : Graph} {covered : NodeSet} {calls : List Call} {call : Call} {c : Config}

theorem sameLine_iff {n : Node} (hc : call.Shows g c) (hn : g.nodes[c.node]? = some n) {i : Nat} :
    call.SameLine g i ↔ i ∈ n.sameLine := by
  obtain ⟨-, n', hn', hsite⟩ := hc
  constructor
  · rintro ⟨k, n'', hk, hn'', hi⟩
    rw [hsite] at hk
    obtain rfl : c.node = k := Int.ofNat_inj.1 hk
    rw [hn] at hn''
    cases hn''
    exact hi
  · intro hi
    exact ⟨c.node, n, by rw [hsite], hn, hi⟩

namespace Contract

theorem nil (g : Graph) : Contract g ∅ [] where
  shown := by simp
  receiver := by simp
  once := .nil
  covered_iff i := by simp [OrderedSet.not_mem_empty]

/-- A node that is not covered is none that an accepted call was for, and shares no line with one. -/
theorem spares (hg : g.Wf) (h : Contract g covered calls) (hc : call.Shows g c)
    (hnot : c.node ∉ covered) : ∀ earlier ∈ calls, call.Spares g earlier := by
  obtain ⟨-, n, hn, hsite⟩ := hc
  intro earlier he hok
  have hline {i : Nat} (hi : earlier.SameLine g i) (hd : i ∉ g.dead) : call.site.index ≠ i := by
    rw [hsite]
    intro heq
    obtain rfl : c.node = i := Int.ofNat_inj.1 heq
    exact hnot ((h.covered_iff _).2 ⟨hd, earlier, he, hok, hi⟩)
  refine ⟨?_, fun i => hline⟩
  obtain ⟨c', hc', hd'⟩ := h.shown earlier he
  obtain ⟨-, n', hn', hsite'⟩ := id hc'
  rw [hsite']
  exact hline ((sameLine_iff hc' hn').2 (hg.mem_sameLine hn')) hd'

theorem cons (hg : g.Wf) (h : Contract g covered calls) (hc : call.Shows g c)
    (hlive : c.node ∉ g.dead) (hr : call.ReceiverNotNull) (hnot : c.node ∉ covered)
    {covered' : NodeSet} (hcov : ∀ i, i ∈ covered' ↔
      i ∈ covered ∨ i ∉ g.dead ∧ call.answer = .ok () ∧ call.SameLine g i) :
    Contract g covered' (call :: calls) where
  shown := List.forall_mem_cons.2 ⟨⟨c, hc, hlive⟩, h.shown⟩
  receiver := List.forall_mem_cons.2 ⟨hr, h.receiver⟩
  once := .cons (h.spares hg hc hnot) h.once
  covered_iff i := by
    rw [hcov, h.covered_iff, List.exists_mem_cons_iff, and_or_left, or_comm]

theorem decline (hg : g.Wf) (h : Contract g covered calls) (hc : call.Shows g c)
    (hlive : c.node ∉ g.dead) (hr : call.ReceiverNotNull) (hnot : c.node ∉ covered)
    (he : call.answer ≠ .ok ()) : Contract g covered (call :: calls) := by
  apply h.cons hg hc hlive hr hnot
  simp [he]

theorem accept (hg : g.Wf) (h : Contract g covered calls) (hc : call.Shows g c)
    (hlive : c.node ∉ g.dead) (hr : call.ReceiverNotNull) (hnot : c.node ∉ covered) {n : Node}
    (hn : g.nodes[c.node]? = some n) (hok : call.answer = .ok ()) :
    Contract g (covered.union (n.sameLine.diff g.dead)) (call :: calls) := by
  apply h.cons hg hc hlive hr hnot
  intro i
  rw [OrderedSet.mem_union, OrderedSet.mem_diff, sameLine_iff hc hn, and_comm]
  simp [hok]

end Contract

theorem steady_contract (hg : g.Wf) (hsize : g.size ≤ 0x8000000000000000) (o : Options)
    (answer : List Call → Site → Frame → Except Failure Unit) (cancelled : List Call → Bool)
    {start : Frame} (hs : g.method.startFrame = .ok start) :
    Steady ⟨g, .ofHistory answer cancelled, o.declaredLocals⟩ start
      fun p => Contract g p.ledger.covered p.seen := by
  apply steady_of_asked (J := Contract g)
  intro n path covered covered' calls calls' hn ha h hp
  have hlive := (ha.live hg hsize hs).node.2
  cases h with
  | unasked => exact hp
  | declined hnot hr hv =>
    rw [Visitor.visit_ofHistory_eq hv]
    exact hp.decline hg (c := path.config) ⟨rfl, n, hn, rfl⟩ hlive
      (Receiver.notNull_of_type hr _) hnot (by simp)
  | accepted hnot hr hv =>
    rw [Visitor.visit_ofHistory_eq hv]
    exact hp.accept hg (c := path.config) ⟨rfl, n, hn, rfl⟩ hlive
      (Receiver.notNull_of_type hr _) hnot hn rfl

/-- What holds of the covered nodes and the dependencies that were collected. -/
structure Collected (covered : NodeSet) (found : List Dependency) : Prop where
  once : found.Pairwise fun d e => d.node ≠ e.node
  covered : ∀ d ∈ found, ∃ i ∈ covered, d.node = (i : Nat)

namespace Collected

variable {found : List Dependency} {d : Dependency}

theorem mono (h : Collected covered found) {covered' : NodeSet} (hsub : ∀ i ∈ covered, i ∈ covered') :
    Collected covered' found where
  once := h.once
  covered := by
    intro d hd
    obtain ⟨i, hi, hdi⟩ := h.covered d hd
    exact ⟨i, hsub i hi, hdi⟩

theorem append (h : Collected covered found) {i : Nat} (hd : d.node = i) (hi : i ∉ covered)
    {covered' : NodeSet} (hsub : ∀ i ∈ covered, i ∈ covered') (hi' : i ∈ covered') :
    Collected covered' (found ++ [d]) where
  once := by
    refine List.pairwise_append.2 ⟨h.once, List.pairwise_singleton _ _, fun e he d' hd' => ?_⟩
    obtain rfl := List.mem_singleton.1 hd'
    obtain ⟨j, hj, hej⟩ := h.covered e he
    rw [hd, hej]
    intro heq
    obtain rfl : j = i := Int.ofNat_inj.1 heq
    exact hi hj
  covered := by
    intro e he
    rcases List.mem_append.1 he with he | he
    · exact (h.mono hsub).covered e he
    · obtain rfl := List.mem_singleton.1 he
      exact ⟨i, hi', hd⟩

theorem sorted_eq (h : Collected covered found) :
    Dependency.sorted found = found.mergeSort fun d e => d.node ≤ e.node := by
  refine Dependency.sorted_eq fun d hd => ?_
  obtain ⟨i, -, hi⟩ := h.covered d hd
  rw [hi]
  exact Int.natCast_nonneg i

/-- Since no node occurs twice, the order by node is strict. -/
theorem increasing (h : Collected covered found) :
    (Dependency.sorted found).Pairwise fun d e => d.node < e.node := by
  rw [h.sorted_eq]
  have hle : (found.mergeSort fun d e => d.node ≤ e.node).Pairwise fun d e =>
      decide (d.node ≤ e.node) := by
    apply List.pairwise_mergeSort
    · intro a b c
      simp only [decide_eq_true_eq]
      omega
    · intro a b
      simp only [Bool.or_eq_true, decide_eq_true_eq]
      omega
  have hne := (List.mergeSort_perm found fun d e => decide (d.node ≤ e.node)).pairwise_iff
    (R := fun d e : Dependency => d.node ≠ e.node) Ne.symm |>.2 h.once
  refine (hle.and hne).imp fun {d e} hde => ?_
  have hle := of_decide_eq_true hde.1
  have hne := hde.2
  omega

theorem covered_of_sorted (h : Collected covered found) :
    ∀ d ∈ Dependency.sorted found, ∃ i ∈ covered, d.node = (i : Nat) := by
  rw [h.sorted_eq]
  intro d hd
  exact h.covered d (List.mem_mergeSort.1 hd)

end Collected

theorem steady_collected (hg : g.Wf) (hsize : g.size ≤ 0x8000000000000000) (o : Options) (stop : Bool)
    {start : Frame} (hs : g.method.startFrame = .ok start) :
    Steady ⟨g, .collector stop, o.declaredLocals⟩ start
      fun p => Collected p.ledger.covered p.seen := by
  apply steady_of_asked (J := Collected)
  intro n path covered covered' found found' hn ha h hp
  cases h with
  | unasked => exact hp
  | declined _ _ hv =>
    rw [Visitor.visit_collector_error hv]
    exact hp
  | accepted hnot _ hv =>
    have hsub : ∀ i ∈ covered, i ∈ covered.union (n.sameLine.diff g.dead) :=
      fun i hi => OrderedSet.mem_union.2 (.inl hi)
    obtain ⟨d?, hd, rfl⟩ := Visitor.visit_collector_ok hv
    cases d? with
    | none =>
      rw [Option.toList_none, List.append_nil]
      exact hp.mono hsub
    | some d =>
      refine hp.append (Dependency.node_of_ofSite? hd) hnot hsub (OrderedSet.mem_union.2 (.inr ?_))
      exact OrderedSet.mem_diff.2 ⟨hg.mem_sameLine hn, (ha.live hg hsize hs).node.2⟩

/-- The contract of a visitor, which may answer by all its calls so far. It is not asked where the
receiver is null, and after it has accepted a node it is not asked again for that node or a live one on
the same line. The covered nodes are those it accepted with the live ones on the same line. So a
collector reports each node once, in increasing order. -/
theorem visitor_contract {m : Method} {g : Graph} (hb : Graph.build m = .ok g)
    (hsize : g.size ≤ 0x8000000000000000) (o : Options)
    (answer : List Call → Site → Frame → Except Failure Unit) (cancelled : List Call → Bool)
    (stop : Bool) :
    (∀ call ∈ (o.explore g (.ofHistory answer cancelled) []).2.seen,
      (∃ c, call.Shows g c) ∧ call.ReceiverNotNull) ∧
    (o.explore g (.ofHistory answer cancelled) []).2.seen.Pairwise (Call.Spares g) ∧
    (∀ r p, o.explore g (.ofHistory answer cancelled) [] = (.ok r, p) →
      ∀ i, i ∈ r.covered ↔
        i ∉ g.dead ∧ ∃ call ∈ p.seen, call.answer = .ok () ∧ call.SameLine g i) ∧
    ∀ r p, o.explore g (.collector stop) [] = (.ok r, p) →
      ((Visitor.collector stop).dependencies p.seen).Pairwise (fun d e => d.node < e.node) ∧
        ∀ d ∈ (Visitor.collector stop).dependencies p.seen, ∃ i ∈ r.covered, d.node = (i : Nat) := by
  have hg := Graph.wf_of_build hb
  have hc := steady_explore (fun start hs => steady_contract hg hsize o answer cancelled hs)
    (explore_leaves o g _ []) (.nil g)
  refine ⟨fun call hcall => ⟨?_, hc.receiver call hcall⟩, hc.once, ?_, ?_⟩
  · obtain ⟨c, hshows, -⟩ := hc.shown call hcall
    exact ⟨c, hshows⟩
  · intro r p h
    rw [h] at hc
    obtain ⟨-, -, -, rfl⟩ := explore_eq_ok h
    exact hc.covered_iff
  · intro r p h
    have hd := steady_explore (fun start hs => steady_collected hg hsize o stop hs)
      (explore_leaves o g _ []) ⟨.nil, by simp⟩
    rw [h] at hd
    obtain ⟨-, -, -, rfl⟩ := explore_eq_ok h
    exact ⟨hd.increasing, hd.covered_of_sorted⟩

/-- Declines node 1 when it is first shown. -/
def hesitant (calls : List Call) (site : Site) (_ : Frame) : Except Failure Unit :=
  if site.index = 1 ∧ calls.all (·.site.index ≠ 1) then .error (.nullReceiver 1 0) else .ok ()

theorem visitor_contract_hesitant : ∃ g, Graph.build rescued = .ok g ∧
    (∃ call ∈ (({} : Options).explore g (.ofHistory hesitant fun _ => false) []).2.seen,
      call.site.index = 1 ∧ call.answer.isOk = false ∧ call.ReceiverNotNull) ∧
    (({} : Options).explore g (.ofHistory hesitant fun _ => false) []).2.seen.Pairwise
      (Call.Spares g) ∧
    (∃ r p, ({} : Options).explore g (.ofHistory hesitant fun _ => false) [] = (.ok r, p) ∧
      1 ∈ r.covered ∧ ∃ call ∈ p.seen, call.answer = .ok () ∧ call.SameLine g 1) ∧
    ∃ r p, ({} : Options).explore g (.collector false) [] = (.ok r, p) ∧
      p.seen.length = 1 ∧ ∀ d ∈ Dependency.sorted p.seen, ∃ i ∈ r.covered, d.node = (i : Nat) := by
  have h : rescued.opened?.any fun (g, _) =>
      decide (g.size ≤ 0x8000000000000000) &&
        ((({} : Options).explore g (.ofHistory hesitant fun _ => false) []).2.seen.any fun call =>
          call.site.index == 1 && !call.answer.isOk) &&
        ((({} : Options).explore g (.ofHistory hesitant fun _ => false) []).1.toOption.any
          (·.covered.contains 1)) &&
        (({} : Options).explore g (.collector false) []).1.toOption.isSome &&
        (({} : Options).explore g (.collector false) []).2.seen.length == 1 := by
    decide +kernel
  obtain ⟨⟨g, start⟩, ho, h⟩ := (Option.any_eq_true _ _).1 h
  simp only [Bool.and_eq_true, decide_eq_true_eq, List.any_eq_true, Option.any_eq_true,
    Option.isSome_iff_exists, toOption_eq_some, OrderedSet.contains_iff, beq_iff_eq,
    Bool.not_eq_true'] at h
  obtain ⟨⟨⟨⟨hsize, call, hcall, hi, ha⟩, r, hr, hr'⟩, rc, hrc⟩, hlen⟩ := h
  obtain ⟨hb, -⟩ := Method.opened?_eq_some ho
  have hall := visitor_contract hb hsize {} hesitant (fun _ => false) false
  have hx : ({} : Options).explore g (.ofHistory hesitant fun _ => false) [] = (.ok r, _) :=
    Prod.ext hr rfl
  exact ⟨g, hb, ⟨call, hcall, hi, ha, (hall.1 call hcall).2⟩, hall.2.1,
    ⟨r, _, hx, hr', ((hall.2.2.1 r _ hx 1).1 hr').2⟩,
    rc, _, Prod.ext hrc rfl, hlen, (hall.2.2.2 rc _ (Prod.ext hrc rfl)).2⟩

end Exploration

end BytecodeFlow
