import BytecodeFlow.Proofs.Exploration.Turn
import BytecodeFlow.Proofs.History
import Mathlib.Data.List.Perm.Basic

/-!
A pass that ends because no path is left has taken up everything that its turns led to. An edge is
dropped only if something is recorded at its target, and nothing is recorded at a node that has not
been queued.
-/

namespace BytecodeFlow.Exploration

open History

/-- What one turn conserves: paths that wait go on waiting, and a node that the turn leads to, or at
which something is recorded, is known from before, the current one, or waits. -/
structure Conserves (s : Setting σ) (current : Path) (waiting : List Path) (known : Nat → Prop)
    (p : Progress σ) (waiting' : List Path) (known' : Nat → Prop) : Prop where
  kept : ∀ w ∈ waiting, w ∈ waiting'
  led : ∀ t, Leads s current p t → known t ∨ t = current.node ∨ ∃ w ∈ waiting', w.node = t
  learnt : ∀ m, known' m → known m ∨ m = current.node ∨ ∃ w ∈ waiting', w.node = m

/-- What is seen of a pass: the path at work, those that wait, and the nodes at which something is
recorded. -/
structure View (S : Type) where
  current : S → Path
  waiting : S → List Path
  known : S → Nat → Prop

/-- A pass whose turns conserve what is seen of it, in states of which `inv` holds. -/
structure View.Conserved {S : Type} (v : View S) (s : Setting σ) (turn : S → Run σ (Option S))
    (inv : S → Prop) : Prop where
  some : ∀ {st st' p p'}, inv st → turn st p = .ok (some st') p' → inv st' ∧
    Conserves s (v.current st) (v.waiting st) (v.known st) p (v.current st' :: v.waiting st')
      (v.known st')
  none : ∀ {st p p'}, inv st → turn st p = .ok none p' →
    Conserves s (v.current st) (v.waiting st) (v.known st) p [] fun _ => False

section Drained

variable {S : Type} {v : View S} {s : Setting σ} {exit? : Progress σ → Option Exit}
  {turn : S → Run σ (Option S)} {inv : S → Prop} {st : S} {p p' : Progress σ}
  {turns : List (S × Progress σ)}

theorem View.Conserved.takes_up (hv : v.Conserved s turn inv)
    (h : Turns exit? turn st p turns .drained p') (hst : inv st) :
    ∀ w ∈ v.current st :: v.waiting st, ∃ x ∈ turns, v.current x.1 = w := by
  generalize he : Exit.drained = e at h
  induction h with
  | stop _ hd => exact absurd he.symm hd
  | drain _ ht =>
    have hc := (hv.none hst ht).kept
    intro w hw
    rcases List.mem_cons.1 hw with rfl | hw
    · exact ⟨_, List.mem_cons_self, rfl⟩
    · simpa using hc w hw
  | turn _ ht _ ih =>
    obtain ⟨hst', hc⟩ := hv.some hst ht
    intro w hw
    rcases List.mem_cons.1 hw with rfl | hw
    · exact ⟨_, List.mem_cons_self, rfl⟩
    · obtain ⟨x, hx, hw⟩ := ih hst' he w (hc.kept w hw)
      exact ⟨x, List.mem_cons_of_mem _ hx, hw⟩

theorem View.Conserved.takes_up_after (hv : v.Conserved s turn inv)
    (h : Turns exit? turn st p turns .drained p') (hst : inv st) :
    ∀ x ∈ turns, inv x.1 ∧ ∀ st' q, turn x.1 x.2 = .ok (.some st') q →
      ∀ w ∈ v.current st' :: v.waiting st', ∃ y ∈ turns, v.current y.1 = w := by
  generalize he : Exit.drained = e at h
  induction h with
  | stop _ hd => exact absurd he.symm hd
  | drain _ ht =>
    intro x hx
    rw [List.mem_singleton.1 hx]
    refine ⟨hst, fun st' q hq => ?_⟩
    rw [ht] at hq
    cases hq
  | turn _ ht hs ih =>
    obtain ⟨hst', -⟩ := hv.some hst ht
    subst he
    intro x hx
    rcases List.mem_cons.1 hx with rfl | hx
    · refine ⟨hst, fun st' q hq w hw => ?_⟩
      rw [ht] at hq
      cases hq
      obtain ⟨y, hy, hw⟩ := hv.takes_up hs hst' w hw
      exact ⟨y, List.mem_cons_of_mem _ hy, hw⟩
    · obtain ⟨hx, hw⟩ := ih hst' rfl x hx
      refine ⟨hx, fun st' q hq w hm => ?_⟩
      obtain ⟨y, hy, hw⟩ := hw st' q hq w hm
      exact ⟨y, List.mem_cons_of_mem _ hy, hw⟩

/-- What the turns lead to is taken up, or was known at first without waiting. The induction carries
the nodes `before` that were taken up by earlier turns. -/
theorem View.Conserved.takes_up_led (hv : v.Conserved s turn inv)
    (h : Turns exit? turn st p turns .drained p') (hst : inv st) {before : Nat → Prop}
    (hk : ∀ m, v.known st m →
      before m ∨ m = (v.current st).node ∨ ∃ w ∈ v.waiting st, w.node = m) :
    ∀ x ∈ turns, ∀ t, Leads s (v.current x.1) x.2 t →
      before t ∨ ∃ y ∈ turns, (v.current y.1).node = t := by
  generalize he : Exit.drained = e at h
  induction h generalizing before with
  | stop _ hd => exact absurd he.symm hd
  | @drain st p p' _ ht =>
    have hc := hv.none hst ht
    have hw : ∀ w, w ∉ v.waiting st := fun w hw => by simpa using hc.kept w hw
    intro x hx t hl
    rw [List.mem_singleton.1 hx] at hl
    rcases hc.led t hl with ht | rfl | ⟨w, hw, -⟩
    · rcases hk t ht with hb | rfl | ⟨w, hm, -⟩
      · exact .inl hb
      · exact .inr ⟨_, List.mem_cons_self, rfl⟩
      · exact absurd hm (hw w)
    · exact .inr ⟨_, List.mem_cons_self, rfl⟩
    · simp at hw
  | @turn st st' p q p' turns e _ ht hs ih =>
    obtain ⟨hst', hc⟩ := hv.some hst ht
    subst he
    have taken := hv.takes_up hs hst'
    -- a node known before the turn has been taken up earlier, is taken up now, or waits still
    have known : ∀ m, v.known st m → (before m ∨ m = (v.current st).node) ∨
        ∃ y ∈ turns, (v.current y.1).node = m := by
      intro m hm
      rcases hk m hm with hb | hb | ⟨w, hw, rfl⟩
      · exact .inl (.inl hb)
      · exact .inl (.inr hb)
      · obtain ⟨y, hy, rfl⟩ := taken w (hc.kept w hw)
        exact .inr ⟨y, hy, rfl⟩
    intro x hx t hl
    rcases List.mem_cons.1 hx with rfl | hx
    · rcases hc.led t hl with ht | rfl | ⟨w, hw, rfl⟩
      · rcases known t ht with (hb | rfl) | ⟨y, hy, rfl⟩
        · exact .inl hb
        · exact .inr ⟨_, List.mem_cons_self, rfl⟩
        · exact .inr ⟨y, List.mem_cons_of_mem _ hy, rfl⟩
      · exact .inr ⟨_, List.mem_cons_self, rfl⟩
      · obtain ⟨y, hy, rfl⟩ := taken w hw
        exact .inr ⟨y, List.mem_cons_of_mem _ hy, rfl⟩
    · have hk' : ∀ m, v.known st' m →
          ((before m ∨ m = (v.current st).node) ∨ ∃ y ∈ turns, (v.current y.1).node = m) ∨
            m = (v.current st').node ∨ ∃ w ∈ v.waiting st', w.node = m := by
        intro m hm
        rcases hc.learnt m hm with hm | hm | ⟨w, hw, rfl⟩
        · exact .inl (known m hm)
        · exact .inl (.inl (.inr hm))
        · rcases List.mem_cons.1 hw with rfl | hw
          · exact .inr (.inl rfl)
          · exact .inr (.inr ⟨w, hw, rfl⟩)
      rcases ih hst' hk' rfl x hx t hl with ((hb | rfl) | ⟨y, hy, rfl⟩) | ⟨y, hy, rfl⟩
      · exact .inl hb
      · exact .inr ⟨_, List.mem_cons_self, rfl⟩
      · exact .inr ⟨y, List.mem_cons_of_mem _ hy, rfl⟩
      · exact .inr ⟨y, List.mem_cons_of_mem _ hy, rfl⟩

end Drained

theorem Knows.enter {h : History Nat} {m : Nat} (hk : Knows h m) (entry thrower : Nat) :
    Knows (enter h entry thrower).2 m := by
  obtain ⟨x, hx⟩ := hk
  exact ⟨x, mem_seenAt_enter.2 (.inl hx)⟩

theorem knows_copy {h : History Nat} {m : Nat} : Knows h.copy m ↔ Knows h m := by
  simp [Knows]

theorem knows_enter {h : History Nat} {entry thrower m : Nat}
    (hk : Knows (enter h entry thrower).2 m) : Knows h m ∨ m = entry := by
  obtain ⟨x, hx⟩ := hk
  rcases mem_seenAt_enter.1 hx with hx | ⟨rfl, -⟩
  · exact .inl ⟨x, hx⟩
  · exact .inr rfl

theorem knows_of_enter_eq_false {h : History Nat} {entry thrower : Nat}
    (hf : (enter h entry thrower).1 = false) : Knows h entry :=
  (refuses_of_enter hf).knows

theorem knows_addAll {h : History Nat} {node source m : Nat}
    (hk : Knows (h.addAll node source).2 m) : Knows h m ∨ m = node := by
  obtain ⟨x, hx⟩ := hk
  rcases mem_seenAt_addAll.1 hx with hx | ⟨rfl, -⟩
  · exact .inl ⟨x, hx⟩
  · exact .inr rfl

theorem knows_of_addAll_eq_false {h : History Nat} {node source : Nat} (hs : Knows h source)
    (hf : (h.addAll node source).1 = false) : Knows h node := by
  obtain ⟨x, hx⟩ := hs
  exact ⟨x, addAll_fst_eq_false.1 hf x hx⟩

theorem knows_add {h : History Nat} {node m : Nat} (hk : Knows (h.add node node).2 m) :
    Knows h m ∨ m = node := by
  obtain ⟨x, hx⟩ := hk
  rcases mem_seenAt_add.1 hx with hx | ⟨rfl, -⟩
  · exact .inl ⟨x, hx⟩
  · exact .inr rfl

theorem knows_add_self {h : History Nat} {node : Nat} (hn : node < h.size) :
    Knows (h.add node node).2 node :=
  ⟨node, mem_seenAt_add.2 (.inr ⟨rfl, hn, rfl⟩)⟩

namespace Fast

/-- What is queued for a list of nodes: paths that wait go on waiting, and each of the nodes waits
unless something was recorded there. -/
structure Queued (nodes : List Nat) (waiting : List Path) (h : History Nat)
    (r : List Path × History Nat) : Prop where
  kept : ∀ w ∈ waiting, w ∈ r.1
  size : r.2.size = h.size
  grown : ∀ m, Knows h m → Knows r.2 m
  learnt : ∀ m, Knows r.2 m → Knows h m ∨ ∃ w ∈ r.1, w.node = m
  queued : ∀ t ∈ nodes, Knows h t ∨ ∃ w ∈ r.1, w.node = t

theorem queued_entering (path : Path) (hds : List Handler) (waiting : List Path)
    (h : History Nat) :
    Queued (hds.map Handler.entry) waiting h (entering path hds waiting h) := by
  induction hds generalizing waiting h with
  | nil => exact ⟨fun w hw => hw, rfl, fun m hm => hm, fun m hm => .inl hm, by simp⟩
  | cons hd rest ih =>
    rw [entering]
    cases he : enter h hd.entry path.node with
    | mk grew h' =>
      have he' : (enter h hd.entry path.node).2 = h' := by rw [he]
      have hs : h'.size = h.size := by rw [← he', size_enter]
      have hl : ∀ m, Knows h' m → Knows h m ∨ m = hd.entry := by
        intro m hm
        rw [← he'] at hm
        exact knows_enter hm
      have hg : ∀ m, Knows h m → Knows h' m := by
        intro m hm
        rw [← he']
        exact hm.enter hd.entry path.node
      cases grew with
      | true =>
        have hr := ih (waiting ++ [path.handled hd]) h'
        have hw : ∃ w ∈ (entering path rest (waiting ++ [path.handled hd]) h').1,
            w.node = hd.entry := ⟨path.handled hd, hr.kept _ (by simp), rfl⟩
        refine ⟨fun w hw => hr.kept w (by simp [hw]), hr.size.trans hs,
          fun m hm => hr.grown m (hg m hm), fun m hm => ?_, fun t ht => ?_⟩
        · rcases hr.learnt m hm with hm | hm
          · rcases hl m hm with hm | rfl
            · exact .inl hm
            · exact .inr hw
          · exact .inr hm
        · rcases List.mem_cons.1 ht with rfl | ht
          · exact .inr hw
          · rcases hr.queued t ht with hm | hm
            · rcases hl t hm with hm | rfl
              · exact .inl hm
              · exact .inr hw
            · exact .inr hm
      | false =>
        have hr := ih waiting h'
        have hf : (enter h hd.entry path.node).1 = false := by rw [he]
        have hk : Knows h hd.entry := knows_of_enter_eq_false hf
        have hl' : ∀ m, Knows h' m → Knows h m := by
          intro m hm
          rcases hl m hm with hm | rfl
          · exact hm
          · exact hk
        refine ⟨hr.kept, hr.size.trans hs, fun m hm => hr.grown m (hg m hm),
          fun m hm => (hr.learnt m hm).imp_left (hl' m), fun t ht => ?_⟩
        rcases List.mem_cons.1 ht with rfl | ht
        · exact .inl hk
        · exact (hr.queued t ht).imp_left (hl' t)

theorem queued_targets (source : Nat) (frame : Frame) (trace : Trace) (targets : List Nat)
    (waiting : List Path) (h : History Nat) (hs : Knows h source) :
    Queued targets waiting h (queueTargets source frame trace targets waiting h) := by
  induction targets with
  | nil => exact ⟨fun w hw => hw, rfl, fun m hm => hm, fun m hm => .inl hm, by simp⟩
  | cons t ts ih =>
    rw [queueTargets, List.foldr_cons, ← queueTargets]
    cases hr : queueTargets source frame trace ts waiting h with
    | mk waiting' h' =>
      rw [hr] at ih
      have hs' : Knows h' source := ih.grown source hs
      cases ha : h'.addAll t source with
      | mk grew h'' =>
        have ha' : (h'.addAll t source).2 = h'' := by rw [ha]
        have size : h''.size = h.size := by rw [← ha', size_addAll, ih.size]
        have grown : ∀ m, Knows h m → Knows h'' m := by
          intro m hm
          obtain ⟨x, hx⟩ := ih.grown m hm
          rw [← ha']
          exact ⟨x, mem_seenAt_addAll.2 (.inl hx)⟩
        have learnt : ∀ m, Knows h'' m → Knows h' m ∨ m = t := by
          intro m hm
          rw [← ha'] at hm
          exact knows_addAll hm
        simp only [ha]
        cases grew with
        | true =>
          have hw : ∀ m, (Knows h m ∨ ∃ w ∈ waiting', w.node = m) →
              Knows h m ∨ ∃ w ∈ (⟨t, frame, trace⟩ : Path) :: waiting', w.node = m := by
            rintro m (hm | ⟨w, hw, hm⟩)
            · exact .inl hm
            · exact .inr ⟨w, List.mem_cons_of_mem _ hw, hm⟩
          have ht : ∃ w ∈ (⟨t, frame, trace⟩ : Path) :: waiting', w.node = t :=
            ⟨_, List.mem_cons_self, rfl⟩
          refine ⟨fun w hw => List.mem_cons_of_mem _ (ih.kept w hw), size, grown, fun m hm => ?_,
            fun u hu => ?_⟩
          · rcases learnt m hm with hm | rfl
            · exact hw m (ih.learnt m hm)
            · exact .inr ht
          · rcases List.mem_cons.1 hu with rfl | hu
            · exact .inr ht
            · exact hw u (ih.queued u hu)
        | false =>
          have hk : Knows h' t := knows_of_addAll_eq_false hs' (by rw [ha])
          refine ⟨ih.kept, size, grown, fun m hm => ?_, fun u hu => ?_⟩
          · rcases learnt m hm with hm | rfl
            · exact ih.learnt m hm
            · exact ih.learnt m hk
          · rcases List.mem_cons.1 hu with rfl | hu
            · exact ih.learnt u hk
            · exact ih.queued u hu

def view : View State where
  current st := st.current
  waiting st := st.waiting
  known st m := Knows st.history m

theorem conserves_onward {s : Setting σ} {st : State} {p q : Progress σ} {n : Node} {out : Step}
    {r : List Path × History Nat} (hn : s.graph.nodes[st.current.node]? = some n)
    (hs : step s n st.current p = .ok out q) (hsize : st.history.size = s.graph.size)
    (hr : onward st.current out (entering st.current (handlersOf n) st.waiting st.history) = r) :
    r.2.size = s.graph.size ∧
      Conserves s st.current st.waiting (Knows st.history) p r.1 (Knows r.2) := by
  have he := queued_entering st.current (handlersOf n) st.waiting st.history
  cases hq : entering st.current (handlersOf n) st.waiting st.history with
  | mk waiting h =>
    rw [hq] at he hr
    have hnode : st.current.node < h.size := by
      rw [he.size, hsize]
      exact (Array.getElem?_eq_some_iff.1 hn).1
    cases out with
    | cut proven =>
      subst hr
      refine ⟨he.size.trans hsize, he.kept, fun t ht => ?_, fun m hm => ?_⟩
      · rcases ht.of_step hn hs with ⟨hd, hh, rfl⟩ | ⟨_, _, _, _, ho, -⟩
        · exact (he.queued _ (List.mem_map_of_mem hh)).imp_right .inr
        · cases ho
      · exact (he.learnt m hm).imp_right .inr
    | advance targets frame trace unproven =>
      have ht := queued_targets st.current.node frame trace targets waiting
        (h.add st.current.node st.current.node).2 (knows_add_self hnode)
      rw [onward] at hr
      rw [hr] at ht
      -- a node at which something is recorded once the handlers are queued was known before, is
      -- the current one, or waits from now on
      have hw : ∀ m, Knows (h.add st.current.node st.current.node).2 m →
          Knows st.history m ∨ m = st.current.node ∨ ∃ w ∈ r.1, w.node = m := by
        intro m hm
        rcases knows_add hm with hm | rfl
        · rcases he.learnt m hm with hm | ⟨w, hw, hm⟩
          · exact .inl hm
          · exact .inr (.inr ⟨w, ht.kept w hw, hm⟩)
        · exact .inr (.inl rfl)
      refine ⟨?_, fun w hw => ht.kept w (he.kept w hw), fun t hl => ?_, fun m hm => ?_⟩
      · rw [ht.size, size_add, he.size, hsize]
      · rcases hl.of_step hn hs with ⟨hd, hh, rfl⟩ | ⟨_, _, _, _, ho, htt⟩
        · rcases he.queued _ (List.mem_map_of_mem hh) with hm | ⟨w, hw, hm⟩
          · exact .inl hm
          · exact .inr (.inr ⟨w, ht.kept w hw, hm⟩)
        · cases ho
          rcases ht.queued _ htt with hm | hm
          · exact hw _ hm
          · exact .inr (.inr hm)
      · rcases ht.learnt m hm with hm | hm
        · exact hw m hm
        · exact .inr (.inr hm)

theorem conserved_turn (s : Setting σ) :
    view.Conserved s (turn s) fun st => st.history.size = s.graph.size where
  some := by
    intro st st' p p' hsize h
    obtain ⟨n, out, q, hn, hs, -, hr⟩ := turn_ok h
    generalize ho : onward st.current out (entering st.current (handlersOf n) st.waiting st.history)
      = r at hr
    have hc := conserves_onward hn hs hsize ho
    match r, hr with
    | (_ :: _, _), rfl => exact hc
  none := by
    intro st p p' hsize h
    obtain ⟨n, out, q, hn, hs, -, hr⟩ := turn_ok h
    generalize ho : onward st.current out (entering st.current (handlersOf n) st.waiting st.history)
      = r at hr
    have hc := (conserves_onward hn hs hsize ho).2
    match r, hr with
    | ([], _), _ => exact ⟨hc.kept, hc.led, nofun⟩

theorem takes_up_led {s : Setting σ} {start : Frame} {p p' : Progress σ}
    {turns : List (State × Progress σ)} (h : Pass s start p turns .drained p') :
    ∀ x ∈ turns, ∀ t, Leads s x.1.current x.2 t → ∃ y ∈ turns, y.1.current.node = t := by
  have hk : ∀ m, view.known (initial s start) m → False ∨ m = (initial s start).current.node ∨
      ∃ w ∈ (initial s start).waiting, w.node = m := by
    rintro m ⟨x, hx⟩
    exact (not_mem_seenAt_empty hx).elim
  intro x hx t ht
  exact ((conserved_turn s).takes_up_led h (size_empty _) hk x hx t ht).resolve_left id

end Fast

namespace Exhaustive

theorem mem_queueLast {waiting ts : List Thread} {u : Thread} :
    u ∈ queueLast waiting ts ↔ u ∈ waiting ∨ u ∈ ts := by
  cases ts <;> simp [queueLast]

@[simp] theorem Thread.history_of (path : Path) (h : History Nat) : (Thread.of path h).history = h :=
  rfl

theorem mem_handlerThreads {t u : Thread} {hds : List Handler} :
    u ∈ handlerThreads t hds ↔ ∃ hd ∈ hds, (enter t.history.copy hd.entry t.path.node).1 = true ∧
      u = .of (t.path.handled hd) (enter t.history.copy hd.entry t.path.node).2 := by
  rw [handlerThreads, List.mem_filterMap]
  refine exists_congr fun hd => and_congr_right fun _ => ?_
  cases enter t.history.copy hd.entry t.path.node with
  | mk grew h => cases grew <;> simp [eq_comm]

theorem branch_eq_some {source target : Nat} {frame : Frame} {trace : Trace} {h : History Nat}
    {u : Thread} : branch source frame trace h target = some u ↔
      (h.addAll target source).1 = true ∧
        u = .of ⟨target, frame, trace⟩ (h.addAll target source).2 := by
  rw [branch]
  cases h.addAll target source with
  | mk grew h => cases grew <;> simp [eq_comm]

theorem addAll_copy_fst (h : History Nat) (node source : Nat) :
    (h.copy.addAll node source).1 = (h.addAll node source).1 := by
  simp only [addAll, unite, seenAt_copy]
  by_cases hs : (h.seenAt source).subset (h.seenAt node) <;> simp [hs]

/-- The threads of successors are those of targets that add to the history. -/
theorem mem_branches {source : Nat} {frame : Frame} {trace : Trace} {h : History Nat}
    {targets : List Nat} {u : Thread} (hu : u ∈ branches source frame trace h targets) :
    ∃ t ∈ targets, ∃ h', (h' = h ∨ h' = h.copy) ∧
      u = .of ⟨t, frame, trace⟩ (h'.addAll t source).2 := by
  cases targets with
  | nil => simp [branches] at hu
  | cons t ts =>
    simp only [branches, List.mem_append, Option.mem_toList, List.mem_filterMap] at hu
    rcases hu with hu | ⟨t', ht, hu⟩
    · exact ⟨t, List.mem_cons_self, h, .inl rfl, (branch_eq_some.1 hu).2⟩
    · exact ⟨t', List.mem_cons_of_mem _ ht, h.copy, .inr rfl, (branch_eq_some.1 hu).2⟩

theorem exists_mem_branches {source : Nat} {frame : Frame} {trace : Trace} {h : History Nat}
    {targets : List Nat} {t : Nat} (ht : t ∈ targets) (hg : (h.addAll t source).1 = true) :
    ∃ u ∈ branches source frame trace h targets, u.path = ⟨t, frame, trace⟩ := by
  cases targets with
  | nil => simp at ht
  | cons t' ts =>
    simp only [branches, List.mem_append, Option.mem_toList, List.mem_filterMap]
    rcases List.mem_cons.1 ht with rfl | ht
    · exact ⟨_, .inl (branch_eq_some.2 ⟨hg, rfl⟩), rfl⟩
    · rw [← addAll_copy_fst] at hg
      exact ⟨_, .inr ⟨t, ht, branch_eq_some.2 ⟨hg, rfl⟩⟩, rfl⟩

/-- Resuming takes one of the threads that wait and leaves the others. Its history may grow by that of
the thread that ended. -/
theorem resume_perm {covered : NodeSet} {waiting : List Thread} {e : Option (History Nat)}
    {st : State} (h : resume covered waiting e = some st) :
    ∃ t, (t :: st.waiting).Perm waiting ∧ st.current.path = t.path ∧
      (st.current.history = t.history ∨ ∃ h ∈ e, st.current.history = t.history.merge h) := by
  match e, waiting, h with
  | some h, t :: rest, rfl => exact ⟨t, .refl _, rfl, .inr ⟨h, rfl, rfl⟩⟩
  | none, t :: rest, h =>
    simp only [resume, Option.map_eq_some_iff] at h
    obtain ⟨u, hu, rfl⟩ := h
    obtain ⟨hlt, rfl⟩ := List.getElem?_eq_some_iff.1 hu
    exact ⟨_, List.getElem_cons_eraseIdx_perm hlt, rfl, .inl rfl⟩

theorem resume_eq_some {covered : NodeSet} {waiting : List Thread} {e : Option (History Nat)}
    {st : State} (h : resume covered waiting e = some st) :
    ∃ t ∈ waiting, st.current.path = t.path ∧
      (st.current.history = t.history ∨ ∃ h ∈ e, st.current.history = t.history.merge h) ∧
      (∀ u ∈ st.waiting, u ∈ waiting) ∧ ∀ u ∈ waiting, u = t ∨ u ∈ st.waiting := by
  obtain ⟨t, hperm, hpath, hist⟩ := resume_perm h
  refine ⟨t, hperm.mem_iff.1 List.mem_cons_self, hpath, hist, ?_, ?_⟩
  · intro u hu
    exact hperm.mem_iff.1 (List.mem_cons_of_mem _ hu)
  · intro u hu
    exact List.mem_cons.1 (hperm.mem_iff.2 hu)

def view : View State where
  current st := st.current.path
  waiting st := st.waiting.map Thread.path
  known st m := Knows st.current.history m ∨ ∃ t ∈ st.waiting, Knows t.history m

theorem waits_of_resume {covered : NodeSet} {threads : List Thread} {e : Option (History Nat)}
    {st : State} (h : resume covered threads e = some st) {u : Thread} (hu : u ∈ threads) :
    u.path ∈ view.current st :: view.waiting st := by
  obtain ⟨t, -, hpath, -, -, hall⟩ := resume_eq_some h
  rcases hall u hu with rfl | hu
  · exact List.mem_cons.2 (.inl hpath.symm)
  · exact List.mem_cons_of_mem _ (List.mem_map_of_mem hu)

/-- Each history of a state has a set for each node of a graph. -/
def Sized (size : Nat) (st : State) : Prop :=
  st.current.history.size = size ∧ ∀ t ∈ st.waiting, t.history.size = size

@[simp] theorem seenAt_markIf (b : Bool) (h : History Nat) (m : Nat) :
    (markIf b h).seenAt m = h.seenAt m := by
  cases b <;> rfl

@[simp] theorem size_markIf (b : Bool) (h : History Nat) : (markIf b h).size = h.size := by
  cases b <;> rfl

theorem knows_handlerThread {t u : Thread} {hds : List Handler} (hu : u ∈ handlerThreads t hds) :
    u.history.size = t.history.size ∧
      ∀ m, Knows u.history m → Knows t.history m ∨ m = u.path.node := by
  obtain ⟨hd, -, -, rfl⟩ := mem_handlerThreads.1 hu
  simp only [Thread.history_of]
  refine ⟨(size_enter _ _ _).trans (size_copy _), fun m hm => ?_⟩
  rcases knows_enter hm with hm | hm
  · exact .inl (knows_copy.1 hm)
  · exact .inr hm

theorem exists_handlerThread {t : Thread} {hds : List Handler} {hd : Handler} (hh : hd ∈ hds) :
    Refuses t.history t.path.node hd.entry ∨
      ∃ u ∈ handlerThreads t hds, u.path = t.path.handled hd := by
  cases he : (enter t.history.copy hd.entry t.path.node).1 with
  | true => exact .inr ⟨_, mem_handlerThreads.2 ⟨hd, hh, he, rfl⟩, rfl⟩
  | false => exact .inl (by simpa [Refuses] using refuses_of_enter he)

theorem knows_onward_snd {t : Thread} {out : Step} :
    (onward t out).2.size = t.history.size ∧
      ∀ m, Knows (onward t out).2 m → Knows t.history m ∨ m = t.path.node := by
  cases out with
  | cut proven =>
    refine ⟨by simp [onward], fun m hm => .inl ?_⟩
    simpa [onward, Knows] using hm
  | advance targets frame trace unproven =>
    refine ⟨by simp [onward], fun m hm => knows_add ?_⟩
    simpa [onward, Knows] using hm

theorem knows_onward_fst {t u : Thread} {out : Step} (hu : u ∈ (onward t out).1) :
    u.history.size = t.history.size ∧
      ∀ m, Knows u.history m → Knows t.history m ∨ m = t.path.node ∨ m = u.path.node := by
  cases out with
  | cut proven => simp [onward] at hu
  | advance targets frame trace unproven =>
    obtain ⟨hsize, hl⟩ := @knows_onward_snd t (.advance targets frame trace unproven)
    obtain ⟨t', -, h', hh, rfl⟩ := mem_branches hu
    have hs : h'.size = t.history.size ∧ ∀ m, Knows h' m → Knows t.history m ∨ m = t.path.node := by
      rcases hh with rfl | rfl
      · exact ⟨hsize, hl⟩
      · exact ⟨(size_copy _).trans hsize, fun m hm => hl m (knows_copy.1 hm)⟩
    refine ⟨(size_addAll h' t' t.path.node).trans hs.1, fun m hm => ?_⟩
    rcases knows_addAll hm with hm | rfl
    · exact (hs.2 m hm).imp_right .inl
    · exact .inr (.inr rfl)

theorem exists_onward {t : Thread} {targets : List Nat} {frame : Frame} {trace : Trace}
    {unproven : Bool} {t' : Nat} (ht : t' ∈ targets) (hn : t.path.node < t.history.size) :
    (t' = t.path.node ∨ Refuses t.history t.path.node t') ∨
      ∃ u ∈ (onward t (.advance targets frame trace unproven)).1, u.path = ⟨t', frame, trace⟩ := by
  cases ha : ((markIf unproven (t.history.add t.path.node t.path.node).2).addAll t' t.path.node).1
  with
  | true => exact .inr (exists_mem_branches ht ha)
  | false =>
    refine .inl (refuses_of_addAll hn (addAll_fst_eq_false.2 ?_))
    simpa using addAll_fst_eq_false.1 ha

/-- What the threads after a turn know, and the history that it leaves, was known before, or is the
current node or one that waits. -/
structure Threads (s : Setting σ) (st : State) (p : Progress σ) (threads : List Thread)
    (left : History Nat) : Prop where
  size : ∀ u ∈ threads, u.history.size = s.graph.size
  left_size : left.size = s.graph.size
  kept : ∀ u ∈ st.waiting, u ∈ threads
  led : ∀ t, Leads s st.current.path p t →
    view.known st t ∨ t = st.current.path.node ∨ ∃ u ∈ threads, u.path.node = t
  learnt : ∀ u ∈ threads, ∀ m, Knows u.history m →
    view.known st m ∨ m = st.current.path.node ∨ ∃ u ∈ threads, u.path.node = m
  left_learnt : ∀ m, Knows left m → view.known st m ∨ m = st.current.path.node

theorem threads_onward {s : Setting σ} {st : State} {p q : Progress σ} {n : Node} {out : Step}
    {threads : List Thread} (hn : s.graph.nodes[st.current.path.node]? = some n)
    (hs : step s n st.current.path p = .ok out q) (hsize : Sized s.graph.size st)
    (ht : threads = (onward st.current out).1 ++
      queueLast st.waiting (handlerThreads st.current (handlersOf n))) :
    Threads s st p threads (onward st.current out).2 := by
  have mem : ∀ u, u ∈ threads ↔ u ∈ (onward st.current out).1 ∨ u ∈ st.waiting ∨
      u ∈ handlerThreads st.current (handlersOf n) := by
    intro u
    rw [ht, List.mem_append, mem_queueLast]
  obtain ⟨hleft, hl⟩ := @knows_onward_snd st.current out
  refine ⟨?_, hleft.trans hsize.1, fun u hu => (mem u).2 (.inr (.inl hu)), ?_, ?_,
    fun m hm => (hl m hm).imp_left .inl⟩
  · intro u hu
    rcases (mem u).1 hu with hu | hu | hu
    · exact (knows_onward_fst hu).1.trans hsize.1
    · exact hsize.2 u hu
    · exact (knows_handlerThread hu).1.trans hsize.1
  · intro t hl
    rcases hl.of_step hn hs with ⟨hd, hh, rfl⟩ | ⟨_, _, _, _, rfl, htt⟩
    · rcases @exists_handlerThread st.current _ _ hh with hr | ⟨u, hu, hp⟩
      · exact .inl (.inl hr.knows)
      · exact .inr (.inr ⟨u, (mem u).2 (.inr (.inr hu)), by rw [hp]; rfl⟩)
    · have hnode : st.current.path.node < st.current.history.size := by
        rw [hsize.1]
        exact (Array.getElem?_eq_some_iff.1 hn).1
      rcases exists_onward htt hnode with (he | hr) | ⟨u, hu, hp⟩
      · exact .inr (.inl he)
      · exact .inl (.inl hr.knows)
      · exact .inr (.inr ⟨u, (mem u).2 (.inl hu), by rw [hp]⟩)
  · intro u hu m hm
    rcases (mem u).1 hu with hu' | hu' | hu'
    · rcases (knows_onward_fst hu').2 m hm with hm | hm | hm
      · exact .inl (.inl hm)
      · exact .inr (.inl hm)
      · exact .inr (.inr ⟨u, hu, hm.symm⟩)
    · exact .inl (.inr ⟨u, hu', hm⟩)
    · rcases (knows_handlerThread hu').2 m hm with hm | hm
      · exact .inl (.inl hm)
      · exact .inr (.inr ⟨u, hu, hm.symm⟩)

theorem conserved_turn (s : Setting σ) : view.Conserved s (turn s) (Sized s.graph.size) where
  some := by
    intro st st' p p' hsize h
    obtain ⟨n, out, q, threads, hn, hs, hw, ⟨-, hr, -⟩ | ⟨-, hr, -⟩⟩ := turn_ok h
    · cases hr
    have ht := threads_onward hn hs hsize hw
    obtain ⟨t, htm, -, hhist, hsub, -⟩ := resume_eq_some hr.symm
    have waits : ∀ u ∈ threads, u.path ∈ view.current st' :: view.waiting st' :=
      fun u hu => waits_of_resume hr.symm hu
    have node : ∀ m, (view.known st m ∨ m = st.current.path.node ∨ ∃ u ∈ threads, u.path.node = m) →
        view.known st m ∨ m = st.current.path.node ∨
          ∃ w ∈ view.current st' :: view.waiting st', w.node = m := by
      rintro m (hm | hm | ⟨u, hu, hm⟩)
      · exact .inl hm
      · exact .inr (.inl hm)
      · exact .inr (.inr ⟨u.path, waits u hu, hm⟩)
    refine ⟨⟨?_, fun u hu => ht.size u (hsub u hu)⟩, ?_, fun t hl => node t (ht.led t hl), ?_⟩
    · rcases hhist with hh | ⟨h, he, hh⟩
      · rw [hh, ht.size t htm]
      · rw [hh, size_merge, ht.size t htm]
        rw [eq_of_mem_ended he, ht.left_size, ht.size t htm]
    · intro w hw
      obtain ⟨u, hu, rfl⟩ := List.mem_map.1 hw
      exact waits u (ht.kept u hu)
    · rintro m (hm | ⟨u, hu, hm⟩)
      · rcases hhist with hh | ⟨h, he, hh⟩
        · rw [hh] at hm
          exact node m (ht.learnt t htm m hm)
        · rw [hh] at hm
          obtain ⟨x, hx⟩ := hm
          have hsz : h.size = t.history.size := by
            rw [eq_of_mem_ended he, ht.left_size, ht.size t htm]
          rcases (mem_seenAt_merge hsz).1 hx with hx | hx
          · exact node m (ht.learnt t htm m ⟨x, hx⟩)
          · rw [eq_of_mem_ended he] at hx
            exact (ht.left_learnt m ⟨x, hx⟩).imp_right .inl
      · exact node m (ht.learnt u (hsub u hu) m hm)
  none := by
    intro st p p' hsize h
    obtain ⟨n, out, q, threads, hn, hs, hw, ⟨he, -, -⟩ | ⟨he, hr, -⟩⟩ := turn_ok h
    · have ht := threads_onward hn hs hsize hw
      subst he
      refine ⟨fun w hw => ?_, fun t hl => ?_, nofun⟩
      · obtain ⟨u, hu, rfl⟩ := List.mem_map.1 hw
        simpa using ht.kept u hu
      · rcases ht.led t hl with hm | hm | ⟨u, hu, -⟩
        · exact .inl hm
        · exact .inr (.inl hm)
        · simp at hu
    · obtain ⟨st', hst⟩ := exists_resume q.ledger.covered (ended (onward st.current out)) he
      rw [hst] at hr
      cases hr

theorem sized_initial (s : Setting σ) (start : Frame) : Sized s.graph.size (initial s start) :=
  ⟨size_empty _, by simp [initial]⟩

theorem takes_up_threads {s : Setting σ} {cutoff : Nat} {start : Frame} {p p' : Progress σ}
    {turns : List (State × Progress σ)} (h : Pass s cutoff start p turns .drained p')
    {x : State × Progress σ} (hx : x ∈ turns) :
    Sized s.graph.size x.1 ∧ ∃ n out q, s.graph.nodes[x.1.current.path.node]? = some n ∧
      step s n x.1.current.path x.2 = .ok out q ∧
      ∀ u ∈ (onward x.1.current out).1 ++
        queueLast x.1.waiting (handlerThreads x.1.current (handlersOf n)),
        ∃ y ∈ turns, y.1.current.path = u.path := by
  obtain ⟨hsize, hafter⟩ := (conserved_turn s).takes_up_after h (sized_initial s start) x hx
  obtain ⟨r, q', ht⟩ := h.turn_ok x hx
  obtain ⟨n, out, q, threads, hn, hs, hw, hr⟩ := turn_ok ht
  refine ⟨hsize, n, out, q, hn, hs, fun u hu => ?_⟩
  rw [← hw] at hu
  rcases hr with ⟨he, -, -⟩ | ⟨he, hr, -⟩
  · simp [he] at hu
  · obtain ⟨st', hst⟩ := exists_resume q.ledger.covered (ended (onward x.1.current out)) he
    rw [hst] at hr
    subst hr
    exact hafter st' q' ht _ (waits_of_resume hst hu)

theorem takes_up_led {s : Setting σ} {cutoff : Nat} {start : Frame} {p p' : Progress σ}
    {turns : List (State × Progress σ)} (h : Pass s cutoff start p turns .drained p') :
    ∀ x ∈ turns, ∀ t, Leads s x.1.current.path x.2 t → ∃ y ∈ turns, y.1.current.path.node = t := by
  have hk : ∀ m, view.known (initial s start) m → False ∨ m = (initial s start).current.path.node ∨
      ∃ w ∈ (initial s start).waiting.map Thread.path, w.node = m := by
    rintro m (⟨x, hx⟩ | ⟨u, hu, -⟩)
    · exact (not_mem_seenAt_empty hx).elim
    · simp [initial] at hu
  intro x hx t ht
  exact ((conserved_turn s).takes_up_led h (sized_initial s start) hk x hx t ht).resolve_left id

end Exhaustive

/-- Pruning by histories loses no node: whatever a turn of a drained pass leads to is taken up by some
turn of that pass. -/
theorem drained_pass_takes_up (s : Setting σ) (start : Frame) (p p' : Progress σ) :
    (∀ turns, Fast.Pass s start p turns .drained p' →
      ∀ x ∈ turns, ∀ t, Leads s x.1.current x.2 t → ∃ y ∈ turns, y.1.current.node = t) ∧
    (∀ cutoff turns, Exhaustive.Pass s cutoff start p turns .drained p' →
      ∀ x ∈ turns, ∀ t, Leads s x.1.current.path x.2 t →
        ∃ y ∈ turns, y.1.current.path.node = t) :=
  ⟨fun _ h => Fast.takes_up_led h, fun _ _ h => Exhaustive.takes_up_led h⟩

/-- The length of a null array, with a handler for the exception. -/
def caughtNull : Method where
  className := "a/B"
  name := "m"
  descriptor := "()I"
  static := true
  code := {
    instructions := [{ offset := 0, op := ⟨1⟩ }, { offset := 1, op := ⟨190⟩ },
      { offset := 2, op := ⟨172⟩ }, { offset := 3, op := ⟨191⟩ }]
    handlers := [⟨1, 2, 3, ""⟩] }

def caughtNullSetting : Setting Unit where
  graph := (Graph.build caughtNull).toOption.getD ⟨caughtNull, #[], ∅⟩
  visitor := .accepting false

theorem caughtNull_leads {p : Progress Unit} {path : Path} (h : path.node = 1) :
    Leads caughtNullSetting path p 3 := by
  have hn : (caughtNullSetting.graph.nodes[1]?.map fun n => (handlersOf n).map Handler.entry)
      = some [3] := by decide +kernel
  obtain ⟨n, hn, hh⟩ := Option.map_eq_some_iff.1 hn
  obtain ⟨hd, hm, he⟩ := List.mem_map.1 (hh ▸ List.mem_singleton_self 3)
  rw [← he]
  exact .handler (h ▸ hn) hm

theorem drained_pass_takes_up_caughtNull :
    (∃ turns p', Fast.Pass caughtNullSetting ⟨[], []⟩ ⟨{}, {}, (), []⟩ turns .drained p' ∧
      (∃ y ∈ turns, y.1.current.node = 1) ∧ ∃ y ∈ turns, y.1.current.node = 3) ∧
    ∃ turns p', Exhaustive.Pass caughtNullSetting 1 ⟨[], []⟩ ⟨{}, {}, (), []⟩ turns .drained p' ∧
      (∃ y ∈ turns, y.1.current.path.node = 1) ∧ ∃ y ∈ turns, y.1.current.path.node = 3 := by
  constructor
  · have hf : (match Fast.run caughtNullSetting ⟨[], []⟩ ⟨{}, {}, (), []⟩ with
      | .ok _ q => finished caughtNullSetting q
      | .error _ _ => true) = false := by decide +kernel
    split at hf
    next p' hr =>
      obtain ⟨turns, e, hp⟩ := Fast.pass_of_run hr
      obtain rfl := Fast.eq_drained hp hf
      have take := (drained_pass_takes_up _ _ _ p').1 turns hp
      have h₀ := hp.mem_of_exit_eq_none (by decide +kernel)
      obtain ⟨y, hy, h₁⟩ := take _ h₀ 1 (by decide +kernel)
      exact ⟨turns, p', hp, ⟨y, hy, h₁⟩, take y hy 3 (caughtNull_leads h₁)⟩
    next => cases hf
  · have hf : (match Exhaustive.run caughtNullSetting 1 ⟨[], []⟩ ⟨{}, {}, (), []⟩ with
      | .ok _ q => finished caughtNullSetting q || q.stats.cutOff
      | .error _ _ => true) = false := by decide +kernel
    split at hf
    next p' hr =>
      rw [Bool.or_eq_false_iff] at hf
      obtain ⟨turns, e, q, hp, rfl⟩ := Exhaustive.pass_of_run hr
      have he := Exhaustive.eq_drained hp ?_ hf.2
      · subst he
        have take := (drained_pass_takes_up _ _ _ q).2 _ turns hp
        have h₀ := hp.mem_of_exit_eq_none (by decide +kernel)
        obtain ⟨y, hy, h₁⟩ := take _ h₀ 1 (by decide +kernel)
        exact ⟨turns, q, hp, ⟨y, hy, h₁⟩, take y hy 3 (caughtNull_leads h₁)⟩
      · cases e <;> exact hf.1
    next => cases hf

end BytecodeFlow.Exploration
