import BytecodeFlow.Proofs.Exploration.Ends
import BytecodeFlow.Proofs.Exploration.Paths
import BytecodeFlow.Proofs.History.Room

/-!
Both passes come to an end. A path is queued only where a history grows, so that each turn but the first
is paid for with room in a history. In the fast pass there is one history; in the exhaustive pass each
copy pays for a history of its own.
-/

namespace BytecodeFlow

/-- At most one successor fewer is left to copy for than there are by control flow. -/
theorem Node.targets_length_le {n : Node} {size : Nat} {f : Frame} {succs : Successors}
    (h : n.successors size f = .ok succs) : succs.targets.length - 1 ≤ n.flow.length - 1 := by
  rw [successors] at h
  split at h
  · split at h
    next next target hf =>
      simp only [testNull, bind_eq_ok] at h
      obtain ⟨top, -, h⟩ := h
      rw [hf]
      split at h
      · cases h
        exact Nat.le_refl _
      · split at h <;> cases h <;> exact Nat.zero_le _
    next =>
      cases h
      exact Nat.le_refl _
  · cases h
    rw [Successors.targets]
    have := n.flow.getLast?.length_toList_le
    omega
  · simp only [bind_eq_ok, pure_eq_ok] at h
    obtain ⟨t, -, rfl⟩ := h
    exact Nat.zero_le _
  · cases h
    exact Nat.le_refl _

namespace Exploration

open History

theorem Stepped.target_lt {s : Setting σ} (hg : s.graph.Wf) {n : Node} {path : Path}
    {p q : Progress σ} {out : Step} (hn : s.graph.nodes[path.node]? = some n)
    (h : Stepped s n path p out q) : ∀ t ∈ out.targets, t < s.graph.size := by
  intro t ht
  rcases h.exists_targets with he | ⟨succs, hs, he⟩
  · rw [he] at ht
    cases ht
  · rw [he] at ht
    exact successors_lt hg hn hs ht

theorem length_handlersOf_le (n : Node) : (handlersOf n).length ≤ n.handlers.length := by
  rw [handlersOf]
  split
  · exact Nat.le_refl _
  · exact Nat.zero_le _

/-- A step that ends so makes no more copies than its node can cause. -/
theorem Stepped.copies_le {s : Setting σ} {n : Node} {path : Path} {p q : Progress σ} {out : Step}
    (h : Stepped s n path p out q) :
    (handlersOf n).length + (out.targets.length - 1) ≤ Exhaustive.width n := by
  refine Nat.add_le_add (length_handlersOf_le n) ?_
  rcases h.exists_targets with he | ⟨succs, hs, he⟩
  · rw [he]
    exact Nat.zero_le _
  · rw [he]
    exact Node.targets_length_le hs

theorem Stepped.stats_eq {s : Setting σ} {n : Node} {path : Path} {p q : Progress σ} {out : Step}
    (h : Stepped s n path p out q) : q.stats = p.stats := by
  have advanced {p q : Progress σ} (h : Advanced s n path p out q) : q.stats = p.stats := by
    cases h <;> rfl
  cases h with
  | again _ ha => exact advanced ha
  | null _ _ => rfl
  | refused _ _ _ => rfl
  | shown _ _ _ ha => exact (advanced ha).trans rfl

theorem Failed.stats_eq {s : Setting σ} {n : Node} {path : Path} {p q : Progress σ}
    (h : Failed s n path p q) : q.stats = p.stats := by
  cases h <;> rfl

theorem Stalled.steps_le {s : Setting σ} {path : Path} {p q : Progress σ} {e : Failure}
    (h : Stalled s path p e q) : q.stats.steps ≤ p.stats.steps + 1 := by
  cases h with
  | cancelled _ hq => simp [hq]
  | outside _ hs hq => simp [hq, hs]
  | step _ hs _ _ h => rw [(failed_of_step h).stats_eq, hs]

namespace Fast

theorem steps_of_turn {s : Setting σ} {st : State} {p p' : Progress σ} {r : Option State}
    (h : turn s st p = .ok r p') : p'.stats.steps = p.stats.steps + 1 := by
  simp only [turn, Run.bind_eq_ok, checkCancelled_eq_ok, Run.count_eq_ok, nodeOf_eq_ok] at h
  obtain ⟨_, _, ⟨-, rfl⟩, _, _, rfl, n, _, ⟨-, rfl⟩, ⟨waiting, hist⟩, _, hh, out, q, hs, h⟩ := h
  obtain ⟨-, k, -, -, rfl⟩ := queueHandlers_ok hh
  have hq := congrArg Stats.steps (stepped_of_step hs).stats_eq
  cases out with
  | cut proven =>
    simp only [Run.bind_eq_ok, Run.pure_eq_ok] at h
    obtain ⟨_, _, ⟨rfl, rfl⟩, h⟩ := h
    obtain ⟨⟨k', rfl⟩, -⟩ := takeUp_ok h
    exact hq
  | advance targets frame trace unproven =>
    simp only [Run.bind_eq_ok, Run.count_eq_ok, Run.pure_eq_ok] at h
    obtain ⟨_, _, rfl, _, _, ⟨rfl, rfl⟩, h⟩ := h
    obtain ⟨⟨k', rfl⟩, -⟩ := takeUp_ok h
    exact hq

/-- Paths that wait and the room in a history are together within a bound. -/
structure Fits (n bound : Nat) (waiting : List Path) (h : History Nat) : Prop where
  within : h.Within n
  le : waiting.length + h.room n ≤ bound

variable {n bound : Nat}

theorem fits_entering {path : Path} {hds : List Handler} {waiting : List Path} {h : History Nat}
    (hp : path.node < n) (hh : ∀ hd ∈ hds, hd.entry < n) (hf : Fits n bound waiting h) :
    Fits n bound (entering path hds waiting h).1 (entering path hds waiting h).2 := by
  induction hds generalizing waiting h with
  | nil => exact hf
  | cons hd rest ih =>
    have hrest : ∀ hd ∈ rest, hd.entry < n := fun hd hm => hh hd (List.mem_cons_of_mem _ hm)
    have hw := within_enter hf.within hd.entry hp
    have hle := hf.le
    rw [entering]
    cases he : enter h hd.entry path.node with
    | mk grew h' =>
      cases grew with
      | true =>
        have hlt := room_enter_lt hf.within (hh hd List.mem_cons_self) hp (by rw [he])
        simp only [he] at hw hlt
        refine ih hrest ⟨hw, ?_⟩
        rw [List.length_append, List.length_singleton]
        omega
      | false =>
        have hroom := room_enter_le (n := n) (h := h) hd.entry path.node
        simp only [he] at hw hroom
        exact ih hrest ⟨hw, by omega⟩

theorem fits_queueTargets {source : Nat} {frame : Frame} {trace : Trace} {targets : List Nat}
    {waiting : List Path} {h : History Nat} (ht : ∀ t ∈ targets, t < n) (hf : Fits n bound waiting h) :
    Fits n bound (queueTargets source frame trace targets waiting h).1
      (queueTargets source frame trace targets waiting h).2 := by
  induction targets with
  | nil => exact hf
  | cons t rest ih =>
    have ih := ih fun t hm => ht t (List.mem_cons_of_mem _ hm)
    rw [queueTargets] at ih ⊢
    rw [List.foldr_cons]
    generalize List.foldr _ _ rest = q at ih
    obtain ⟨ws, h'⟩ := q
    have hw := ih.within.addAll t source
    have hle := ih.le
    cases he : h'.addAll t source with
    | mk grew h'' =>
      cases grew with
      | true =>
        have hlt := room_addAll_lt ih.within (ht t List.mem_cons_self) (by rw [he])
        simp only [he] at hw hle hlt ⊢
        refine ⟨hw, ?_⟩
        rw [List.length_cons]
        omega
      | false =>
        have hroom := room_addAll_le (n := n) (h := h') t source
        simp only [he] at hw hle hroom ⊢
        exact ⟨hw, by omega⟩

theorem fits_onward {path : Path} {out : Step} {waiting : List Path} {h : History Nat}
    (hp : path.node < n) (ht : ∀ t ∈ out.targets, t < n) (hf : Fits n bound waiting h) :
    Fits n bound (onward path out (waiting, h)).1 (onward path out (waiting, h)).2 := by
  cases out with
  | cut => exact hf
  | advance targets frame trace unproven =>
    have hroom := room_add_le (n := n) (h := h) path.node path.node
    have hle := hf.le
    exact fits_queueTargets ht ⟨hf.within.add path.node hp, by omega⟩

/-- The steps taken are paid for with room in the history, and what is left of it pays for the paths
that wait. -/
structure Paid (s : Setting σ) (st : State) (p : Progress σ) : Prop where
  within : st.history.Within s.graph.size
  le : p.stats.steps + (st.waiting.length + st.history.room s.graph.size) ≤
    s.graph.size * s.graph.size

theorem paid_initial (s : Setting σ) (start : Frame) (p : Progress σ) :
    Paid s (initial s start) { p with stats := {} } where
  within := within_empty _
  le := by simpa [initial] using room_le s.graph.size (.empty s.graph.size)

theorem Paid.turn {s : Setting σ} (hg : s.graph.Wf) {st st' : State} {p p' : Progress σ}
    (hp : Paid s st p) (h : turn s st p = .ok (some st') p') : Paid s st' p' := by
  have hsteps := steps_of_turn h
  obtain ⟨n, out, q, hn, hs, -, hr⟩ := turn_ok h
  have hlt := Graph.node_lt hn
  have hf : Fits s.graph.size _ st.waiting st.history := ⟨hp.within, Nat.le_refl _⟩
  have hf := fits_onward hlt ((stepped_of_step hs).target_lt hg hn)
    (fits_entering hlt (fun hd hh => hg.entry_lt hn (mem_handlers hh)) hf)
  obtain ⟨hw, hh⟩ := takeUp_eq_some hr.symm
  have hle := hf.le
  have hpaid := hp.le
  rw [hw, List.length_cons, hh] at hle
  exact ⟨hh ▸ hf.within, by omega⟩

theorem exists_ends {s : Setting σ} (hg : s.graph.Wf) (start : Frame) (p : Progress σ) :
    ∃ k r, Ends (exit? s) (turn s) (initial s start) { p with stats := {} } k r ∧
      k ≤ s.graph.size * s.graph.size + 1 := by
  have below {st : State} {p : Progress σ} (hp : Paid s st p) :
      p.stats.steps < s.graph.size * s.graph.size + 1 := by
    have := hp.le
    omega
  obtain ⟨k, r, hk, hle⟩ := Exploration.exists_ends (fun hp (_ : exit? s _ = none) => below hp)
    (fun hp _ ht => ⟨hp.turn hg ht, steps_of_turn ht⟩) (paid_initial s start p) (Nat.zero_le _)
  exact ⟨k, r, hk, (Nat.zero_add k).symm.trans_le hle⟩

section

variable {s : Setting σ} {start : Frame} {p : Progress σ} {k : Nat}
  {r : EStateM.Result Failure (Progress σ) Exit}

theorem run_of_ends (h : Ends (exit? s) (turn s) (initial s start) { p with stats := {} } k r)
    (hk : k ≤ s.graph.size * s.graph.size + 1) : run s start p = outcome r :=
  loop_of_ends h (Nat.lt_succ_of_le hk)

theorem steps_le_turns
    (h : Ends (exit? s) (turn s) (initial s start) { p with stats := {} } k r) :
    (Run.left r).stats.steps ≤ k := by
  refine (h.steps_le fun hl => ?_).trans_eq (Nat.zero_add k)
  rcases hl with ⟨_, ht⟩ | ⟨_, ht⟩
  · exact (steps_of_turn ht).le
  · exact (turn_eq_error ht).steps_le

end

end Fast

namespace Exhaustive

theorem counts_of_turn {s : Setting σ} {st : State} {p p' q : Progress σ} {r : Option State} {n : Node}
    {out : Step} (h : turn s st p = .ok r p') (hn : s.graph.nodes[st.current.path.node]? = some n)
    (hs : step s n st.current.path p = .ok out q) :
    p'.stats.steps = p.stats.steps + 1 ∧
      p'.stats.copies = p.stats.copies + ((handlersOf n).length + (out.targets.length - 1)) := by
  simp only [turn, Run.bind_eq_ok, checkCancelled_eq_ok, Run.count_eq_ok, nodeOf_eq_ok] at h
  obtain ⟨_, _, ⟨-, rfl⟩, _, _, rfl, _, _, ⟨hn', rfl⟩, _, _, rfl, out', q', hs', h⟩ := h
  cases hn.symm.trans hn'
  cases hs.symm.trans (step_withStats hs' p.stats)
  have hq := (stepped_of_step hs').stats_eq
  cases out with
  | cut proven =>
    simp only [Run.bind_eq_ok, Run.pure_eq_ok] at h
    obtain ⟨_, _, ⟨rfl, rfl⟩, h⟩ := h
    obtain ⟨-, -, rfl⟩ | ⟨-, -, k, rfl⟩ := resume_ok h <;>
      simp [hq, Step.targets, Stats.copies, Nat.add_assoc]
  | advance targets frame trace unproven =>
    simp only [Run.bind_eq_ok, Run.count_eq_ok, Run.pure_eq_ok] at h
    obtain ⟨_, _, rfl, _, _, ⟨rfl, rfl⟩, h⟩ := h
    obtain ⟨-, -, rfl⟩ | ⟨-, -, k, rfl⟩ := resume_ok h <;>
      simp [hq, Step.targets, Stats.copies, Fast.countTargets] <;> omega

theorem steps_of_turn {s : Setting σ} {st : State} {p p' : Progress σ} {r : Option State}
    (h : turn s st p = .ok r p') : p'.stats.steps = p.stats.steps + 1 := by
  obtain ⟨n, out, q, threads, hn, hs, -⟩ := turn_ok h
  exact (counts_of_turn h hn hs).1

theorem copies_of_leaves {s : Setting σ} {st : State} {p q : Progress σ}
    (h : (turn s st).Leaves p q) :
    p.stats.copies ≤ q.stats.copies ∧ (q.stats.copies = p.stats.copies ∨
      ∃ n ∈ s.graph.nodes, q.stats.copies ≤ p.stats.copies + width n) := by
  rcases h with ⟨r, h⟩ | ⟨e, h⟩
  · obtain ⟨n, out, q, threads, hn, hs, -⟩ := turn_ok h
    have hc := (counts_of_turn h hn hs).2
    have hle := (stepped_of_step hs).copies_le
    exact ⟨by omega, .inr ⟨n, Array.mem_of_getElem? hn, by omega⟩⟩
  · cases turn_eq_error h with
    | cancelled _ hq =>
      rw [hq]
      exact ⟨Nat.le_refl _, .inl rfl⟩
    | outside _ _ hq =>
      rw [hq]
      exact ⟨Nat.le_refl _, .inl rfl⟩
    | @step n stats hn _ hle hle' hs =>
      have hw : (handlersOf n).length ≤ width n :=
        (length_handlersOf_le n).trans (Nat.le_add_right _ _)
      rw [(failed_of_step hs).stats_eq]
      exact ⟨hle, .inr ⟨n, Array.mem_of_getElem? hn, hle'.trans (Nat.add_le_add_left hw _)⟩⟩

/-- What threads can still cost: a turn each, and one for each time that a history grows. -/
def charge (n : Nat) : List Thread → Nat
  | [] => 0
  | t :: ts => 1 + t.history.room n + charge n ts

variable {n : Nat}

@[simp] theorem charge_nil : charge n [] = 0 := rfl

@[simp] theorem charge_cons (t : Thread) (ts : List Thread) :
    charge n (t :: ts) = 1 + t.history.room n + charge n ts := rfl

@[simp] theorem charge_append (ts us : List Thread) :
    charge n (ts ++ us) = charge n ts + charge n us := by
  induction ts with
  | nil => simp
  | cons t ts ih => simp [ih, Nat.add_assoc]

theorem charge_perm {ts us : List Thread} (h : ts.Perm us) : charge n ts = charge n us := by
  induction h with
  | nil => rfl
  | cons t _ ih => rw [charge_cons, charge_cons, ih]
  | swap t u ts =>
    simp only [charge_cons]
    omega
  | trans _ _ ih ih' => exact ih.trans ih'

theorem charge_le (ts : List Thread) : charge n ts ≤ ts.length * (n * n + 1) := by
  induction ts with
  | nil => exact Nat.zero_le _
  | cons t ts ih =>
    have := room_le n t.history
    rw [charge_cons, List.length_cons, Nat.succ_mul]
    omega

theorem charge_queueLast (waiting ts : List Thread) :
    charge n (queueLast waiting ts) = charge n waiting + charge n ts := by
  cases ts <;> simp [queueLast]

@[simp] theorem room_markIf (b : Bool) (h : History Nat) : (markIf b h).room n = h.room n := by
  cases b <;> rfl

theorem within_markIf {h : History Nat} (hw : h.Within n) (b : Bool) : (markIf b h).Within n := by
  cases b
  · exact hw
  · exact hw.mark

theorem charge_handlerThreads_le (t : Thread) (hds : List Handler) :
    charge n (handlerThreads t hds) ≤ hds.length * (n * n + 1) :=
  (charge_le _).trans (Nat.mul_le_mul_right _ (List.length_filterMap_le _ _))

/-- The first successor is paid for by the history that it goes on with, the others as copies. -/
theorem charge_branches_le {source : Nat} {frame : Frame} {trace : Trace} {h : History Nat}
    {targets : List Nat} (hw : h.Within n) (ht : ∀ t ∈ targets, t < n) :
    charge n (branches source frame trace h targets) ≤
      h.room n + (targets.length - 1) * (n * n + 1) := by
  cases targets with
  | nil => exact Nat.zero_le _
  | cons t ts =>
    rw [branches, charge_append]
    refine Nat.add_le_add ?_ ((charge_le _).trans (Nat.mul_le_mul_right _ ?_))
    · cases hb : branch source frame trace h t with
      | none => exact Nat.zero_le _
      | some u =>
        obtain ⟨hg, rfl⟩ := branch_eq_some.1 hb
        have := room_addAll_lt hw (ht t List.mem_cons_self) hg
        rw [Option.toList_some, charge_cons, charge_nil]
        change 1 + (h.addAll t source).2.room n + 0 ≤ h.room n
        omega
    · exact List.length_filterMap_le _ _

theorem charge_onward_le {t : Thread} {out : Step} (hp : t.path.node < n) (hw : t.history.Within n)
    (ht : ∀ t ∈ out.targets, t < n) :
    charge n (onward t out).1 ≤ t.history.room n + (out.targets.length - 1) * (n * n + 1) := by
  cases out with
  | cut => exact Nat.zero_le _
  | advance targets frame trace unproven =>
    have hroom := room_add_le (n := n) (h := t.history) t.path.node t.path.node
    refine (charge_branches_le (within_markIf (hw.add t.path.node hp) unproven) ht).trans ?_
    rw [room_markIf]
    exact Nat.add_le_add_right hroom _

/-- Each history of a state is within the nodes of a graph. -/
def Within (n : Nat) (threads : List Thread) : Prop := ∀ t ∈ threads, t.history.Within n

theorem within_onward_snd {t : Thread} {out : Step} (hp : t.path.node < n)
    (hw : t.history.Within n) : (onward t out).2.Within n := by
  cases out with
  | cut => exact within_markIf hw _
  | advance => exact within_markIf (hw.add _ hp) _

theorem within_onward {t : Thread} {out : Step} (hp : t.path.node < n)
    (hw : t.history.Within n) : Within n (onward t out).1 := by
  intro u hu
  cases out with
  | cut => cases hu
  | advance targets frame trace unproven =>
    obtain ⟨t', -, h', hh, rfl⟩ := mem_branches hu
    have hm := within_markIf (hw.add t.path.node hp) unproven
    rcases hh with rfl | rfl
    · exact hm.addAll _ _
    · exact hm.copy.addAll _ _

theorem within_handlerThreads {t : Thread} {hds : List Handler} (hp : t.path.node < n)
    (hw : t.history.Within n) : Within n (handlerThreads t hds) := by
  intro u hu
  obtain ⟨hd, -, -, rfl⟩ := mem_handlerThreads.1 hu
  rw [Thread.history_of]
  exact within_enter hw.copy _ hp

theorem charge_resume {covered : NodeSet} {waiting : List Thread} {e : Option (History Nat)}
    {st : State} (h : resume covered waiting e = some st) (hw : Within n waiting)
    (he : ∀ h ∈ e, h.Within n) :
    Within n (st.current :: st.waiting) ∧ charge n (st.current :: st.waiting) ≤ charge n waiting := by
  obtain ⟨t, hperm, -, hist⟩ := resume_perm h
  have ht : t.history.Within n := hw t (hperm.mem_iff.1 List.mem_cons_self)
  have hcur : st.current.history.Within n ∧ st.current.history.room n ≤ t.history.room n := by
    rcases hist with hist | ⟨h', hh, hist⟩
    · exact ⟨hist ▸ ht, hist ▸ Nat.le_refl _⟩
    · exact ⟨hist ▸ ht.merge (he h' hh), hist ▸ room_merge_le ht (he h' hh)⟩
  constructor
  · intro u hu
    rcases List.mem_cons.1 hu with rfl | hu
    · exact hcur.1
    · exact hw u (hperm.mem_iff.1 (List.mem_cons_of_mem _ hu))
  · rw [← charge_perm hperm, charge_cons, charge_cons]
    omega

/-- The steps taken, and what the threads can still cost, are paid for by one history from the start and
one for each copy. -/
structure Paid (s : Setting σ) (st : State) (p : Progress σ) : Prop where
  within : Within s.graph.size (st.current :: st.waiting)
  le : p.stats.steps + charge s.graph.size (st.current :: st.waiting) ≤
    (1 + p.stats.copies) * (s.graph.size * s.graph.size + 1)

theorem paid_initial (s : Setting σ) (start : Frame) (p : Progress σ) :
    Paid s (initial s start) { p with stats := {} } where
  within := by
    intro t ht
    rw [List.mem_singleton.1 ht]
    exact within_empty _
  le := by
    have := charge_le (n := s.graph.size) [(initial s start).current]
    simpa [initial, Stats.copies] using this

theorem Paid.steps_lt {s : Setting σ} {st : State} {p : Progress σ} (h : Paid s st p) :
    p.stats.steps < (1 + p.stats.copies) * (s.graph.size * s.graph.size + 1) := by
  have := h.le
  rw [charge_cons] at this
  omega

theorem Paid.turn {s : Setting σ} (hg : s.graph.Wf) {st st' : State} {p p' : Progress σ}
    (hp : Paid s st p) (h : turn s st p = .ok (some st') p') : Paid s st' p' := by
  obtain ⟨n, out, q, waiting, hn, hs, hw, ⟨-, hr, -⟩ | ⟨-, hr, -⟩⟩ := turn_ok h
  · cases hr
  obtain ⟨hsteps, hcopies⟩ := counts_of_turn h hn hs
  have hlt := Graph.node_lt hn
  have hcur := hp.within _ List.mem_cons_self
  have hall : Within s.graph.size waiting := by
    intro u hu
    rw [hw, List.mem_append, mem_queueLast] at hu
    rcases hu with hu | hu | hu
    · exact within_onward hlt hcur u hu
    · exact hp.within u (List.mem_cons_of_mem _ hu)
    · exact within_handlerThreads hlt hcur u hu
  have hended : ∀ h ∈ ended (onward st.current out), h.Within s.graph.size := by
    intro h he
    rw [eq_of_mem_ended he]
    exact within_onward_snd hlt hcur
  obtain ⟨hwithin, hcharge⟩ := charge_resume hr.symm hall hended
  refine ⟨hwithin, ?_⟩
  have honward := charge_onward_le hlt hcur ((stepped_of_step hs).target_lt hg hn)
  have hhandlers := charge_handlerThreads_le (n := s.graph.size) st.current (handlersOf n)
  have hle := hp.le
  rw [hw, charge_append, charge_queueLast] at hcharge
  rw [charge_cons] at hle
  rw [hsteps, hcopies, ← Nat.add_assoc, Nat.add_mul, Nat.add_mul (handlersOf n).length]
  omega

theorem exists_ends {s : Setting σ} (hg : s.graph.Wf) (cutoff : Nat) (start : Frame)
    (p : Progress σ) :
    ∃ k r, Ends (exit? s cutoff) (turn s) (initial s start) { p with stats := {} } k r ∧
      k ≤ (1 + cutoff) * (s.graph.size * s.graph.size + 1) := by
  have below {st : State} {p : Progress σ} (hp : Paid s st p) (he : exit? s cutoff p = none) :
      p.stats.steps < (1 + cutoff) * (s.graph.size * s.graph.size + 1) := by
    have hc : 1 + p.stats.copies ≤ 1 + cutoff :=
      Nat.add_le_add_left (Nat.le_of_not_lt (exit?_eq_none.1 he).2) 1
    exact hp.steps_lt.trans_le (Nat.mul_le_mul_right _ hc)
  obtain ⟨k, r, hk, hle⟩ := Exploration.exists_ends below
    (fun hp _ ht => ⟨hp.turn hg ht, steps_of_turn ht⟩) (paid_initial s start p) (Nat.zero_le _)
  exact ⟨k, r, hk, (Nat.zero_add k).symm.trans_le hle⟩

section

variable {s : Setting σ} {cutoff : Nat} {start : Frame} {p : Progress σ} {k : Nat}
  {r : EStateM.Result Failure (Progress σ) Exit}

theorem run_of_ends
    (h : Ends (exit? s cutoff) (turn s) (initial s start) { p with stats := {} } k r)
    (hk : k ≤ (1 + cutoff) * (s.graph.size * s.graph.size + 1)) :
    run s cutoff start p = outcome s cutoff r := by
  refine loop_of_ends h (Nat.lt_succ_of_le (hk.trans ?_))
  exact Nat.mul_le_mul_right _ (Nat.le_add_right _ _)

theorem steps_le_turns
    (h : Ends (exit? s cutoff) (turn s) (initial s start) { p with stats := {} } k r) :
    (Run.left r).stats.steps ≤ k := by
  refine (h.steps_le fun hl => ?_).trans_eq (Nat.zero_add k)
  rcases hl with ⟨_, ht⟩ | ⟨_, ht⟩
  · exact (steps_of_turn ht).le
  · exact (turn_eq_error ht).steps_le

theorem turns_le (hg : s.graph.Wf)
    (h : Ends (exit? s cutoff) (turn s) (initial s start) { p with stats := {} } k r) :
    k ≤ (1 + (Run.left r).stats.copies) * (s.graph.size * s.graph.size + 1) := by
  have hle := h.turns_le (paid_initial s start p) (fun hp => hp.steps_lt.le)
    (fun hp _ hl => hp.steps_lt.trans_le
      (Nat.mul_le_mul_right _ (Nat.add_le_add_left (copies_of_leaves hl).1 1)))
    (fun hp _ ht => ⟨hp.turn hg ht, steps_of_turn ht⟩)
  exact (Nat.zero_add k).symm.trans_le hle

theorem copies_le (hg : s.graph.Wf)
    (h : Ends (exit? s cutoff) (turn s) (initial s start) { p with stats := {} } k r) :
    ∃ n ∈ s.graph.nodes, (Run.left r).stats.copies ≤ cutoff + width n := by
  have pos : 0 < s.graph.nodes.size := hg.pos
  have entry : s.graph.nodes[0] ∈ s.graph.nodes := Array.getElem_mem pos
  refine h.left (J := fun q => ∃ n ∈ s.graph.nodes, q.stats.copies ≤ cutoff + width n)
    ⟨_, entry, Nat.zero_le _⟩ fun he hl => ?_
  have hc := (exit?_eq_none.1 he).2
  rcases (copies_of_leaves hl).2 with heq | ⟨n, hn, hle⟩
  · exact ⟨_, entry, by omega⟩
  · exact ⟨n, hn, by omega⟩

end

end Exhaustive

/-- Both passes end, whatever the visitor does, after so many turns at most, and the runs, which bound
their turns, are not stopped by their bounds. -/
theorem passes_terminate {m : Method} {s : Setting σ} (hb : Graph.build m = .ok s.graph)
    (start : Frame) (p : Progress σ) :
    (∃ k r, Ends (Fast.exit? s) (Fast.turn s) (Fast.initial s start) { p with stats := {} } k r ∧
      Fast.run s start p = Fast.outcome r ∧ (Run.left r).stats.steps ≤ k ∧
      k ≤ s.graph.size * s.graph.size + 1) ∧
    ∀ cutoff, ∃ k r,
      Ends (Exhaustive.exit? s cutoff) (Exhaustive.turn s) (Exhaustive.initial s start)
        { p with stats := {} } k r ∧
      Exhaustive.run s cutoff start p = Exhaustive.outcome s cutoff r ∧
      (Run.left r).stats.steps ≤ k ∧
      k ≤ (1 + (Run.left r).stats.copies) * (s.graph.size * s.graph.size + 1) ∧
      ∃ n ∈ s.graph.nodes,
        (Run.left r).stats.copies ≤ cutoff + (n.handlers.length + (n.flow.length - 1)) := by
  have hg := Graph.wf_of_build hb
  constructor
  · obtain ⟨k, r, hk, hle⟩ := Fast.exists_ends hg start p
    exact ⟨k, r, hk, Fast.run_of_ends hk hle, Fast.steps_le_turns hk, hle⟩
  · intro cutoff
    obtain ⟨k, r, hk, hle⟩ := Exhaustive.exists_ends hg cutoff start p
    exact ⟨k, r, hk, Exhaustive.run_of_ends hk hle, Exhaustive.steps_le_turns hk,
      Exhaustive.turns_le hg hk, Exhaustive.copies_le hg hk⟩

/-- A loop that counts its argument down. -/
def countdown : Method where
  className := "a/B"
  name := "m"
  descriptor := "(I)V"
  static := true
  code := {
    instructions := [{ offset := 0, op := ⟨26⟩ }, { offset := 1, op := ⟨153⟩, target := 10 },
      { offset := 4, op := ⟨132⟩, increment := -1 }, { offset := 7, op := ⟨167⟩, target := 0 },
      { offset := 10, op := ⟨177⟩ }]
    maxLocals := 1 }

theorem passes_terminate_countdown : ∃ (s : Setting Unit) (start : Frame),
    Graph.build countdown = .ok s.graph ∧ countdown.startFrame = .ok start ∧
    (∃ k r, Ends (Fast.exit? s) (Fast.turn s) (Fast.initial s start) ⟨{}, {}, (), []⟩ k r ∧
      Fast.run s start ⟨{}, {}, (), []⟩ = Fast.outcome r ∧ (Run.left r).stats.steps ≤ k ∧ k ≤ 26) ∧
    ∃ k r,
      Ends (Exhaustive.exit? s 2) (Exhaustive.turn s) (Exhaustive.initial s start)
        ⟨{}, {}, (), []⟩ k r ∧
      Exhaustive.run s 2 start ⟨{}, {}, (), []⟩ = Exhaustive.outcome s 2 r ∧
      (Run.left r).stats.steps ≤ k ∧ k ≤ (1 + (Run.left r).stats.copies) * 26 ∧
      ∃ n ∈ s.graph.nodes,
        (Run.left r).stats.copies ≤ 2 + (n.handlers.length + (n.flow.length - 1)) := by
  have h : countdown.opened?.any fun t => t.1.size == 5 := by decide +kernel
  obtain ⟨⟨g, start⟩, ht, h⟩ := (Option.any_eq_true _ _).1 h
  obtain ⟨hb, hs⟩ := Method.opened?_eq_some ht
  have hsize : g.size = 5 := beq_iff_eq.1 h
  obtain ⟨hfast, hexh⟩ := passes_terminate (s := ⟨g, .accepting false, false⟩) hb start ⟨{}, {}, (), []⟩
  rw [hsize] at hfast hexh
  exact ⟨_, start, hb, hs, hfast, hexh 2⟩

end Exploration

end BytecodeFlow
