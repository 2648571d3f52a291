import BytecodeFlow.Proofs.Exploration.Paths

/-!
What histories mean. A node that is recorded at another has been taken up by a turn of the pass, and
turns lead from it to the other, one after another. Histories are shared, copied and merged between
paths that have nothing to do with each other, so this is said of the turns of all paths together.
-/

namespace BytecodeFlow.Exploration

open History

/-- What is recorded at a node has run, and links lead from it to the node. -/
structure Grounded (n : Nat) (ran : Nat → Prop) (link : Nat → Nat → Prop) (h : History Nat) :
    Prop where
  size : h.size = n
  seen : ∀ {m x : Nat}, x ∈ h.seenAt m → ran x ∧ Relation.ReflTransGen link x m

namespace Grounded

variable {n : Nat} {ran : Nat → Prop} {link : Nat → Nat → Prop} {h : History Nat}

theorem empty (n : Nat) (ran : Nat → Prop) (link : Nat → Nat → Prop) :
    Grounded n ran link (.empty n) :=
  ⟨size_empty n, fun hx => absurd hx not_mem_seenAt_empty⟩

theorem mono (hg : Grounded n ran link h) {ran' : Nat → Prop} {link' : Nat → Nat → Prop}
    (hran : ∀ i, ran i → ran' i) (hlink : ∀ i j, link i j → link' i j) :
    Grounded n ran' link' h :=
  ⟨hg.size, fun hx => (hg.seen hx).imp (hran _) (Relation.ReflTransGen.mono hlink _ _)⟩

theorem copy (hg : Grounded n ran link h) : Grounded n ran link h.copy := ⟨hg.size, hg.seen⟩

theorem markIf (hg : Grounded n ran link h) (b : Bool) :
    Grounded n ran link (Exhaustive.markIf b h) :=
  ⟨by rw [Exhaustive.size_markIf, hg.size], fun hx => hg.seen (by simpa using hx)⟩

theorem add (hg : Grounded n ran link h) {node : Nat} (hran : ran node) :
    Grounded n ran link (h.add node node).2 := by
  refine ⟨(size_add _ _ _).trans hg.size, fun hx => ?_⟩
  rcases mem_seenAt_add.1 hx with hx | ⟨rfl, -, rfl⟩
  · exact hg.seen hx
  · exact ⟨hran, .refl⟩

theorem addAll (hg : Grounded n ran link h) {node source : Nat} (hlink : link source node) :
    Grounded n ran link (h.addAll node source).2 := by
  refine ⟨(size_addAll _ _ _).trans hg.size, fun hx => ?_⟩
  rcases mem_seenAt_addAll.1 hx with hx | ⟨rfl, -, hx⟩
  · exact hg.seen hx
  · exact ⟨(hg.seen hx).1, (hg.seen hx).2.tail hlink⟩

/-- To a handler leads what is recorded at the thrower, and the thrower itself, which has no record of its
own yet when handlers are entered. -/
theorem enter (hg : Grounded n ran link h) {entry thrower : Nat} (hran : ran thrower)
    (hlink : link thrower entry) : Grounded n ran link (enter h entry thrower).2 := by
  refine ⟨(size_enter _ _ _).trans hg.size, fun hx => ?_⟩
  rcases mem_seenAt_enter.1 hx with hx | ⟨rfl, -, hx | rfl⟩
  · exact hg.seen hx
  · exact ⟨(hg.seen hx).1, (hg.seen hx).2.tail hlink⟩
  · exact ⟨hran, .single hlink⟩

theorem merge (hg : Grounded n ran link h) {other : History Nat} (ho : Grounded n ran link other) :
    Grounded n ran link (h.merge other) := by
  have hsize : other.size = h.size := ho.size.trans hg.size.symm
  refine ⟨(size_merge hsize).trans hg.size, fun hx => ?_⟩
  rcases (mem_seenAt_merge hsize).1 hx with hx | hx
  · exact hg.seen hx
  · exact ho.seen hx

end Grounded

section Turns

variable {S : Type} (exit? : Progress σ → Option Exit) (turn : S → Run σ (Option S))

/-- A turn that a pass has taken on the way from one state to another. -/
def Taken (x y z : S × Progress σ) : Prop :=
  Reached exit? turn x z ∧
    Relation.TransGen (fun a b => exit? a.2 = none ∧ turn a.1 a.2 = .ok (some b.1) b.2) z y

/-- The nodes that these turns took up. -/
def Ran (v : View S) (x y : S × Progress σ) (i : Nat) : Prop :=
  ∃ z, Taken exit? turn x y z ∧ (v.current z.1).node = i

/-- The links that these turns followed: to successors, and to the handlers of nodes that throw. -/
def Followed (s : Setting σ) (v : View S) (x y : S × Progress σ) (i j : Nat) : Prop :=
  ∃ z, Taken exit? turn x y z ∧ (v.current z.1).node = i ∧ Leads s (v.current z.1) z.2 j

/-- Turns that keep the histories of a state grounded, given that the current node runs and what it
leads to is linked. -/
def KeepsGrounded (s : Setting σ) (v : View S) (histories : S → List (History Nat)) : Prop :=
  ∀ {st st' p p' ran link}, turn st p = .ok (some st') p' → ran (v.current st).node →
    (∀ t, Leads s (v.current st) p t → link (v.current st).node t) →
    (∀ h ∈ histories st, Grounded s.graph.size ran link h) →
    ∀ h ∈ histories st', Grounded s.graph.size ran link h

variable {exit? : Progress σ → Option Exit} {turn : S → Run σ (Option S)} {s : Setting σ}
  {v : View S} {histories : S → List (History Nat)} {x y z : S × Progress σ}

theorem Reached.grounded (hturn : KeepsGrounded turn s v histories) (h : Reached exit? turn x y)
    (hx : ∀ h ∈ histories x.1, h = .empty s.graph.size) :
    ∀ h ∈ histories y.1,
      Grounded s.graph.size (Ran exit? turn v x y) (Followed exit? turn s v x y) h := by
  induction h with
  | refl =>
    intro h hh
    rw [hx h hh]
    exact .empty _ _ _
  | @tail y z hy ht ih =>
    have hlater {w : S × Progress σ} (hw : Taken exit? turn x y w) : Taken exit? turn x z w :=
      ⟨hw.1, hw.2.tail ht⟩
    have hnow : Taken exit? turn x z y := ⟨hy, .single ht⟩
    refine hturn ht.2 ⟨y, hnow, rfl⟩ (fun t hl => ⟨y, hnow, rfl, hl⟩) fun h hh => ?_
    refine (ih h hh).mono ?_ ?_
    · rintro i ⟨w, hw, hi⟩
      exact ⟨w, hlater hw, hi⟩
    · rintro i j ⟨w, hw, hi, hl⟩
      exact ⟨w, hlater hw, hi, hl⟩

end Turns

section

variable {n : Nat} {ran : Nat → Prop} {link : Nat → Nat → Prop}

namespace Fast

theorem grounded_entering {path : Path} {hds : List Handler} (waiting : List Path)
    {h : History Nat} (hg : Grounded n ran link h) (hran : ran path.node)
    (hlink : ∀ hd ∈ hds, link path.node hd.entry) :
    Grounded n ran link (entering path hds waiting h).2 := by
  induction hds generalizing waiting h with
  | nil => exact hg
  | cons hd rest ih =>
    have henter := hg.enter hran (hlink hd List.mem_cons_self)
    have hrest : ∀ hd ∈ rest, link path.node hd.entry :=
      fun hd hh => hlink hd (List.mem_cons_of_mem _ hh)
    rw [entering]
    cases he : enter h hd.entry path.node with
    | mk grew h' =>
      rw [he] at henter
      cases grew with
      | true => exact ih _ henter hrest
      | false => exact ih _ henter hrest

theorem grounded_queueTargets {source : Nat} {frame : Frame} {trace : Trace} {targets : List Nat}
    {waiting : List Path} {h : History Nat} (hg : Grounded n ran link h)
    (hlink : ∀ t ∈ targets, link source t) :
    Grounded n ran link (queueTargets source frame trace targets waiting h).2 := by
  induction targets with
  | nil => exact hg
  | cons t ts ih =>
    have hadd := (ih fun u hu => hlink u (List.mem_cons_of_mem _ hu)).addAll
      (hlink t List.mem_cons_self)
    rw [queueTargets, List.foldr_cons, ← queueTargets]
    cases hr : queueTargets source frame trace ts waiting h with
    | mk waiting' h' =>
      rw [hr] at hadd
      cases ha : h'.addAll t source with
      | mk grew h'' =>
        rw [ha] at hadd
        simp only [ha]
        cases grew with
        | true => exact hadd
        | false => exact hadd

theorem history_of_takeUp {q : List Path × History Nat} {st : State} (h : takeUp q = some st) :
    st.history = q.2 := by
  obtain ⟨waiting, hist⟩ := q
  cases waiting with
  | nil => cases h
  | cons next rest =>
    cases h
    rfl

theorem keepsGrounded (s : Setting σ) :
    KeepsGrounded (turn s) s view fun st => [st.history] := by
  intro st st' p p' ran link h hran hlink hg
  simp only [List.mem_singleton, forall_eq] at hg ⊢
  obtain ⟨n, out, q, hn, hs, -, hr⟩ := turn_ok h
  have henter := grounded_entering st.waiting hg hran fun hd hh => hlink _ (.handler hn hh)
  rw [history_of_takeUp hr.symm]
  cases out with
  | cut proven => exact henter
  | advance targets frame trace unproven =>
    exact grounded_queueTargets (henter.add hran) fun t ht => hlink t (.target hn hs ht)

end Fast

namespace Exhaustive

theorem grounded_handlerThreads {t u : Thread} {hds : List Handler}
    (hg : Grounded n ran link t.history) (hran : ran t.path.node)
    (hlink : ∀ hd ∈ hds, link t.path.node hd.entry) (hu : u ∈ handlerThreads t hds) :
    Grounded n ran link u.history := by
  obtain ⟨hd, hh, -, rfl⟩ := mem_handlerThreads.1 hu
  exact hg.copy.enter hran (hlink hd hh)

theorem grounded_onward_snd {t : Thread} {out : Step} (hg : Grounded n ran link t.history)
    (hran : ran t.path.node) : Grounded n ran link (onward t out).2 := by
  cases out with
  | cut => exact hg.markIf _
  | advance => exact (hg.add hran).markIf _

theorem grounded_branches {source : Nat} {frame : Frame} {trace : Trace} {targets : List Nat}
    {h : History Nat} {u : Thread} (hg : Grounded n ran link h)
    (hlink : ∀ t ∈ targets, link source t) (hu : u ∈ branches source frame trace h targets) :
    Grounded n ran link u.history := by
  obtain ⟨t, ht, h', rfl | rfl, rfl⟩ := mem_branches hu
  · exact hg.addAll (hlink t ht)
  · exact hg.copy.addAll (hlink t ht)

theorem grounded_resume {covered : NodeSet} {threads : List Thread} {e : Option (History Nat)}
    {st : State} (h : resume covered threads e = some st)
    (hg : ∀ u ∈ threads, Grounded n ran link u.history)
    (he : ∀ h ∈ e, Grounded n ran link h) :
    ∀ u ∈ st.current :: st.waiting, Grounded n ran link u.history := by
  obtain ⟨t, ht, -, hist, hsub, -⟩ := resume_eq_some h
  intro u hu
  rcases List.mem_cons.1 hu with rfl | hu
  · rcases hist with hist | ⟨h', hh, hist⟩
    · exact hist ▸ hg t ht
    · exact hist ▸ (hg t ht).merge (he h' hh)
  · exact hg u (hsub u hu)

def histories (st : State) : List (History Nat) := (st.current :: st.waiting).map Thread.history

theorem keepsGrounded (s : Setting σ) : KeepsGrounded (turn s) s view histories := by
  intro st st' p p' ran link h hran hlink hg
  simp only [histories, List.forall_mem_map] at hg ⊢
  have hcurrent := hg _ List.mem_cons_self
  obtain ⟨n, out, q, threads, hn, hs, hw, ⟨-, hr, -⟩ | ⟨-, hr, -⟩⟩ := turn_ok h
  · cases hr
  refine grounded_resume hr.symm (fun u hu => ?_) fun h hh => ?_
  · rw [hw, List.mem_append, mem_queueLast] at hu
    rcases hu with hu | hu | hu
    · cases out with
      | cut => cases hu
      | advance =>
        exact grounded_branches ((hcurrent.add hran).markIf _)
          (fun t ht => hlink t (.target hn hs ht)) hu
    · exact hg u (List.mem_cons_of_mem _ hu)
    · exact grounded_handlerThreads hcurrent hran (fun hd hh => hlink _ (.handler hn hh)) hu
  · rw [eq_of_mem_ended hh]
    exact grounded_onward_snd hcurrent hran

end Exhaustive

end

/-- In every state of either pass, a node that some history has recorded at another was taken up by
a turn on the way to that state, and is the other or leads to it by links that such turns followed. -/
theorem recorded_nodes_lead (s : Setting σ) (start : Frame) (p : Progress σ) :
    (∀ y, Reached (Fast.exit? s) (Fast.turn s) (Fast.initial s start, p) y →
      ∀ m x, x ∈ y.1.history.seenAt m →
        Ran (Fast.exit? s) (Fast.turn s) Fast.view (Fast.initial s start, p) y x ∧
        Relation.ReflTransGen
          (Followed (Fast.exit? s) (Fast.turn s) s Fast.view (Fast.initial s start, p) y) x m) ∧
    ∀ cutoff y,
      Reached (Exhaustive.exit? s cutoff) (Exhaustive.turn s) (Exhaustive.initial s start, p) y →
      ∀ t ∈ y.1.current :: y.1.waiting, ∀ m x, x ∈ t.history.seenAt m →
        Ran (Exhaustive.exit? s cutoff) (Exhaustive.turn s) Exhaustive.view
          (Exhaustive.initial s start, p) y x ∧
        Relation.ReflTransGen
          (Followed (Exhaustive.exit? s cutoff) (Exhaustive.turn s) s Exhaustive.view
            (Exhaustive.initial s start, p) y) x m := by
  refine ⟨fun y hy m x hx => ?_, fun cutoff y hy t ht m x hx => ?_⟩
  · exact (hy.grounded (Fast.keepsGrounded s) (by simp [Fast.initial]) _ List.mem_cons_self).seen hx
  · exact (hy.grounded (Exhaustive.keepsGrounded s)
      (by simp [Exhaustive.histories, Exhaustive.initial]) _ (List.mem_map_of_mem ht)).seen hx

/-- The state after a number of turns. -/
def after? {S : Type} (exit? : Progress σ → Option Exit) (turn : S → Run σ (Option S)) :
    Nat → S × Progress σ → Option (S × Progress σ)
  | 0, x => some x
  | k + 1, x =>
    match exit? x.2, turn x.1 x.2 with
    | none, .ok (some st) p => after? exit? turn k (st, p)
    | _, _ => none

theorem reached_of_after? {S : Type} {exit? : Progress σ → Option Exit}
    {turn : S → Run σ (Option S)} {k : Nat} {x y : S × Progress σ}
    (h : after? exit? turn k x = some y) : Reached exit? turn x y := by
  induction k generalizing x with
  | zero =>
    cases h
    exact .refl
  | succ k ih =>
    rw [after?] at h
    split at h
    next hexit hturn => exact .head ⟨hexit, hturn⟩ (ih h)
    · cases h

theorem recorded_nodes_lead_caughtNull :
    (∃ y, Reached (Fast.exit? caughtNullSetting) (Fast.turn caughtNullSetting)
        (Fast.initial caughtNullSetting ⟨[], []⟩, ⟨{}, {}, (), []⟩) y ∧
      0 ∈ y.1.history.seenAt 3 ∧
      Relation.ReflTransGen (Followed (Fast.exit? caughtNullSetting) (Fast.turn caughtNullSetting)
        caughtNullSetting Fast.view
        (Fast.initial caughtNullSetting ⟨[], []⟩, ⟨{}, {}, (), []⟩) y) 0 3) ∧
    ∃ y, Reached (Exhaustive.exit? caughtNullSetting 9) (Exhaustive.turn caughtNullSetting)
        (Exhaustive.initial caughtNullSetting ⟨[], []⟩, ⟨{}, {}, (), []⟩) y ∧
      0 ∈ y.1.current.history.seenAt 3 ∧
      Relation.ReflTransGen (Followed (Exhaustive.exit? caughtNullSetting 9)
        (Exhaustive.turn caughtNullSetting) caughtNullSetting Exhaustive.view
        (Exhaustive.initial caughtNullSetting ⟨[], []⟩, ⟨{}, {}, (), []⟩) y) 0 3 := by
  obtain ⟨hfast, hexhaustive⟩ := recorded_nodes_lead caughtNullSetting ⟨[], []⟩ ⟨{}, {}, (), []⟩
  constructor
  · have h : (after? (Fast.exit? caughtNullSetting) (Fast.turn caughtNullSetting) 2
        (Fast.initial caughtNullSetting ⟨[], []⟩, ⟨{}, {}, (), []⟩)).any
          (·.1.history.contains 3 0) := by decide +kernel
    obtain ⟨y, hy, h⟩ := (Option.any_eq_true _ _).1 h
    have hseen := OrderedSet.contains_iff.1 h
    exact ⟨y, reached_of_after? hy, hseen, (hfast y (reached_of_after? hy) 3 0 hseen).2⟩
  · have h : (after? (Exhaustive.exit? caughtNullSetting 9) (Exhaustive.turn caughtNullSetting) 2
        (Exhaustive.initial caughtNullSetting ⟨[], []⟩, ⟨{}, {}, (), []⟩)).any
          (·.1.current.history.contains 3 0) := by decide +kernel
    obtain ⟨y, hy, h⟩ := (Option.any_eq_true _ _).1 h
    have hseen := OrderedSet.contains_iff.1 h
    exact ⟨y, reached_of_after? hy, hseen,
      (hexhaustive 9 y (reached_of_after? hy) _ List.mem_cons_self 3 0 hseen).2⟩

end BytecodeFlow.Exploration
