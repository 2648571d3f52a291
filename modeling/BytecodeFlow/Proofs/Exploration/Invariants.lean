import BytecodeFlow.Proofs.Exploration.Turn

namespace BytecodeFlow.Exploration

/-- A property of progress that steps keep, whatever is counted and noted in between. -/
structure Kept (s : Setting σ) (I : Progress σ → Prop) : Prop where
  step : ∀ {n : Node} {path : Path} {p q : Progress σ} {out : Step},
    s.graph.nodes[path.node]? = some n → Stepped s n path p out q → I p → I q
  stats : ∀ {p : Progress σ} (stats : Stats), I p → I { p with stats }
  note : ∀ {p : Progress σ} (e : Event), I p → I { p with log := e :: p.log }

namespace Kept

variable {s : Setting σ} {I : Progress σ → Prop} {o : Options} {start : Frame} {p p' p₀ : Progress σ}
  {e : Exit}

theorem and {J : Progress σ → Prop} (hi : Kept s I) (hj : Kept s J) : Kept s fun p => I p ∧ J p where
  step := fun hn hs hp => ⟨hi.step hn hs hp.1, hj.step hn hs hp.2⟩
  stats := fun stats hp => ⟨hi.stats stats hp.1, hj.stats stats hp.2⟩
  note := fun e hp => ⟨hi.note e hp.1, hj.note e hp.2⟩

theorem fastTurn (hk : Kept s I) {st : Fast.State} {r : Option Fast.State}
    (h : Fast.turn s st p = .ok r p') (hp : I p) : I p' := by
  obtain ⟨n, out, q, hn, hs, ⟨stats, rfl⟩, -⟩ := Fast.turn_ok h
  exact hk.stats stats (hk.step hn (stepped_of_step hs) hp)

theorem fast (hk : Kept s I) {turns : List (Fast.State × Progress σ)}
    (h : Fast.Pass s start p turns e p') (hp : I p) : I p' :=
  (h.progress (hk.stats {} hp) fun _ _ _ _ hp ht => hk.fastTurn ht hp).1

theorem exhaustiveTurn (hk : Kept s I) {st : Exhaustive.State} {r : Option Exhaustive.State}
    (h : Exhaustive.turn s st p = .ok r p') (hp : I p) :
    (r ≠ none ∧ I p') ∨
      (r = none ∧ ∃ q, I q ∧ p' = { q with ledger := q.ledger.closeOff s.graph }) := by
  obtain ⟨n, out, q, threads, hn, hs, -, ⟨-, hr, stats, rfl⟩ | ⟨ht, hr, stats, rfl⟩⟩ :=
    Exhaustive.turn_ok h
  · exact .inr ⟨hr, _, hk.stats stats (hk.step hn (stepped_of_step hs) hp), rfl⟩
  · obtain ⟨st', hst⟩ := Exhaustive.exists_resume q.ledger.covered _ ht
    rw [hst] at hr
    exact .inl ⟨by simp [hr], hk.stats stats (hk.step hn (stepped_of_step hs) hp)⟩

theorem exhaustive (hk : Kept s I) {cutoff : Nat} {turns : List (Exhaustive.State × Progress σ)}
    (h : Exhaustive.Pass s cutoff start p turns e p') (hp : I p) :
    (e ≠ .drained ∧ I p') ∨
      (e = .drained ∧ ∃ q, I q ∧ p' = { q with ledger := q.ledger.closeOff s.graph }) := by
  have hp' := hk.stats {} hp
  rw [Exhaustive.Pass] at h
  generalize Exhaustive.initial s start = st, { p with stats := {} } = q at h hp'
  induction h with
  | stop _ hd => exact .inl ⟨hd, hp'⟩
  | drain _ ht =>
    rcases hk.exhaustiveTurn ht hp' with ⟨hr, -⟩ | ⟨-, hq⟩
    · contradiction
    · exact .inr ⟨rfl, hq⟩
  | turn _ ht _ ih =>
    rcases hk.exhaustiveTurn ht hp' with ⟨-, hq⟩ | ⟨hr, -⟩
    · exact ih hq
    · cases hr

theorem opens (hk : Kept s I) (h : Opens s o start p₀ p) (hp : I p₀) : I p := by
  cases h with
  | only _ => exact hk.note _ hp
  | fallback _ hf _ => exact hk.note _ (hk.note _ (hk.fast hf hp))

theorem noteExit (hk : Kept s I) (cutoff : Nat) (e : Exit) (hp : I p) :
    I (Exhaustive.noteExit s cutoff e p) := by
  cases e with
  | cutOff => exact hk.note (.cutOff s.method cutoff) (hk.stats { p.stats with cutOff := true } hp)
  | settled | drained => exact hp

theorem noteExhaustive (hk : Kept s I) (fallback : Bool) (hp : I p) :
    I (noteExhaustive s fallback p) :=
  hk.note (.exhaustiveDone s.method { p.stats with fallback }) (hk.stats { p.stats with fallback } hp)

end Kept

/-- The exhaustive pass of an exploration was drained, with these turns and this progress. -/
def Drains (s : Setting σ) (o : Options) (start : Frame) (p₀ : Progress σ)
    (turns : List (Exhaustive.State × Progress σ)) (q : Progress σ) : Prop :=
  ∃ p, Opens s o start p₀ p ∧ Exhaustive.Pass s o.bound start p turns .drained q

/-- An exploration settles all live nodes, is cut off, or drains its exhaustive pass. -/
theorem Kept.course {s : Setting σ} {I : Progress σ → Prop} (hk : Kept s I) {o : Options}
    {start : Frame} {p₀ p : Progress σ} (h : Course s o start p₀ p) (hp : I p₀) :
    (I p ∧ (finished s p = true ∨ p.stats.cutOff = true)) ∨
      ∃ turns q q', Drains s o start p₀ turns q ∧ I q' ∧
        q = { q' with ledger := q'.ledger.closeOff s.graph } ∧ p.ledger = q.ledger ∧
        ∃ e, p.log = e :: q.log := by
  cases h with
  | fast _ hf hfin => exact .inl ⟨hk.note _ (hk.fast hf hp), .inl hfin⟩
  | @exhaustive turns e p₁ q ho he =>
    rcases hk.exhaustive he (hk.opens ho hp) with ⟨hd, hq⟩ | ⟨rfl, q', hq', hq⟩
    · refine .inl ⟨hk.noteExhaustive _ (hk.noteExit _ _ hq), ?_⟩
      cases e with
      | settled =>
        have hf : finished s q = true := Exhaustive.finished_of_settled he
        exact .inl hf
      | cutOff => exact .inr rfl
      | drained => contradiction
    · exact .inr ⟨turns, q, q', ⟨p₁, ho, he⟩, hq', hq, rfl, _, rfl⟩

end BytecodeFlow.Exploration
