import BytecodeFlow.Exploration.Explore
import BytecodeFlow.Proofs.Exploration.Step

namespace BytecodeFlow.Exploration

/-- How a pass ends: all live nodes are settled, too many copies were made, or no path is left. -/
inductive Exit
  | settled
  | cutOff
  | drained
  deriving DecidableEq

/-- The turns of a pass from a state on, each with the state and the progress that it starts from.
`exit?` tells when to stop before the next turn. -/
inductive Turns {S : Type} (exit? : Progress σ → Option Exit) (turn : S → Run σ (Option S)) :
    S → Progress σ → List (S × Progress σ) → Exit → Progress σ → Prop
  | stop {st : S} {p : Progress σ} {e : Exit} :
    exit? p = some e → e ≠ .drained → Turns exit? turn st p [] e p
  | drain {st : S} {p p' : Progress σ} :
    exit? p = none → turn st p = .ok none p' → Turns exit? turn st p [(st, p)] .drained p'
  | turn {st st' : S} {p q p' : Progress σ} {turns : List (S × Progress σ)} {e : Exit} :
    exit? p = none → turn st p = .ok (some st') q → Turns exit? turn st' q turns e p' →
    Turns exit? turn st p ((st, p) :: turns) e p'

namespace Turns

variable {S : Type} {exit? : Progress σ → Option Exit} {turn : S → Run σ (Option S)} {st : S}
  {p p' : Progress σ} {turns : List (S × Progress σ)} {e : Exit}

theorem progress {I : Progress σ → Prop} (h : Turns exit? turn st p turns e p') (hp : I p)
    (keep : ∀ st p r p', I p → turn st p = .ok r p' → I p') :
    I p' ∧ ∀ x ∈ turns, I x.2 := by
  induction h with
  | stop _ _ => exact ⟨hp, by simp⟩
  | drain _ ht => exact ⟨keep _ _ _ _ hp ht, by simpa using hp⟩
  | turn _ ht _ ih =>
    obtain ⟨hp', hx⟩ := ih (keep _ _ _ _ hp ht)
    refine ⟨hp', ?_⟩
    simpa using ⟨hp, fun st q hq => hx _ hq⟩

/-- What holds after a turn, and is kept by the later ones, holds of every turn in the end. -/
theorem after {R : S × Progress σ → Progress σ → Prop} (h : Turns exit? turn st p turns e p')
    (now : ∀ {st p r p'}, turn st p = .ok r p' → R (st, p) p')
    (keep : ∀ {x st p r p'}, R x p → turn st p = .ok r p' → R x p') : ∀ x ∈ turns, R x p' := by
  induction h with
  | stop _ _ => simp
  | drain _ ht => simpa using now ht
  | turn _ ht hs ih =>
    intro x hx
    rcases List.mem_cons.1 hx with rfl | hx
    · exact (hs.progress (now ht) fun _ _ _ _ hr ht => keep hr ht).1
    · exact ih x hx

theorem turn_ok (h : Turns exit? turn st p turns e p') :
    ∀ x ∈ turns, ∃ r q, turn x.1 x.2 = .ok r q := by
  induction h with
  | stop _ _ => simp
  | drain _ ht => simpa using ⟨_, _, ht⟩
  | turn _ ht _ ih =>
    intro x hx
    rcases List.mem_cons.1 hx with rfl | hx
    · exact ⟨_, _, ht⟩
    · exact ih x hx

theorem exit_eq (h : Turns exit? turn st p turns e p') : e = .drained ∨ exit? p' = some e := by
  induction h with
  | stop he _ => exact .inr he
  | drain _ _ => exact .inl rfl
  | turn _ _ _ ih => exact ih

theorem mem_of_exit_eq_none (h : Turns exit? turn st p turns e p') (hp : exit? p = none) :
    (st, p) ∈ turns := by
  cases h with
  | stop he _ =>
    rw [hp] at he
    cases he
  | drain _ _ => exact List.mem_cons_self
  | turn _ _ _ => exact List.mem_cons_self

end Turns

namespace Fast

def initial (s : Setting σ) (start : Frame) : State := ⟨⟨0, start, {}⟩, [], .empty s.graph.size⟩

def exit? (s : Setting σ) (p : Progress σ) : Option Exit :=
  if finished s p then some .settled else none

def Pass (s : Setting σ) (start : Frame) (p : Progress σ) :
    List (State × Progress σ) → Exit → Progress σ → Prop :=
  Turns (exit? s) (turn s) (initial s start) { p with stats := {} }

theorem turns_of_loop {s : Setting σ} {fuel : Nat} {st : State} {p p' : Progress σ} {u : Unit}
    (h : loop s fuel st p = .ok u p') : ∃ turns e, Turns (exit? s) (turn s) st p turns e p' := by
  induction fuel generalizing st p with
  | zero => simp [loop] at h
  | succ fuel ih =>
    simp only [loop, Run.bind_eq_ok, Run.get_eq_ok] at h
    obtain ⟨_, _, ⟨rfl, rfl⟩, h⟩ := h
    by_cases hf : finished s p
    · simp only [hf, ↓reduceIte, Run.pure_eq_ok, true_and] at h
      subst h
      exact ⟨[], .settled, .stop (by simp [exit?, hf]) (by simp)⟩
    · simp only [hf, Bool.false_eq_true, ↓reduceIte, Run.bind_eq_ok] at h
      have he : exit? s p = none := by simp [exit?, hf]
      obtain ⟨r, q, ht, h⟩ := h
      cases r with
      | none =>
        simp only [Run.pure_eq_ok, true_and] at h
        subst h
        exact ⟨_, _, .drain he ht⟩
      | some st' =>
        obtain ⟨turns, e, hs⟩ := ih h
        exact ⟨_, _, .turn he ht hs⟩

theorem pass_of_run {s : Setting σ} {start : Frame} {p p' : Progress σ} {u : Unit}
    (h : run s start p = .ok u p') : ∃ turns e, Pass s start p turns e p' := by
  simp only [run, Run.bind_eq_ok, Run.count_eq_ok] at h
  obtain ⟨_, _, rfl, h⟩ := h
  exact turns_of_loop h

theorem eq_drained {s : Setting σ} {start : Frame} {p p' : Progress σ}
    {turns : List (State × Progress σ)} {e : Exit} (h : Pass s start p turns e p')
    (hf : finished s p' = false) : e = .drained := by
  rcases h.exit_eq with he | he
  · exact he
  · simp [exit?, hf] at he

end Fast

namespace Exhaustive

def initial (s : Setting σ) (start : Frame) : State :=
  ⟨.of ⟨0, start, {}⟩ (.empty s.graph.size), []⟩

def exit? (s : Setting σ) (cutoff : Nat) (p : Progress σ) : Option Exit :=
  if finished s p then some .settled else if cutoff < p.stats.copies then some .cutOff else none

def Pass (s : Setting σ) (cutoff : Nat) (start : Frame) (p : Progress σ) :
    List (State × Progress σ) → Exit → Progress σ → Prop :=
  Turns (exit? s cutoff) (turn s) (initial s start) { p with stats := {} }

def noteExit (s : Setting σ) (cutoff : Nat) (e : Exit) (p : Progress σ) : Progress σ :=
  match e with
  | .cutOff =>
    { p with stats := { p.stats with cutOff := true }, log := .cutOff s.method cutoff :: p.log }
  | _ => p

theorem finished_of_settled {s : Setting σ} {cutoff : Nat} {start : Frame} {p p' : Progress σ}
    {turns : List (State × Progress σ)} (h : Pass s cutoff start p turns .settled p') :
    finished s p' = true := by
  rcases h.exit_eq with he | he
  · cases he
  · rw [exit?] at he
    split at he
    next hf => exact hf
    next => split at he <;> cases he

theorem eq_drained {s : Setting σ} {cutoff : Nat} {start : Frame} {p p' : Progress σ}
    {turns : List (State × Progress σ)} {e : Exit} (h : Pass s cutoff start p turns e p')
    (hf : finished s p' = false) (hc : (noteExit s cutoff e p').stats.cutOff = false) :
    e = .drained := by
  cases e with
  | settled =>
    rw [finished_of_settled h] at hf
    cases hf
  | cutOff => cases hc
  | drained => rfl

theorem turns_of_loop {s : Setting σ} {cutoff fuel : Nat} {st : State} {p p' : Progress σ} {u : Unit}
    (h : loop s cutoff fuel st p = .ok u p') :
    ∃ turns e q, Turns (exit? s cutoff) (turn s) st p turns e q ∧ noteExit s cutoff e q = p' := by
  induction fuel generalizing st p with
  | zero => simp [loop] at h
  | succ fuel ih =>
    simp only [loop, Run.bind_eq_ok, Run.get_eq_ok] at h
    obtain ⟨_, _, ⟨rfl, rfl⟩, h⟩ := h
    by_cases hf : finished s p
    · simp only [hf, ↓reduceIte, Run.pure_eq_ok, true_and] at h
      subst h
      exact ⟨[], .settled, p, .stop (by simp [exit?, hf]) (by simp), rfl⟩
    · by_cases hc : cutoff < p.stats.copies
      · simp only [hf, hc, Bool.false_eq_true, ↓reduceIte, Run.bind_eq_ok, Run.count_eq_ok,
          Run.record_eq_ok] at h
        obtain ⟨_, _, rfl, h⟩ := h
        exact ⟨[], .cutOff, p, .stop (by simp [exit?, hf, hc]) (by simp), h⟩
      · simp only [hf, hc, Bool.false_eq_true, ↓reduceIte, Run.bind_eq_ok] at h
        have he : exit? s cutoff p = none := by simp [exit?, hf, hc]
        obtain ⟨r, q, ht, h⟩ := h
        cases r with
        | none =>
          simp only [Run.pure_eq_ok, true_and] at h
          subst h
          exact ⟨_, _, _, .drain he ht, rfl⟩
        | some st' =>
          obtain ⟨turns, e, q', hs, hq⟩ := ih h
          exact ⟨_, _, _, .turn he ht hs, hq⟩

theorem pass_of_run {s : Setting σ} {cutoff : Nat} {start : Frame} {p p' : Progress σ} {u : Unit}
    (h : run s cutoff start p = .ok u p') :
    ∃ turns e q, Pass s cutoff start p turns e q ∧ noteExit s cutoff e q = p' := by
  simp only [run, Run.bind_eq_ok, Run.count_eq_ok] at h
  obtain ⟨_, _, rfl, h⟩ := h
  exact turns_of_loop h

end Exhaustive

def noteFallback (s : Setting σ) (p : Progress σ) : Progress σ :=
  { p with log := .fallback s.method s.live p.ledger.accounted :: p.log }

def noteFast (s : Setting σ) (p : Progress σ) : Progress σ :=
  { p with log := .fastDone s.method p.stats :: p.log }

/-- The progress that the exhaustive pass leaves, where `fallback` tells that it was not the first. -/
def noteExhaustive (s : Setting σ) (fallback : Bool) (p : Progress σ) : Progress σ :=
  { p with
    stats := { p.stats with fallback }
    log := .exhaustiveDone s.method { p.stats with fallback } :: p.log }

/-- The progress with which an exploration comes to its exhaustive pass: at once if the options say
so, else after a fast pass that left live nodes unsettled. -/
inductive Opens (s : Setting σ) (o : Options) (start : Frame) (p₀ : Progress σ) : Progress σ → Prop
  | only : o.exhaustive = true → Opens s o start p₀ (noteFallback s p₀)
  | fallback {turns : List (Fast.State × Progress σ)} {e : Exit} {p : Progress σ} :
    o.exhaustive = false → Fast.Pass s start p₀ turns e p → finished s p = false →
    Opens s o start p₀ (noteFallback s (noteFast s p))

/-- The course of an exploration up to its last progress. -/
inductive Course (s : Setting σ) (o : Options) (start : Frame) (p₀ : Progress σ) :
    Progress σ → Prop
  | fast {turns : List (Fast.State × Progress σ)} {e : Exit} {p : Progress σ} :
    o.exhaustive = false → Fast.Pass s start p₀ turns e p → finished s p = true →
    Course s o start p₀ (noteFast s p)
  | exhaustive {turns : List (Exhaustive.State × Progress σ)} {e : Exit} {p q : Progress σ} :
    Opens s o start p₀ p → Exhaustive.Pass s o.bound start p turns e q →
    Course s o start p₀
      (noteExhaustive s (!o.exhaustive) (Exhaustive.noteExit s o.bound e q))

theorem pass_of_runFast {s : Setting σ} {start : Frame} {p p' : Progress σ} {u : Unit}
    (h : runFast s start p = .ok u p') :
    ∃ turns e q, Fast.Pass s start p turns e q ∧ noteFast s q = p' := by
  simp only [runFast, Run.bind_eq_ok, Run.get_eq_ok, Run.record_eq_ok] at h
  obtain ⟨_, q, hr, _, _, ⟨rfl, rfl⟩, rfl⟩ := h
  obtain ⟨turns, e, hp⟩ := Fast.pass_of_run hr
  exact ⟨turns, e, q, hp, rfl⟩

theorem pass_of_runExhaustive {s : Setting σ} {cutoff : Nat} {fallback : Bool} {start : Frame}
    {p p' : Progress σ} {u : Unit} (h : runExhaustive s cutoff fallback start p = .ok u p') :
    ∃ turns e q, Exhaustive.Pass s cutoff start (noteFallback s p) turns e q ∧
      noteExhaustive s fallback (Exhaustive.noteExit s cutoff e q) = p' := by
  simp only [runExhaustive, Run.bind_eq_ok, Run.get_eq_ok, Run.record_eq_ok, Run.count_eq_ok] at h
  obtain ⟨_, _, ⟨rfl, rfl⟩, _, _, rfl, _, _, hr, _, _, rfl, _, _, ⟨rfl, rfl⟩, rfl⟩ := h
  obtain ⟨turns, e, q, hp, rfl⟩ := Exhaustive.pass_of_run hr
  exact ⟨turns, e, q, hp, rfl⟩

theorem course_of_explore {s : Setting σ} {o : Options} {p₀ p : Progress σ} {r : Result}
    (h : explore s o p₀ = .ok r p) :
    ∃ start, s.method.startFrame = .ok start ∧ Course s o start p₀ p ∧
      r = result s.graph p.ledger p.stats := by
  simp only [explore, Run.bind_eq_ok, Run.ofExcept_eq_ok] at h
  obtain ⟨start, _, ⟨hs, rfl⟩, h⟩ := h
  refine ⟨start, hs, ?_⟩
  cases ho : o.exhaustive with
  | true =>
    simp only [ho, ↓reduceIte, Run.bind_eq_ok, Run.get_eq_ok, Run.pure_eq_ok] at h
    obtain ⟨_, _, hr, _, _, ⟨rfl, rfl⟩, rfl, rfl⟩ := h
    obtain ⟨turns, e, q, hp, rfl⟩ := pass_of_runExhaustive hr
    have hc := Course.exhaustive (.only ho) hp
    rw [ho] at hc
    exact ⟨hc, rfl⟩
  | false =>
    simp only [ho, Bool.false_eq_true, ↓reduceIte, Run.bind_eq_ok, Run.get_eq_ok] at h
    obtain ⟨_, _, hf, _, _, ⟨rfl, rfl⟩, h⟩ := h
    obtain ⟨turns, e, q, hp, rfl⟩ := pass_of_runFast hf
    cases hq : finished s q with
    | true =>
      have hq' : finished s (noteFast s q) = true := hq
      simp only [hq', Bool.not_true, Bool.false_eq_true, ↓reduceIte, Run.bind_eq_ok, Run.get_eq_ok,
        Run.pure_eq_ok] at h
      obtain ⟨_, _, ⟨rfl, rfl⟩, rfl, rfl⟩ := h
      exact ⟨.fast ho hp hq, rfl⟩
    | false =>
      have hq' : finished s (noteFast s q) = false := hq
      simp only [hq', Bool.not_false, ↓reduceIte, Run.bind_eq_ok, Run.get_eq_ok,
        Run.pure_eq_ok] at h
      obtain ⟨_, _, hr, _, _, ⟨rfl, rfl⟩, rfl, rfl⟩ := h
      obtain ⟨turns', e', q', hp', rfl⟩ := pass_of_runExhaustive hr
      have hc := Course.exhaustive (.fallback ho hp hq) hp'
      rw [ho] at hc
      exact ⟨hc, rfl⟩

end BytecodeFlow.Exploration
