import BytecodeFlow.Proofs.Exploration.Outcome

/-!
How a pass ends, without a bound on its turns: after some number of them it exits, or one of them fails.
The loops, which count down a bound, come to the same end if the bound exceeds that number.
-/

namespace BytecodeFlow.Exploration

namespace Run

theorem bind_of_ok {x : Run σ α} {f : α → Run σ β} {p q : Progress σ} {a : α} (h : x p = .ok a q) :
    (x >>= f) p = f a q := by
  change EStateM.bind x f p = _
  rw [EStateM.bind, h]

theorem bind_of_error {x : Run σ α} {f : α → Run σ β} {p q : Progress σ} {e : Failure}
    (h : x p = .error e q) : (x >>= f) p = .error e q := by
  change EStateM.bind x f p = _
  rw [EStateM.bind, h]

theorem get_bind {f : Progress σ → Run σ β} {p : Progress σ} : (get >>= f) p = f p p := rfl

/-- The progress that is left in the end. -/
def left : EStateM.Result Failure (Progress σ) α → Progress σ
  | .ok _ q => q
  | .error _ q => q

end Run

/-- The turns of a pass from a state on come to an end: so many are taken, and the last may fail. -/
inductive Ends {S : Type} (exit? : Progress σ → Option Exit) (turn : S → Run σ (Option S)) :
    S → Progress σ → Nat → EStateM.Result Failure (Progress σ) Exit → Prop
  | stop {st : S} {p : Progress σ} {e : Exit} :
    exit? p = some e → Ends exit? turn st p 0 (.ok e p)
  | drain {st : S} {p q : Progress σ} :
    exit? p = none → turn st p = .ok none q → Ends exit? turn st p 1 (.ok .drained q)
  | fail {st : S} {p q : Progress σ} {e : Failure} :
    exit? p = none → turn st p = .error e q → Ends exit? turn st p 1 (.error e q)
  | turn {st st' : S} {p q : Progress σ} {k : Nat} {r : EStateM.Result Failure (Progress σ) Exit} :
    exit? p = none → turn st p = .ok (some st') q → Ends exit? turn st' q k r →
    Ends exit? turn st p (k + 1) r

section

variable {S : Type} {exit? : Progress σ → Option Exit} {turn : S → Run σ (Option S)}

/-- A pass ends if each turn is one more step, and before a turn there are fewer steps than `bound`. -/
theorem exists_ends {I : S → Progress σ → Prop} {bound : Nat}
    (below : ∀ {st p}, I st p → exit? p = none → p.stats.steps < bound)
    (keep : ∀ {st st' p q}, I st p → exit? p = none → turn st p = .ok (some st') q →
      I st' q ∧ q.stats.steps = p.stats.steps + 1)
    {st : S} {p : Progress σ} (hp : I st p) (hb : p.stats.steps ≤ bound) :
    ∃ k r, Ends exit? turn st p k r ∧ p.stats.steps + k ≤ bound := by
  -- the induction is on the steps that the bound leaves
  induction hd : bound - p.stats.steps generalizing st p with
  | zero =>
    cases he : exit? p with
    | some e => exact ⟨0, _, .stop he, hb⟩
    | none =>
      have := below hp he
      omega
  | succ d ih =>
    cases he : exit? p with
    | some e => exact ⟨0, _, .stop he, hb⟩
    | none =>
      have hlt := below hp he
      cases ht : turn st p with
      | error e q => exact ⟨1, _, .fail he ht, hlt⟩
      | ok r q =>
        cases r with
        | none => exact ⟨1, _, .drain he ht, hlt⟩
        | some st' =>
          obtain ⟨hq, hs⟩ := keep hp he ht
          obtain ⟨k, r, hk, hle⟩ := ih hq (by omega) (by omega)
          exact ⟨k + 1, r, .turn he ht hk, by omega⟩

namespace Ends

variable {st : S} {p : Progress σ} {k : Nat} {r : EStateM.Result Failure (Progress σ) Exit}

theorem left {J : Progress σ → Prop} (h : Ends exit? turn st p k r) (hp : J p)
    (leaves : ∀ {st p q}, exit? p = none → (turn st).Leaves p q → J q) : J (Run.left r) := by
  induction h with
  | stop _ => exact hp
  | drain he ht => exact leaves he (.inl ⟨_, ht⟩)
  | fail he ht => exact leaves he (.inr ⟨_, ht⟩)
  | turn he ht _ ih => exact ih (leaves he (.inl ⟨_, ht⟩))

/-- The turns are within a bound that may depend on the progress that they leave, if that holds of each
turn which may be the last. -/
theorem turns_le {I : S → Progress σ → Prop} {bound : Progress σ → Nat}
    (h : Ends exit? turn st p k r) (hp : I st p)
    (stop : ∀ {st p}, I st p → p.stats.steps ≤ bound p)
    (leaves : ∀ {st p q}, I st p → exit? p = none → (turn st).Leaves p q →
      p.stats.steps < bound q)
    (keep : ∀ {st st' p q}, I st p → exit? p = none → turn st p = .ok (some st') q →
      I st' q ∧ q.stats.steps = p.stats.steps + 1) :
    p.stats.steps + k ≤ bound (Run.left r) := by
  induction h with
  | stop _ => exact stop hp
  | drain he ht => exact leaves hp he (.inl ⟨_, ht⟩)
  | fail he ht => exact leaves hp he (.inr ⟨_, ht⟩)
  | turn he ht _ ih =>
    obtain ⟨hq, hs⟩ := keep hp he ht
    have := ih hq
    omega

theorem steps_le (h : Ends exit? turn st p k r)
    (leaves : ∀ {st p q}, (turn st).Leaves p q → q.stats.steps ≤ p.stats.steps + 1) :
    (Run.left r).stats.steps ≤ p.stats.steps + k := by
  induction h with
  | stop _ => exact Nat.le_refl _
  | drain _ ht => exact leaves (.inl ⟨_, ht⟩)
  | fail _ ht => exact leaves (.inr ⟨_, ht⟩)
  | turn _ ht _ ih =>
    have := leaves (.inl ⟨_, ht⟩)
    omega

end Ends

end

namespace Fast

def outcome : EStateM.Result Failure (Progress σ) Exit → EStateM.Result Failure (Progress σ) Unit
  | .ok _ q => .ok () q
  | .error e q => .error e q

theorem exit?_eq_none {s : Setting σ} {p : Progress σ} :
    exit? s p = none ↔ ¬ finished s p = true := by
  simp [exit?]

theorem loop_of_ends {s : Setting σ} {st : State} {p : Progress σ} {k fuel : Nat}
    {r : EStateM.Result Failure (Progress σ) Exit} (h : Ends (exit? s) (turn s) st p k r)
    (hk : k < fuel) : loop s fuel st p = outcome r := by
  induction h generalizing fuel with
  | @stop st p e he =>
    obtain _ | fuel := fuel
    · contradiction
    have hf : finished s p = true := by
      cases hf : finished s p with
      | true => rfl
      | false => simp [exit?, hf] at he
    rw [loop, Run.get_bind, if_pos hf]
    rfl
  | drain he ht =>
    obtain _ | fuel := fuel
    · contradiction
    rw [loop, Run.get_bind, if_neg (exit?_eq_none.1 he), Run.bind_of_ok ht]
    rfl
  | fail he ht =>
    obtain _ | fuel := fuel
    · contradiction
    rw [loop, Run.get_bind, if_neg (exit?_eq_none.1 he), Run.bind_of_error ht]
    rfl
  | turn he ht _ ih =>
    obtain _ | fuel := fuel
    · contradiction
    rw [loop, Run.get_bind, if_neg (exit?_eq_none.1 he), Run.bind_of_ok ht]
    exact ih (Nat.lt_of_succ_lt_succ hk)

end Fast

namespace Exhaustive

def outcome (s : Setting σ) (cutoff : Nat) :
    EStateM.Result Failure (Progress σ) Exit → EStateM.Result Failure (Progress σ) Unit
  | .ok e q => .ok () (noteExit s cutoff e q)
  | .error e q => .error e q

theorem exit?_eq_none {s : Setting σ} {cutoff : Nat} {p : Progress σ} :
    exit? s cutoff p = none ↔ ¬ finished s p = true ∧ ¬ cutoff < p.stats.copies := by
  rw [exit?]
  by_cases hf : finished s p = true <;> simp [hf]

theorem loop_of_ends {s : Setting σ} {cutoff : Nat} {st : State} {p : Progress σ} {k fuel : Nat}
    {r : EStateM.Result Failure (Progress σ) Exit}
    (h : Ends (exit? s cutoff) (turn s) st p k r) (hk : k < fuel) :
    loop s cutoff fuel st p = outcome s cutoff r := by
  induction h generalizing fuel with
  | @stop st p e he =>
    obtain _ | fuel := fuel
    · contradiction
    rw [exit?] at he
    split at he
    next hf =>
      cases he
      rw [loop, Run.get_bind, if_pos hf]
      rfl
    next hf =>
      split at he
      next hc =>
        cases he
        rw [loop, Run.get_bind, if_neg hf, if_pos hc]
        rfl
      next => cases he
  | drain he ht =>
    obtain _ | fuel := fuel
    · contradiction
    obtain ⟨hf, hc⟩ := exit?_eq_none.1 he
    rw [loop, Run.get_bind, if_neg hf, if_neg hc, Run.bind_of_ok ht]
    rfl
  | fail he ht =>
    obtain _ | fuel := fuel
    · contradiction
    obtain ⟨hf, hc⟩ := exit?_eq_none.1 he
    rw [loop, Run.get_bind, if_neg hf, if_neg hc, Run.bind_of_error ht]
    rfl
  | turn he ht _ ih =>
    obtain _ | fuel := fuel
    · contradiction
    obtain ⟨hf, hc⟩ := exit?_eq_none.1 he
    rw [loop, Run.get_bind, if_neg hf, if_neg hc, Run.bind_of_ok ht]
    exact ih (Nat.lt_of_succ_lt_succ hk)

end Exhaustive

end BytecodeFlow.Exploration
