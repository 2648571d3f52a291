import BytecodeFlow.Method

namespace BytecodeFlow

/-- An instruction that a machine defines, with the operands that it needs. -/
structure Instruction.Complete (instr : Instruction) : Prop where
  valid : instr.op.valid = true
  notWide : instr.operation ≠ .wide
  operands : instr.missingOperand? = none

namespace Method

theorem instructionDefect?_eq_none {i : Nat} {prev : Int} {l : List Instruction} :
    instructionDefect? i prev l = none ↔
      (∀ x ∈ l, x.Complete) ∧ (∀ x ∈ l, prev < x.offset) ∧
        l.Pairwise fun a b => a.offset < b.offset := by
  induction l generalizing i prev with
  | nil => simp [instructionDefect?]
  | cons a l ih =>
    rw [instructionDefect?, List.pairwise_cons]
    simp only [List.forall_mem_cons]
    split
    next hop =>
      simp only [reduceCtorEq, false_iff]
      rintro ⟨⟨ha, -⟩, -⟩
      simp [ha.valid, ha.notWide] at hop
    next hop =>
      simp only [Bool.or_eq_true, Bool.not_eq_true', decide_eq_true_eq, not_or,
        Bool.not_eq_false] at hop
      split
      next hle =>
        simp only [reduceCtorEq, false_iff]
        rintro ⟨-, ⟨hlt, -⟩, -⟩
        omega
      next hlt =>
        split
        next cause hm =>
          simp only [reduceCtorEq, false_iff]
          rintro ⟨⟨ha, -⟩, -⟩
          cases hm.symm.trans ha.operands
        next hm =>
          rw [ih]
          constructor
          · rintro ⟨hall, hafter, hpair⟩
            refine ⟨⟨⟨hop.1, hop.2, hm⟩, hall⟩, ⟨by omega, fun x hx => ?_⟩, hafter, hpair⟩
            have := hafter x hx
            omega
          · rintro ⟨⟨-, hall⟩, -, hafter, hpair⟩
            exact ⟨hall, hafter, hpair⟩

theorem handlerDefect?_eq_none {n : Nat} {ps : List Protection} :
    handlerDefect? n ps = none ↔ ∀ p ∈ ps, p.first < p.last := by
  induction ps generalizing n with
  | nil => simp [handlerDefect?]
  | cons p ps ih =>
    rw [handlerDefect?, List.forall_mem_cons]
    split
    next hle => simp [Int.not_lt.2 hle]
    next hlt => rw [ih, and_iff_right (Int.not_le.1 hlt)]

theorem handlerDefect?_eq_some {n : Nat} {ps : List Protection} {d : Defect} :
    handlerDefect? n ps = some d ↔
      ∃ k p, ps[k]? = some p ∧ p.last ≤ p.first ∧ d = .emptyRange (n + k) p.first p.last ∧
        ∀ j < k, ∀ q, ps[j]? = some q → q.first < q.last := by
  induction ps generalizing n with
  | nil => simp [handlerDefect?]
  | cons p ps ih =>
    rw [handlerDefect?]
    split
    next hle =>
      constructor
      · intro h
        cases h
        exact ⟨0, p, rfl, hle, rfl, fun j hj => absurd hj (Nat.not_lt_zero j)⟩
      · rintro ⟨k, q, hq, -, rfl, hbefore⟩
        cases k with
        | zero =>
          cases hq
          rfl
        | succ k =>
          have := hbefore 0 (Nat.succ_pos k) p rfl
          omega
    next hlt =>
      rw [ih]
      constructor
      · rintro ⟨k, q, hq, hle, rfl, hbefore⟩
        refine ⟨k + 1, q, hq, hle, by rw [Nat.add_right_comm, Nat.add_assoc], fun j hj r hr => ?_⟩
        cases j with
        | zero =>
          cases hr
          omega
        | succ j => exact hbefore j (by omega) r hr
      · rintro ⟨k, q, hq, hle, rfl, hbefore⟩
        cases k with
        | zero =>
          cases hq
          exact absurd hle hlt
        | succ k =>
          refine ⟨k, q, hq, hle, by rw [Nat.add_right_comm, Nat.add_assoc], fun j hj r hr => ?_⟩
          exact hbefore (j + 1) (by omega) r hr

theorem instructionDefect?_of_defect? {m : Method} (h : m.defect? = none) :
    instructionDefect? 0 (-1) m.code.instructions = none := by
  rw [defect?] at h
  split at h
  · cases h
  · exact (Option.or_eq_none_iff.1 h).1

theorem defect?_eq_some {m : Method} {d : Defect}
    (h : instructionDefect? 0 (-1) m.code.instructions = none) :
    m.defect? = some d ↔ (m.code.instructions = [] ∧ d = .noCode) ∨
      (m.code.instructions ≠ [] ∧ handlerDefect? 0 m.code.handlers = some d) := by
  rw [defect?, h, Option.none_or]
  split
  next hempty => simp [List.isEmpty_iff.1 hempty, eq_comm]
  next hcode => simp [mt List.isEmpty_iff.2 hcode]

theorem complete_of_defect? {m : Method} (h : m.defect? = none) :
    ∀ instr ∈ m.code.instructions, instr.Complete :=
  (instructionDefect?_eq_none.1 (instructionDefect?_of_defect? h)).1

theorem offsets_increase {m : Method} (h : m.defect? = none) :
    m.code.instructions.Pairwise fun a b => a.offset < b.offset :=
  (instructionDefect?_eq_none.1 (instructionDefect?_of_defect? h)).2.2

end Method

end BytecodeFlow
