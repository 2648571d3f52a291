import BytecodeFlow.Proofs.Graph.Layout
import BytecodeFlow.Proofs.Pointwise

namespace BytecodeFlow

/-- The operands without which some instructions mean nothing. -/
inductive Operand
  | member
  | constant
  | className
  | arrayType
  deriving DecidableEq

/-- The opcodes that need an operand. -/
def Operand.opcodes : Operand → List Nat
  -- the accesses to fields and the invocations
  | member => [178, 179, 180, 181, 182, 183, 184, 185, 186]
  -- the three forms of `ldc`
  | constant => [18, 19, 20]
  -- `new`, `anewarray`, `checkcast`, `instanceof` and `multianewarray`
  | className => [187, 189, 192, 193, 197]
  -- `newarray`
  | arrayType => [188]

namespace Instruction

def Carries (i : Instruction) : Operand → Prop
  | .member => i.member ≠ none
  | .constant => i.constant ≠ none
  | .className => i.className ≠ ""
  | .arrayType => 4 ≤ i.arrayType.code.toNat ∧ i.arrayType.code.toNat ≤ 11

/-- The last opcode is 201, and 196 only marks a wide form of the next one. -/
structure WellFormed (i : Instruction) : Prop where
  defined : i.op.code.toNat ≤ 201
  notWide : i.op.code.toNat ≠ 196
  operands : ∀ o : Operand, i.op.code.toNat ∈ o.opcodes → i.Carries o

def FallsThrough (i : Instruction) : Prop :=
  i.op.flow = .next ∨ i.op.flow = .branch ∨ i.op.flow = .jsr

def Jumps (i : Instruction) : Prop :=
  i.op.flow = .goto ∨ i.op.flow = .branch ∨ i.op.flow = .jsr ∨ i.op.flow = .switch

end Instruction

namespace Code

def HasOffset (c : Code) (offset : Int) : Prop := ∃ i ∈ c.instructions, i.offset = offset

structure WellFormed (c : Code) : Prop where
  nonempty : c.instructions ≠ []
  instructions : ∀ i ∈ c.instructions, i.WellFormed
  nonneg : ∀ i ∈ c.instructions, 0 ≤ i.offset
  increasing : c.instructions.Pairwise fun i j => i.offset < j.offset
  ranges : ∀ p ∈ c.handlers, p.first < p.last
  targets : ∀ i ∈ c.instructions, i.Jumps → c.HasOffset i.target
  cases : ∀ i ∈ c.instructions, i.op.flow = .switch → ∀ k ∈ i.cases, c.HasOffset k.target
  entries : ∀ p ∈ c.handlers, c.HasOffset p.entry
  last : ∀ i, c.instructions.getLast? = some i → ¬ i.FallsThrough

end Code

/-- The operand that an operation is about. -/
def Operation.operand? : Operation → Option Operand
  | .getStatic | .putStatic | .getField | .putField | .invoke _ => some .member
  | .constant _ => some .constant
  | .new | .newObjectArray | .checkCast | .instanceOf | .newMultiArray => some .className
  | .newArray => some .arrayType
  | _ => none

namespace Opcode

variable {op : Opcode}

theorem valid_iff : op.valid = true ↔ op.code.toNat ≤ 201 := by
  have hsize : names.size = 202 := by decide +kernel
  rw [valid, decide_eq_true_iff, hsize]
  exact Nat.lt_succ_iff

theorem operation_eq_wide : op.operation = .wide ↔ op.code.toNat = 196 := by
  have all : ∀ c : Fin 256, operationAt c = .wide ↔ c.val = 196 := by decide +kernel
  exact all op.code.toFin

theorem operand?_operation {o : Operand} :
    op.operation.operand? = some o ↔ op.code.toNat ∈ o.opcodes := by
  have all : ∀ c : Fin 256, ∀ o ∈ [Operand.member, .constant, .className, .arrayType],
      (operationAt c).operand? = some o ↔ c.val ∈ o.opcodes := by decide +kernel
  exact all op.code.toFin o (by cases o <;> decide)

end Opcode

theorem ArrayType.valid_iff (a : ArrayType) :
    a.valid = true ↔ 4 ≤ a.code.toNat ∧ a.code.toNat ≤ 11 := by
  simp only [valid, table, List.any_cons, List.any_nil, Bool.or_false, Bool.or_eq_true, beq_iff_eq,
    ← UInt8.toNat_inj, UInt8.reduceToNat]
  omega

namespace Instruction

variable {i : Instruction}

theorem missingOperand?_eq_none :
    i.missingOperand? = none ↔ ∀ o, i.operation.operand? = some o → i.Carries o := by
  rw [missingOperand?]
  cases i.operation <;> simp [Operation.operand?, Carries, ArrayType.valid_iff]

theorem complete_iff : i.Complete ↔ i.WellFormed := by
  constructor
  · intro h
    refine ⟨Opcode.valid_iff.1 h.valid, mt Opcode.operation_eq_wide.2 h.notWide, fun o ho => ?_⟩
    exact missingOperand?_eq_none.1 h.operands o (Opcode.operand?_operation.2 ho)
  · intro h
    refine ⟨Opcode.valid_iff.2 h.defined, mt Opcode.operation_eq_wide.1 h.notWide, ?_⟩
    exact missingOperand?_eq_none.2 fun o ho => h.operands o (Opcode.operand?_operation.1 ho)

end Instruction

namespace Method

theorem defect?_eq_none {m : Method} :
    m.defect? = none ↔ m.code.instructions ≠ [] ∧ (∀ i ∈ m.code.instructions, i.WellFormed) ∧
      (∀ i ∈ m.code.instructions, 0 ≤ i.offset) ∧
      (m.code.instructions.Pairwise fun i j => i.offset < j.offset) ∧
      ∀ p ∈ m.code.handlers, p.first < p.last := by
  rw [defect?]
  split
  next hempty => simp [List.isEmpty_iff.1 hempty]
  next hcode =>
    rw [Option.or_eq_none_iff, instructionDefect?_eq_none, handlerDefect?_eq_none, and_assoc, and_assoc]
    simp only [Instruction.complete_iff]
    exact (and_iff_right (mt List.isEmpty_iff.2 hcode)).symm

end Method

namespace Graph

variable {c : Code} {instr : Instruction} {i : Nat}

theorem exists_nodeAt?_eq_some {offset : Int} :
    (∃ t, nodeAt? c offset = some t) ↔ c.HasOffset offset := by
  rw [← Option.isSome_iff_exists, nodeAt?, List.findIdx?_isSome]
  simp [Code.HasOffset]

theorem exists_targetNode_eq_ok {offset : Int} :
    (∃ t, targetNode c instr offset = .ok t) ↔ c.HasOffset offset := by
  simp only [targetNode_eq_ok, exists_nodeAt?_eq_some]

theorem exists_nextNode_eq_ok :
    (∃ t, nextNode c i instr = .ok t) ↔ i + 1 < c.instructions.length := by
  simp [nextNode_eq_ok]

theorem exists_entryOf_eq_ok {p : Protection} {k : Nat} :
    (∃ x, entryOf c p k = .ok x) ↔ c.HasOffset p.entry := by
  rw [← exists_nodeAt?_eq_some, entryOf]
  cases nodeAt? c p.entry <;> simp

theorem exists_both_eq_ok :
    (∃ ts, flowOf.both c instr i = .ok ts) ↔
      i + 1 < c.instructions.length ∧ c.HasOffset instr.target := by
  simp only [flowOf.both, exists_bind_eq_ok, pure_eq_ok, exists_eq', and_true,
    exists_targetNode_eq_ok, exists_and_right, exists_nextNode_eq_ok]

theorem exists_flowOf_eq_ok :
    (∃ ts, flowOf c instr i = .ok ts) ↔ (instr.Jumps → c.HasOffset instr.target) ∧
      (instr.op.flow = .switch → ∀ k ∈ instr.cases, c.HasOffset k.target) ∧
      (instr.FallsThrough → i + 1 < c.instructions.length) := by
  rw [flowOf, Instruction.Jumps, Instruction.FallsThrough]
  cases hf : instr.op.flow with
  | leave | throw | ret => simp
  | goto => simp [exists_bind_eq_ok, exists_targetNode_eq_ok, -bind_pure_comp]
  | branch | jsr => simp [exists_both_eq_ok, and_comm]
  | switch =>
    simp [exists_bind_eq_ok, exists_mapM_eq_ok, exists_targetNode_eq_ok, Instruction.targets, hf,
      -bind_pure_comp, -List.mapM_cons, -List.mapM_map]
  | next => simp [exists_bind_eq_ok, exists_nextNode_eq_ok, -bind_pure_comp]

/-- Control stays inside if it does not fall through at the last instruction. -/
theorem fallsThrough_inside :
    (∀ {i : Nat} {instr : Instruction}, c.instructions[i]? = some instr → instr.FallsThrough →
      i + 1 < c.instructions.length) ↔
    ∀ instr, c.instructions.getLast? = some instr → ¬ instr.FallsThrough := by
  constructor
  · intro h instr hlast hfalls
    rw [List.getLast?_eq_getElem?] at hlast
    have := h hlast hfalls
    omega
  · intro h i instr hi hfalls
    have hlt := (List.getElem?_eq_some_iff.1 hi).1
    refine Nat.lt_of_le_of_ne hlt fun heq => h instr ?_ hfalls
    rw [List.getLast?_eq_getElem?, ← heq]
    exact hi

theorem exists_wire_eq_ok :
    (∃ w, wire c = .ok w) ↔
      (∀ instr ∈ c.instructions, instr.Jumps → c.HasOffset instr.target) ∧
      (∀ instr ∈ c.instructions, instr.op.flow = .switch →
        ∀ k ∈ instr.cases, c.HasOffset k.target) ∧
      (∀ p ∈ c.handlers, c.HasOffset p.entry) ∧
      ∀ instr, c.instructions.getLast? = some instr → ¬ instr.FallsThrough := by
  simp only [wire, exists_bind_eq_ok, exists_mapM_eq_ok, pure_eq_ok, exists_eq', and_true,
    exists_and_right, Prod.forall, List.mk_mem_zipIdx_iff_getElem?, exists_entryOf_eq_ok,
    exists_flowOf_eq_ok]
  constructor
  · rintro ⟨hflow, hentries⟩
    refine ⟨fun instr hi => ?_, fun instr hi => ?_, fun p hp => ?_, ?_⟩
    · obtain ⟨i, hi⟩ := List.getElem?_of_mem hi
      exact (hflow instr i hi).1
    · obtain ⟨i, hi⟩ := List.getElem?_of_mem hi
      exact (hflow instr i hi).2.1
    · obtain ⟨k, hk⟩ := List.getElem?_of_mem hp
      exact hentries p k hk
    · exact fallsThrough_inside.1 fun hi => (hflow _ _ hi).2.2
  · rintro ⟨htargets, hcases, hentries, hlast⟩
    refine ⟨fun instr i hi => ?_, fun p k hk => hentries p (List.mem_of_getElem? hk)⟩
    have hmem := List.mem_of_getElem? hi
    exact ⟨htargets instr hmem, hcases instr hmem, fallsThrough_inside.2 hlast hi⟩

theorem exists_build_eq_ok {m : Method} :
    (∃ g, build m = .ok g) ↔ m.defect? = none ∧ ∃ w, wire m.code = .ok w := by
  rw [build]
  cases m.defect? with
  | some d => simp
  | none => simp [exists_bind_eq_ok, -bind_pure_comp]

/-- A method has a flow graph if and only if its code is well formed. -/
theorem builds_iff_wellFormed (m : Method) : (∃ g, build m = .ok g) ↔ m.code.WellFormed := by
  rw [exists_build_eq_ok, Method.defect?_eq_none, exists_wire_eq_ok]
  constructor
  · rintro ⟨⟨hne, hall, hnonneg, hincr, hranges⟩, htargets, hcases, hentries, hlast⟩
    exact ⟨hne, hall, hnonneg, hincr, hranges, htargets, hcases, hentries, hlast⟩
  · rintro ⟨hne, hall, hnonneg, hincr, hranges, htargets, hcases, hentries, hlast⟩
    exact ⟨⟨hne, hall, hnonneg, hincr, hranges⟩, htargets, hcases, hentries, hlast⟩

end Graph

end BytecodeFlow
