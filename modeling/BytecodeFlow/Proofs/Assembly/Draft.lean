import BytecodeFlow.Assembly.Statement
import BytecodeFlow.Proofs.Pointwise
import Mathlib.Data.List.TakeWhile

namespace BytecodeFlow

theorem Text.ne_nil_of_mem_wordsBy {blank : Char → Bool} {cs w : List Char}
    (h : w ∈ wordsBy blank cs) : w ≠ [] := by
  fun_induction wordsBy blank cs with
  | case1 => cases h
  | case2 c cs _ ih => exact ih h
  | case3 c cs _ ih =>
    rcases List.mem_cons.1 h with rfl | h
    · exact List.cons_ne_nil _ _
    · exact ih h

theorem Text.ne_empty_of_mem_fields {s w : String} (h : w ∈ fields s) : w ≠ "" := by
  obtain ⟨cs, hcs, rfl⟩ := List.mem_map.1 h
  simpa using ne_nil_of_mem_wordsBy hcs

theorem Text.eq_of_cutAt {cut : Char → Bool} {cs before after : List Char}
    (h : cutAt cut cs = some (before, after)) :
    ∃ c, cut c = true ∧ cs = before ++ c :: after ∧ ∀ b ∈ before, cut b = false := by
  rw [cutAt] at h
  split at h
  · cases h
  next c after' hd =>
    cases h
    refine ⟨c, ?_, ?_, ?_⟩
    · have := List.head?_dropWhile_not (!cut ·) cs
      simpa [hd] using this
    · rw [← hd, List.takeWhile_append_dropWhile]
    · intro b hb
      simpa using List.mem_takeWhile_imp hb

theorem ArrayType.valid_of_ofName? {s : String} {a : ArrayType} (h : ofName? s = some a) :
    a.valid = true := by
  obtain ⟨entry, hf, rfl⟩ := Option.map_eq_some_iff.1 h
  exact List.any_eq_true.2 ⟨entry, List.mem_of_find?_eq_some hf, by simp⟩

theorem Opcode.of_ofName? {s : String} {op : Opcode} (h : ofName? s = some op) :
    op.valid = true ∧ op.name = s := by
  obtain ⟨i, hi, rfl⟩ := Option.map_eq_some_iff.1 h
  obtain ⟨hlt, hs, -⟩ := Array.findIdx?_eq_some_iff_getElem.1 hi
  have hsize : names.size ≤ 256 := by decide +kernel
  have hcode : i.toUInt8.toNat = i := Nat.mod_eq_of_lt (Nat.lt_of_lt_of_le hlt hsize)
  have hname : names[i]? = some s := by
    rw [Array.getElem?_eq_getElem hlt, beq_iff_eq.1 hs]
  refine ⟨?_, ?_⟩
  · rw [valid, hcode]
    exact decide_eq_true hlt
  · unfold name
    rw [hcode, hname]

theorem Operation.baseLength_pos {op : Operation} (h : ∀ form, op ≠ .switch form) :
    0 < op.baseLength := by
  cases op with
  | switch form => exact absurd rfl (h form)
  | _ => simp only [baseLength]; first | decide | (split <;> decide)

namespace Instruction

theorem switchPadding_nonneg (offset : Int) : 0 ≤ switchPadding offset := by
  unfold switchPadding
  have := Int.tmod_lt_of_pos (word (offset + 1)) (show (0 : Int) < 4 by decide)
  exact Int.tmod_nonneg 4 (by omega)

theorem length_pos (i : Instruction) : 0 < i.length := by
  have := switchPadding_nonneg i.offset
  unfold length
  split
  · omega
  · omega
  · split <;> decide
  next h₁ h₂ _ =>
    split
    · decide
    · refine Int.natCast_pos.2 (Operation.baseLength_pos ?_)
      rintro (_ | _) h
      · exact h₁ h
      · exact h₂ h

/-- The first local slot that an instruction accesses, and how many. -/
def access? (i : Instruction) : Option (Int × Nat) :=
  match i.operation with
  | .load c _ => some (i.localIndex, c.slots)
  | .store c _ => some (i.localIndex, c.slots)
  | .increment => some (i.localIndex, 1)
  | .ret => some (i.localIndex, 1)
  | _ => none

end Instruction

namespace Assembly

/-- A case of a lookup switch: its key, a colon and its label. -/
def CaseNames (w label : String) : Prop :=
  ∃ key : List Char, ':' ∉ key ∧ w.toList = key ++ ':' :: label.toList

/-- The labels that the operands of an operation name: the target, and those of the cases. -/
inductive Names : Operation → List String → Option String → List String → Prop
  | jump {op : Operation} {label : String} :
    op.flow ∈ [.goto, .branch, .jsr] → Names op [label] (some label) []
  | table {low label : String} {labels : List String} :
    Names (.switch .table) (low :: (labels ++ ["default", label])) (some label) labels
  | lookup {label : String} {ws labels : List String} :
    List.Forall₂ CaseNames ws labels →
    Names (.switch .lookup) (ws ++ ["default", label]) (some label) labels
  | none {op : Operation} {ws : List String} :
    op.flow ∉ [.goto, .branch, .jsr, .switch] → Names op ws none []

section

variable {instr : Instruction} {args : List String} {d : Draft}

theorem exists_of_slotOperand {slots : Nat}
    (h : slotOperand instr args slots instr.operation.implicitSlot? = .ok d) :
    ∃ index wide, d =
      { instr := { instr with index, wide }
        use := some (({ instr with index, wide } : Instruction).localIndex, slots) } := by
  unfold slotOperand at h
  split at h
  next hslot =>
    cases h
    exact ⟨instr.index, instr.wide, by simp [Instruction.localIndex, hslot]⟩
  · cases h
  next hslot =>
    simp only [bind_eq_ok, pure_eq_ok] at h
    obtain ⟨slot, -, rfl⟩ := h
    refine ⟨slot, decide (0xff < slot), ?_⟩
    simp only [Instruction.localIndex, Instruction.operation] at hslot ⊢
    rw [hslot]
  · cases h

theorem exists_of_jumpOperand (h : jumpOperand instr args = .ok d) :
    ∃ label, args = [label] ∧ d = { instr, target := some label } := by
  unfold jumpOperand at h
  split at h
  · cases h
    exact ⟨_, rfl, rfl⟩
  · cases h

theorem exists_of_classOperand (h : classOperand instr args = .ok d) :
    ∃ name ∈ args, d = { instr := { instr with className := name } } := by
  unfold classOperand at h
  split at h
  · cases h
    exact ⟨_, List.mem_singleton_self _, rfl⟩
  · cases h

theorem exists_of_fieldOperand (h : fieldOperand instr args = .ok d) :
    ∃ m, d = { instr := { instr with member := some m } } := by
  unfold fieldOperand at h
  split at h
  · split at h
    · cases h
      exact ⟨_, rfl⟩
    · cases h
  · cases h

theorem exists_of_methodOperand {i : Invocation} {path : String}
    (h : methodOperand instr i path = .ok d) :
    ∃ m, d = { instr := { instr with member := some m } } := by
  unfold methodOperand at h
  split at h
  · split at h
    · cases h
      exact ⟨_, rfl⟩
    · cases h
  · cases h

theorem exists_of_invoke {i : Invocation} {rest : String} (h : operands instr rest = .ok d)
    (hop : instr.operation = .invoke i) :
    ∃ path ws, Text.fields rest = path :: ws ∧ methodOperand instr i path = .ok d := by
  unfold operands at h
  simp only [hop] at h
  split at h
  next path hws => exact ⟨path, [], hws, h⟩
  next path w hws =>
    split at h
    · exact ⟨path, [w], hws, h⟩
    · cases h
  · cases h

theorem exists_of_switchOperands
    {cases : List String → Except OperandError (List (SwitchCase × String))}
    (h : switchOperands instr args cases = .ok d) :
    ∃ ws label cs, args = ws ++ ["default", label] ∧ cases ws = .ok cs ∧
      d = { instr := { instr with cases := cs.map Prod.fst }
            target := some label
            caseTargets := cs.map Prod.snd } := by
  unfold switchOperands at h
  split at h
  next label w rest hargs =>
    split at h
    next hw =>
      simp only [bind_eq_ok, pure_eq_ok] at h
      obtain ⟨cs, hcs, rfl⟩ := h
      refine ⟨rest.reverse, label, cs, ?_, hcs, rfl⟩
      rw [← List.reverse_reverse args, hargs, hw]
      simp
    · cases h
  · cases h

end

theorem snd_tableCases (key : Int) (labels : List String) :
    (tableCases key labels).map Prod.snd = labels := by
  induction labels generalizing key with
  | nil => rfl
  | cons label labels ih => simp [tableCases, ih]

theorem caseNames_of_lookupCase {w : String} {c : SwitchCase × String}
    (h : lookupCase w = .ok c) : CaseNames w c.2 := by
  unfold lookupCase at h
  split at h
  · cases h
  next key label hcut =>
    split at h
    · cases h
    · cases h
      obtain ⟨c, hc, heq, hkey⟩ := Text.eq_of_cutAt hcut
      rw [beq_iff_eq.1 hc] at heq
      refine ⟨key, ?_, by simpa using heq⟩
      intro hmem
      simpa using hkey _ hmem

/-- The draft is the instruction with the operands that the words give. -/
structure Draft.Reads (instr : Instruction) (ws : List String) (d : Draft) : Prop where
  offset : d.instr.offset = instr.offset
  op : d.instr.op = instr.op
  complete : d.instr.missingOperand? = none
  names : Names instr.operation ws d.target d.caseTargets
  cases : d.caseTargets.length = d.instr.cases.length
  use : d.use = d.instr.access?

section

variable {offset : Int} {op : Opcode} {ws : List String} {d : Draft}

theorem Draft.Reads.unlabelled {instr : Instruction} {use : Option (Int × Nat)}
    (hflow : op.operation.flow ∉ [.goto, .branch, .jsr, .switch]) (hoffset : instr.offset = offset)
    (hop : instr.op = op) (hcases : instr.cases = []) (hmissing : instr.missingOperand? = none)
    (huse : use = instr.access?) : Draft.Reads { offset, op } ws { instr, use } where
  offset := hoffset
  op := hop
  complete := hmissing
  names := .none hflow
  cases := by rw [hcases]; rfl
  use := huse

theorem reads_slotOperand {slots : Nat} {implicit : Option Nat}
    (h : slotOperand { offset, op } ws slots implicit = .ok d)
    (hslot : op.operation.implicitSlot? = implicit)
    (hflow : op.operation.flow ∉ [.goto, .branch, .jsr, .switch])
    (hmissing : ∀ i : Instruction, i.op = op → i.missingOperand? = none)
    (haccess : ∀ i : Instruction, i.op = op → i.access? = some (i.localIndex, slots)) :
    d.Reads { offset, op } ws := by
  subst hslot
  obtain ⟨index, wide, rfl⟩ := exists_of_slotOperand h
  exact .unlabelled hflow rfl rfl rfl (hmissing _ rfl) (haccess _ rfl).symm

theorem reads_jumpOperand (h : jumpOperand { offset, op } ws = .ok d)
    (hflow : op.operation.flow ∈ [.goto, .branch, .jsr])
    (hmissing : ∀ i : Instruction, i.op = op → i.missingOperand? = none)
    (haccess : ∀ i : Instruction, i.op = op → i.access? = none) : d.Reads { offset, op } ws := by
  obtain ⟨label, rfl, rfl⟩ := exists_of_jumpOperand h
  exact ⟨rfl, rfl, hmissing _ rfl, .jump hflow, rfl, (haccess _ rfl).symm⟩

theorem reads_switchOperands {args : List String}
    {cases : List String → Except OperandError (List (SwitchCase × String))}
    (h : switchOperands { offset, op } args cases = .ok d)
    (hmissing : ∀ i : Instruction, i.op = op → i.missingOperand? = none)
    (haccess : ∀ i : Instruction, i.op = op → i.access? = none)
    (hnames : ∀ rest label cs, args = rest ++ ["default", label] → cases rest = .ok cs →
      Names op.operation ws (some label) (cs.map Prod.snd)) : d.Reads { offset, op } ws := by
  obtain ⟨rest, label, cs, hargs, hcs, rfl⟩ := exists_of_switchOperands h
  exact ⟨rfl, rfl, hmissing _ rfl, hnames rest label cs hargs hcs, by simp, (haccess _ rfl).symm⟩

theorem reads_classOperand (h : classOperand { offset, op } ws = .ok d)
    (hws : ∀ w ∈ ws, w ≠ "") (hflow : op.operation.flow ∉ [.goto, .branch, .jsr, .switch])
    (hmissing : ∀ i : Instruction, i.op = op → i.className ≠ "" → i.missingOperand? = none)
    (haccess : ∀ i : Instruction, i.op = op → i.access? = none) : d.Reads { offset, op } ws := by
  obtain ⟨name, hname, rfl⟩ := exists_of_classOperand h
  exact .unlabelled hflow rfl rfl rfl (hmissing _ rfl (hws name hname)) (haccess _ rfl).symm

theorem reads_memberOperand (h : ∃ m, d = { instr := { offset, op, member := some m } })
    (hflow : op.operation.flow ∉ [.goto, .branch, .jsr, .switch])
    (hmissing : ∀ i : Instruction, i.op = op → i.member ≠ none → i.missingOperand? = none)
    (haccess : ∀ i : Instruction, i.op = op → i.access? = none) : d.Reads { offset, op } ws := by
  obtain ⟨m, rfl⟩ := h
  exact .unlabelled hflow rfl rfl rfl (hmissing _ rfl (Option.some_ne_none m)) (haccess _ rfl).symm

end

section

variable {offset : Int} {op : Opcode} {rest : String} {d : Draft}

theorem reads_of_operands (h : operands { offset, op } rest = .ok d) :
    d.Reads { offset, op } (Text.fields rest) := by
  have hws (w : String) : w ∈ Text.fields rest → w ≠ "" := Text.ne_empty_of_mem_fields
  have hinvoke {i : Invocation} (hop : op.operation = .invoke i) := exists_of_invoke h hop
  unfold operands at h
  cases hop : op.operation <;> simp only [Instruction.operation, hop] at h
  case load | store | ret =>
    refine reads_slotOperand h ?_ ?_ ?_ ?_ <;>
      simp +contextual [Operation.implicitSlot?, Operation.flow, Instruction.missingOperand?,
        Instruction.access?, Instruction.operation, hop]
  case goto | branch | jsr =>
    refine reads_jumpOperand h ?_ ?_ ?_ <;>
      simp +contextual [Operation.flow, Instruction.missingOperand?, Instruction.access?,
        Instruction.operation, hop]
  case new | newObjectArray | checkCast | instanceOf =>
    refine reads_classOperand h hws ?_ ?_ ?_ <;>
      simp +contextual [Operation.flow, Instruction.missingOperand?, Instruction.access?,
        Instruction.operation, hop]
  case getStatic | putStatic | getField | putField =>
    refine reads_memberOperand (exists_of_fieldOperand h) ?_ ?_ ?_ <;>
      simp +contextual [Operation.flow, Instruction.missingOperand?, Instruction.access?,
        Instruction.operation, hop]
  case invoke =>
    obtain ⟨path, -, -, hm⟩ := hinvoke hop
    refine reads_memberOperand (exists_of_methodOperand hm) ?_ ?_ ?_ <;>
      simp +contextual [Operation.flow, Instruction.missingOperand?, Instruction.access?,
        Instruction.operation, hop]
  case switch form =>
    have hmissing : ∀ i : Instruction, i.op = op → i.missingOperand? = none := by
      simp +contextual [Instruction.missingOperand?, Instruction.operation, hop]
    have haccess : ∀ i : Instruction, i.op = op → i.access? = none := by
      simp +contextual [Instruction.access?, Instruction.operation, hop]
    cases form with
    | table =>
      simp only at h
      split at h
      · cases h
      next low args hargs =>
        simp only [bind_eq_ok] at h
        obtain ⟨key, -, h⟩ := h
        refine reads_switchOperands h hmissing haccess fun labels label cs hlabels hcs => ?_
        cases hcs
        rw [hop, hargs, hlabels, snd_tableCases]
        exact .table
    | lookup =>
      refine reads_switchOperands h hmissing haccess fun ws label cs hws hcs => ?_
      rw [hop, hws]
      refine .lookup (List.forall₂_map_right_iff.2 ?_)
      exact (forall₂_of_mapM hcs).imp fun _ _ => caseNames_of_lookupCase
  case constant =>
    split at h
    · cases h
      refine .unlabelled ?_ rfl rfl rfl ?_ ?_ <;>
        simp [Operation.flow, Instruction.missingOperand?, Instruction.access?,
          Instruction.operation, hop]
    · cases h
  case immediate =>
    split at h
    · simp only [bind_eq_ok, pure_eq_ok] at h
      obtain ⟨n, -, rfl⟩ := h
      refine .unlabelled ?_ rfl rfl rfl ?_ ?_ <;>
        simp [Operation.flow, Instruction.missingOperand?, Instruction.access?,
          Instruction.operation, hop]
    · cases h
  case increment =>
    split at h
    · simp only [bind_eq_ok, pure_eq_ok] at h
      obtain ⟨slot, -, amount, -, rfl⟩ := h
      refine .unlabelled ?_ rfl rfl rfl ?_ ?_ <;>
        simp [Operation.flow, Instruction.missingOperand?, Instruction.access?,
          Instruction.localIndex, Operation.implicitSlot?, Instruction.operation, hop]
    · cases h
  case newMultiArray =>
    split at h
    next name dims hargs =>
      split at h
      · split at h
        · cases h
          refine .unlabelled ?_ rfl rfl rfl ?_ ?_
          · simp [Operation.flow, hop]
          · simpa [Instruction.missingOperand?, Instruction.operation, hop] using
              hws name (by simp [hargs])
          · simp [Instruction.access?, Instruction.operation, hop]
        · cases h
      · cases h
    · cases h
  case newArray =>
    split at h
    · split at h
      next a ha =>
        cases h
        refine .unlabelled ?_ rfl rfl rfl ?_ ?_
        · simp [Operation.flow, hop]
        · simp [Instruction.missingOperand?, Instruction.operation, hop, ArrayType.valid_of_ofName? ha]
        · simp [Instruction.access?, Instruction.operation, hop]
      · cases h
    · cases h
  all_goals
    split at h
    · cases h
      refine .unlabelled ?_ rfl rfl rfl ?_ ?_ <;>
        simp [Operation.flow, Instruction.missingOperand?, Instruction.access?,
          Instruction.operation, hop]
    · cases h

theorem operands_of_instruction {cs : List Char} (h : instruction offset cs = .ok d) :
    ∃ op : Opcode, op.valid = true ∧ op.operation ≠ .wide ∧ op.name = (splitMnemonic cs).1 ∧
      operands { offset, op } (splitMnemonic cs).2 = .ok d := by
  unfold instruction at h
  dsimp only at h
  split at h
  · cases h
  next op hname =>
    split at h
    · cases h
    next hwide =>
      obtain ⟨hvalid, hname⟩ := Opcode.of_ofName? hname
      exact ⟨op, hvalid, hwide, hname, mapError_eq_ok.1 h⟩

theorem of_instruction {cs : List Char} (h : instruction offset cs = .ok d) :
    ∃ op : Opcode, op.valid = true ∧ op.operation ≠ .wide ∧ op.name = (splitMnemonic cs).1 ∧
      d.Reads { offset, op } (Text.fields (splitMnemonic cs).2) := by
  obtain ⟨op, hvalid, hwide, hname, hread⟩ := operands_of_instruction h
  exact ⟨op, hvalid, hwide, hname, reads_of_operands hread⟩

end

end Assembly

end BytecodeFlow
