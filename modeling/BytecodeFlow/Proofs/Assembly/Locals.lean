import BytecodeFlow.Proofs.Assembly.Layout
import Mathlib.Order.Bounds.Basic

/-!
The locals of a text that sets no limit of its own. Their number is the greatest end of the slots
that instructions and variables of the text use, where ends are words: slots that end past the last
word come round and ask for no room, nor do slots below zero.
-/

namespace BytecodeFlow

/-- The local slots of a value with a descriptor. -/
def slotsOfDescriptor (descriptor : String) : Nat :=
  if descriptor = "J" ∨ descriptor = "D" then 2 else 1

/-- One more than the greatest word. -/
def wordEnd : Int := 0x8000000000000000

theorem word_lt_wordEnd (n : Int) : word n < wordEnd := by
  have := Int.bmod_lt (x := n) (show 0 < 0x10000000000000000 by decide)
  simpa [word, wordEnd] using this

/-- Slots whose end is a word fit below a limit that is not below the word of that end. -/
theorem fits_iff {k limit : Int} {z : Nat} (hk : 0 ≤ k) (hlimit : limit < wordEnd)
    (h : word (k + z) ≤ limit) : k + z ≤ limit ↔ k + z < wordEnd := by
  constructor
  · intro hle
    exact Int.lt_of_le_of_lt hle hlimit
  · intro hlt
    rwa [word_eq_self (by omega) hlt] at h

theorem Text.splitSign_of_digits {cs : List Char} (h : cs.all Char.isDigit = true) :
    splitSign cs = (false, cs) := by
  unfold splitSign
  split
  · simp at h
  · simp at h
  · rfl

/-- The slots that code accesses and that its variables take. -/
def Code.accesses (c : Code) : List (Int × Nat) :=
  c.instructions.filterMap Instruction.access? ++
    c.locals.map fun v => (v.slot, slotsOfDescriptor v.descriptor)

/-- Where ranges of slots end, as words. -/
def ends (s : List (Int × Nat)) : Set Int := insert 0 {e | ∃ a ∈ s, e = word (a.1 + a.2)}

theorem ends_eq_insert {s t : List (Int × Nat)} {k : Int} {z : Nat}
    (h : ∀ a, a ∈ t ↔ a ∈ s ∨ a = (k, z)) : ends t = insert (word (k + z)) (ends s) := by
  ext e
  simp only [ends, Set.mem_insert_iff, Set.mem_ofPred_eq, h]
  grind

theorem lt_wordEnd_of_isGreatest {s : List (Int × Nat)} {n : Int} (h : IsGreatest (ends s) n) :
    n < wordEnd := by
  rcases h.1 with rfl | ⟨a, -, rfl⟩
  · decide
  · exact word_lt_wordEnd _

namespace Assembly

theorem slotOfDigits_nonneg {s : String} (h : s.toList.all Char.isDigit = true) :
    0 ≤ slotOfDigits s := by
  unfold slotOfDigits
  split
  next n hn =>
    simp only [Text.Integer.decimal, Text.splitSign_of_digits h] at hn
    split at hn
    · cases hn
    · rw [bind_eq_ok] at hn
      obtain ⟨k, -, hn⟩ := hn
      simp only [Text.Integer.signed, Bool.false_eq_true, if_false] at hn
      split at hn
      · cases hn
      · cases hn
        exact Int.natCast_nonneg k
  · decide

theorem slot_nonneg_of_directive {cs : List Char} {slot : Int}
    {name descriptor first last : String}
    (h : directive cs = .ok (.var slot name descriptor first last)) : 0 ≤ slot := by
  unfold directive at h
  dsimp only at h
  split at h
  · split at h
    · obtain ⟨_, -, h⟩ := map_eq_ok.1 h
      cases h
    · cases h
  · split at h
    · split at h
      · cases h
      · split at h <;> cases h
    · cases h
  · split at h <;> cases h
  · split at h
    · split at h
      next hdigits =>
        cases h
        exact slotOfDigits_nonneg hdigits
      · cases h
    · cases h
  · cases h
  · cases h

theorem slot_nonneg_of_var? {p : Piece} {v : VarDraft} (h : p.var? = some v) : 0 ≤ v.slot := by
  unfold Piece.var? at h
  split at h
  · split at h
    next hd =>
      cases h
      exact slot_nonneg_of_directive hd
    · cases h
  · cases h

def Piece.localsLimit? : Piece → Option Int
  | .directive _ cs =>
    match Assembly.directive cs with
    | .ok (.maxLocals n) => some n
    | _ => none
  | _ => none

namespace Listing

/-- The slots that the lines so far use, each range by its first slot and its length. -/
def accesses (l : Listing) : List (Int × Nat) :=
  l.drafts.toList.filterMap (fun d => d.1.use) ++
    l.vars.toList.map fun v => (v.slot, slotsOfDescriptor v.descriptor)

theorem addInstruction_of_no_use {l : Listing} {line : Nat} {d : Draft} (h : d.use = none) :
    l.addInstruction line d =
      { l with drafts := l.drafts.push (d, line), offset := l.offset + d.instr.length } := by
  simp [addInstruction, h]

theorem addInstruction_of_use {l : Listing} {line : Nat} {d : Draft} {slot : Int} {count : Nat}
    (h : d.use = some (slot, count)) :
    l.addInstruction line d =
      { l with
        drafts := l.drafts.push (d, line)
        offset := l.offset + d.instr.length
        used := max (word (slot + count)) l.used } := by
  simp [addInstruction, useLocal, h, Int.max_comm]

/-- The room that a listing makes is what its slots need, unless a limit is set. -/
structure Roomy (ps : List Piece) (l : Listing) : Prop where
  used : IsGreatest (ends l.accesses) l.used
  unlimited : ps.filterMap Piece.localsLimit? = [] → l.maxLocals = none

namespace Roomy

theorem empty : Roomy [] {} where
  used := by simp [ends, accesses]
  unlimited := fun _ => rfl

section

variable {ps : List Piece} {l l' : Listing} {line : Nat} {cs : List Char}

theorem addLabel (h : Roomy ps l) {name : String} (hl : l.addLabel name = .ok l') :
    Roomy (ps ++ [.label name]) l' := by
  unfold Listing.addLabel at hl
  split at hl
  · cases hl
  · cases hl
    refine ⟨h.used, fun hps => h.unlimited ?_⟩
    simpa [Piece.localsLimit?] using hps

theorem addDirective (h : Roomy ps l) {d : Directive} (hd : directive cs = .ok d) :
    Roomy (ps ++ [.directive line cs]) (l.addDirective line d) := by
  have hlimit : (ps ++ [Piece.directive line cs]).filterMap Piece.localsLimit? = [] →
      (∀ n, d ≠ .maxLocals n) ∧ l.maxLocals = none := by
    rw [List.filterMap_append, List.append_eq_nil_iff]
    rintro ⟨hps, hpiece⟩
    refine ⟨?_, h.unlimited hps⟩
    rintro n rfl
    simp [Piece.localsLimit?, hd] at hpiece
  cases d with
  | maxLocals n => exact ⟨h.used, fun hps => absurd rfl ((hlimit hps).1 n)⟩
  | var slot name descriptor first last =>
    refine ⟨?_, fun hps => (hlimit hps).2⟩
    rw [ends_eq_insert (s := l.accesses) (k := slot) (z := slotsOfDescriptor descriptor),
      Listing.addDirective, useLocal, Int.max_comm]
    · exact h.used.insert _
    · intro a
      simp [accesses, Listing.addDirective, useLocal, or_assoc, eq_comm]
  | _ => exact ⟨h.used, fun hps => (hlimit hps).2⟩

theorem addInstruction (h : Roomy ps l) (d : Draft) :
    Roomy (ps ++ [.instruction line cs]) (l.addInstruction line d) := by
  have hlimit (hps : (ps ++ [Piece.instruction line cs]).filterMap Piece.localsLimit? = []) :
      l.maxLocals = none := by
    refine h.unlimited ?_
    simpa [Piece.localsLimit?] using hps
  rcases huse : d.use with _ | ⟨slot, count⟩
  · rw [addInstruction_of_no_use huse]
    refine ⟨?_, hlimit⟩
    simpa [accesses, huse] using h.used
  · rw [addInstruction_of_use huse]
    refine ⟨?_, hlimit⟩
    rw [ends_eq_insert (s := l.accesses) (k := slot) (z := count)]
    · exact h.used.insert _
    · intro a
      simp [accesses, huse, or_comm, or_left_comm, eq_comm]

theorem addPiece (h : Roomy ps l) {p : Piece} (hl : l.addPiece p = .ok l') :
    Roomy (ps ++ [p]) l' := by
  cases p with
  | label name => exact h.addLabel hl
  | directive line cs =>
    obtain ⟨d, hd, rfl⟩ := map_eq_ok.1 hl
    exact h.addDirective hd
  | instruction line cs =>
    obtain ⟨d, -, rfl⟩ := map_eq_ok.1 hl
    exact h.addInstruction d

end

end Roomy

section

variable {l : Listing} {c : Code}

theorem maxLocals_of_resolve (h : l.resolve = .ok c) : c.maxLocals = l.maxLocals.getD l.used := by
  simp only [resolve, bind_eq_ok, pure_eq_ok] at h
  obtain ⟨is, -, ps, -, vs, -, rfl⟩ := h
  rfl

theorem access?_of_resolveInstruction {d : Draft} {line : Nat} {i : Instruction}
    (h : l.resolveInstruction d line = .ok i) : i.access? = d.instr.access? := by
  obtain ⟨target, offsets, -, -, rfl⟩ := exists_of_resolveInstruction h
  rfl

theorem Records.use_eq {ps : List Piece} (h : l.Records ps) {d : Draft × Nat}
    (hd : d ∈ l.drafts.toList) : d.1.use = d.1.instr.access? := by
  obtain ⟨k, hk⟩ := List.getElem?_of_mem hd
  obtain ⟨cs, -, hdrafted⟩ := exists_of_forall₂ h.drafts (i := k) (b := d.1) (by simp [hk])
  obtain ⟨op, -, -, -, hreads⟩ := of_instruction hdrafted
  exact hreads.use

/-- Once labels have their offsets, the code accesses the slots that its lines use. -/
theorem Records.accesses_eq {ps : List Piece} (h : l.Records ps) (hc : l.resolve = .ok c) :
    c.accesses = l.accesses := by
  obtain ⟨hdrafts, -, hvars⟩ := exists_of_resolve hc
  have hinstrs : (l.drafts.toList.map fun d => d.1.use) =
      c.instructions.map Instruction.access? := by
    refine map_eq_of_forall₂ hdrafts fun d hd i hi => ?_
    rw [h.use_eq hd, access?_of_resolveInstruction hi]
  have hlocals : (l.vars.toList.map fun v => (v.slot, slotsOfDescriptor v.descriptor)) =
      c.locals.map fun v => (v.slot, slotsOfDescriptor v.descriptor) := by
    refine map_eq_of_forall₂ hvars fun d _ v hv => ?_
    obtain ⟨first, last, -, -, rfl⟩ := exists_of_resolveVar hv
    rfl
  have hused := congrArg (List.filterMap id) hinstrs
  simp only [List.filterMap_map, Function.id_comp] at hused
  rw [Code.accesses, accesses, hlocals, ← hused]

theorem slot_nonneg_of_resolve {ps : List Piece} (h : l.Records ps) (hc : l.resolve = .ok c) :
    ∀ v ∈ c.locals, 0 ≤ v.slot := by
  intro v hv
  obtain ⟨k, hk⟩ := List.getElem?_of_mem hv
  obtain ⟨d, hd, hres⟩ := exists_of_forall₂ (exists_of_resolve hc).2.2 hk
  obtain ⟨first, last, -, -, rfl⟩ := exists_of_resolveVar hres
  have hmem := List.mem_of_getElem? hd
  rw [h.vars] at hmem
  obtain ⟨p, -, hp⟩ := List.mem_filterMap.1 hmem
  exact slot_nonneg_of_var? hp

end

end Listing

/-- Without a limit in the text, the locals reach to the greatest end of the slots in use, and so
past each of these slots whose end is a word. -/
theorem inferred_locals_reach {source : String} {c : Code} (h : assemble source = .ok c)
    (hnone : (pieces source).filterMap Piece.localsLimit? = []) :
    IsGreatest (ends c.accesses) c.maxLocals ∧
      (∀ i ∈ c.instructions, ∀ k z, i.access? = some (k, z) →
        (0 ≤ k ∧ k + z ≤ c.maxLocals ↔ 0 ≤ k ∧ k + z < wordEnd)) ∧
      ∀ v ∈ c.locals, 0 ≤ v.slot ∧
        (v.slot + slotsOfDescriptor v.descriptor ≤ c.maxLocals ↔
          v.slot + slotsOfDescriptor v.descriptor < wordEnd) := by
  obtain ⟨l, hl, hc⟩ := foldlM_of_assemble h
  have hrecords := Listing.foldlM_addPiece (fun hr hp => hr.addPiece hp) Listing.Records.empty hl
  have hroomy := Listing.foldlM_addPiece (fun hr hp => hr.addPiece hp) Listing.Roomy.empty hl
  have hgreatest : IsGreatest (ends c.accesses) c.maxLocals := by
    rw [hrecords.accesses_eq hc, Listing.maxLocals_of_resolve hc, hroomy.unlimited hnone]
    exact hroomy.used
  have hend := lt_wordEnd_of_isGreatest hgreatest
  refine ⟨hgreatest, fun i hi k z ha => ?_, fun v hv => ?_⟩
  · refine and_congr_right fun hk => fits_iff hk hend (hgreatest.2 (.inr ⟨(k, z), ?_, rfl⟩))
    exact List.mem_append_left _ (List.mem_filterMap.2 ⟨i, hi, ha⟩)
  · have hslot := Listing.slot_nonneg_of_resolve hrecords hc v hv
    refine ⟨hslot, fits_iff hslot hend (hgreatest.2 (.inr ⟨(v.slot, _), ?_, rfl⟩))⟩
    exact List.mem_append_right _ (List.mem_map_of_mem hv)

/-- Slots within reach, below zero and past the last word. -/
def outlying : String :=
  "iinc 3 1\niload -1\nlload 9223372036854775806\nL:\n" ++
  ".var 9223372036854775807 is x I from L to L\n"

theorem inferred_locals_reach_outlying : ∃ c, assemble outlying = .ok c ∧
    (pieces outlying).filterMap Piece.localsLimit? = [] ∧ c.maxLocals = 4 ∧
    c.instructions.filterMap Instruction.access? = [(3, 1), (-1, 1), (9223372036854775806, 2)] ∧
    (∀ i ∈ c.instructions, ∀ k z, i.access? = some (k, z) → (0 ≤ k ∧ k + z ≤ 4 ↔ k = 3)) ∧
    ∃ v ∈ c.locals, v.slot = 9223372036854775807 ∧
      ¬ v.slot + slotsOfDescriptor v.descriptor ≤ 4 := by
  have h : (assemble outlying).toOption.any fun c => decide (
      c.maxLocals = 4 ∧
      c.instructions.filterMap Instruction.access? = [(3, 1), (-1, 1), (9223372036854775806, 2)] ∧
      c.locals = [⟨9223372036854775807, "x", "I", 9, 0⟩]) := by decide +kernel
  have hnone : (pieces outlying).filterMap Piece.localsLimit? = [] := by decide +kernel
  obtain ⟨c, hc, h⟩ := (Option.any_eq_true _ _).1 h
  obtain ⟨hmax, haccess, hlocals⟩ := of_decide_eq_true h
  have hc := toOption_eq_some.1 hc
  obtain ⟨-, hreach, hvars⟩ := inferred_locals_reach hc hnone
  rw [hmax] at hreach hvars
  refine ⟨c, hc, hnone, hmax, haccess, fun i hi k z ha => ?_, ?_⟩
  · rw [hreach i hi k z ha]
    have hmem : (k, z) ∈ c.instructions.filterMap Instruction.access? :=
      List.mem_filterMap.2 ⟨i, hi, ha⟩
    rw [haccess] at hmem
    simp only [List.mem_cons, Prod.mk.injEq, List.not_mem_nil, or_false] at hmem
    rcases hmem with ⟨rfl, rfl⟩ | ⟨rfl, rfl⟩ | ⟨rfl, rfl⟩ <;> decide
  · have hv : ⟨9223372036854775807, "x", "I", 9, 0⟩ ∈ c.locals := by simp [hlocals]
    refine ⟨_, hv, rfl, ?_⟩
    rw [(hvars _ hv).2]
    decide

end Assembly

end BytecodeFlow
