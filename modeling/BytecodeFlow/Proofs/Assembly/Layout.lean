import BytecodeFlow.Assembly.Listing
import BytecodeFlow.Proofs.Assembly.Draft
import BytecodeFlow.Proofs.Defects
import Mathlib.Data.List.Chain

/-!
What a text is assembled to. Instructions stand one behind the other from offset 0, and a label is
the length of the instructions written before it, wherever it is used. Such code has no defect but
that there is none of it, or that a handler protects nothing.
-/

namespace BytecodeFlow

/-- The bytes that instructions take up together. -/
def encodedLength : List Instruction → Int
  | [] => 0
  | i :: is => i.length + encodedLength is

@[simp] theorem encodedLength_append (is js : List Instruction) :
    encodedLength (is ++ js) = encodedLength is + encodedLength js := by
  induction is with
  | nil => simp [encodedLength]
  | cons i is ih => simp [encodedLength, ih, Int.add_assoc]

theorem encodedLength_nonneg (is : List Instruction) : 0 ≤ encodedLength is := by
  induction is with
  | nil => exact Int.le_refl 0
  | cons i is ih =>
    have := i.length_pos
    simp only [encodedLength]
    omega

/-- Every instruction stands where those before it end. -/
def Placed (is : List Instruction) : Prop :=
  ∀ (k : Nat) (i : Instruction), is[k]? = some i → i.offset = encodedLength (is.take k)

section

variable {is js : List Instruction}

theorem encodedLength_take_succ {k : Nat} {i : Instruction} (h : is[k]? = some i) :
    encodedLength (is.take (k + 1)) = encodedLength (is.take k) + i.length := by
  simp [List.take_add_one, h, encodedLength]

theorem encodedLength_take_mono (is : List Instruction) {k n : Nat} (h : k ≤ n) :
    encodedLength (is.take k) ≤ encodedLength (is.take n) := by
  have htake := List.take_append_drop k (is.take n)
  rw [List.take_take, Nat.min_eq_left h] at htake
  rw [← htake, encodedLength_append]
  have := encodedLength_nonneg ((is.take n).drop k)
  omega

namespace Placed

theorem nil : Placed [] := by
  intro k i h
  simp at h

theorem snoc (h : Placed is) {i : Instruction} (hi : i.offset = encodedLength is) :
    Placed (is ++ [i]) := by
  intro k j hj
  rcases Nat.lt_or_ge k is.length with hk | hk
  · rw [List.getElem?_append_left hk] at hj
    rw [h k j hj, List.take_append_of_le_length (Nat.le_of_lt hk)]
  · rw [List.getElem?_append_right hk] at hj
    obtain ⟨hlt, rfl⟩ := List.getElem?_eq_some_iff.1 hj
    have hk : k = is.length := by
      simp only [List.length_singleton] at hlt
      omega
    simp [hk, hi]

theorem isChain (h : Placed is) : is.IsChain fun i j => j.offset = i.offset + i.length := by
  rw [List.isChain_iff_getElem]
  intro k hk
  have hi := List.getElem?_eq_getElem (Nat.lt_of_succ_lt hk)
  rw [h k _ hi, h (k + 1) _ (List.getElem?_eq_getElem hk), encodedLength_take_succ hi]

theorem pairwise (h : Placed is) : is.Pairwise fun i j => i.offset < j.offset := by
  rw [List.pairwise_iff_getElem]
  intro k n hk hn hkn
  have hi := List.getElem?_eq_getElem hk
  rw [h k _ hi, h n _ (List.getElem?_eq_getElem hn)]
  have hpos := (is[k]).length_pos
  have hmono := encodedLength_take_mono is (Nat.succ_le_of_lt hkn)
  rw [encodedLength_take_succ hi] at hmono
  omega

theorem offset_nonneg (h : Placed is) {i : Instruction} (hi : i ∈ is) : 0 ≤ i.offset := by
  obtain ⟨k, hi⟩ := List.getElem?_of_mem hi
  rw [h k i hi]
  exact encodedLength_nonneg _

theorem boundary (h : Placed is) (k : Nat) :
    (∃ i ∈ is, i.offset = encodedLength (is.take k)) ∨
      encodedLength (is.take k) = encodedLength is := by
  rcases Nat.lt_or_ge k is.length with hk | hk
  · exact .inl ⟨is[k], List.getElem_mem hk, h k _ (List.getElem?_eq_getElem hk)⟩
  · exact .inr (by rw [List.take_of_length_le hk])

theorem length_eq {c : Code} (h : Placed c.instructions) :
    c.length = word (encodedLength c.instructions) := by
  rw [Code.length, List.getLast?_eq_getElem?]
  cases hlast : c.instructions[c.instructions.length - 1]? with
  | none =>
    have hnil : c.instructions = [] := by
      rw [List.getElem?_eq_none_iff] at hlast
      exact List.length_eq_zero_iff.1 (by omega)
    rw [hnil]
    rfl
  | some i =>
    have hlt := (List.getElem?_eq_some_iff.1 hlast).1
    have hlen := encodedLength_take_succ hlast
    rw [Nat.sub_add_cancel (by omega), List.take_length] at hlen
    simp [Instruction.endOffset, h _ i hlast, hlen]

end Placed

/-- Instructions that take up the same bytes. -/
def Instruction.SameExtent (i j : Instruction) : Prop := i.offset = j.offset ∧ i.length = j.length

theorem encodedLength_congr (h : List.Forall₂ Instruction.SameExtent is js) :
    encodedLength is = encodedLength js := by
  induction h with
  | nil => rfl
  | cons hi _ ih => simp [encodedLength, hi.2, ih]

theorem Placed.congr (h : Placed is) (hs : List.Forall₂ Instruction.SameExtent is js) :
    Placed js := by
  intro k j hj
  obtain ⟨i, hi, hoffset, -⟩ := exists_of_forall₂ hs hj
  rw [← hoffset, h k i hi, encodedLength_congr (List.forall₂_take k hs)]

end

namespace Assembly

/-- What a text consists of: labels, and what its lines say after them. -/
inductive Piece
  | label (name : String)
  | directive (line : Nat) (cs : List Char)
  | instruction (line : Nat) (cs : List Char)

def Piece.instruction? : Piece → Option (List Char)
  | .instruction _ cs => some cs
  | _ => none

def Piece.handler? : Piece → Option HandlerDraft
  | .directive line cs =>
    match Assembly.directive cs with
    | .ok (.handler kind first last entry) => some ⟨kind, first, last, entry, line⟩
    | _ => none
  | _ => none

def Piece.var? : Piece → Option VarDraft
  | .directive line cs =>
    match Assembly.directive cs with
    | .ok (.var slot name descriptor first last) =>
      some ⟨slot, name, descriptor, first, last, line⟩
    | _ => none
  | _ => none

def statementPieces (line : Nat) : List Char → List Piece
  | [] => []
  | '.' :: cs => [.directive line ('.' :: cs)]
  | cs => [.instruction line cs]

def linePieces (line : Nat) (text : String) : List Piece :=
  (splitLabels (content text)).1.map .label ++
    statementPieces line (splitLabels (content text)).2

def piecesFrom (line : Nat) : List String → List Piece
  | [] => []
  | text :: rest => linePieces line text ++ piecesFrom (line + 1) rest

/-- All lines of a text, in pieces. -/
def pieces (source : String) : List Piece :=
  piecesFrom 1 ((Text.splitLines source.toList).map fun l => String.ofList (Text.dropReturn l.1))

/-- The label stands once, behind instructions of length `o`. -/
def Stands (ps : List Piece) (is : List Instruction) (name : String) (o : Int) : Prop :=
  ∃ before after, ps = before ++ .label name :: after ∧
    .label name ∉ before ∧ .label name ∉ after ∧
    o = encodedLength (is.take (before.filterMap Piece.instruction?).length)

section

variable {ps : List Piece} {is js : List Instruction} {name : String} {o : Int}

theorem Stands.snoc (h : Stands ps is name o) {p : Piece} (hp : p ≠ .label name) :
    Stands (ps ++ [p]) is name o := by
  obtain ⟨before, after, rfl, hbefore, hafter, ho⟩ := h
  refine ⟨before, after ++ [p], by simp, hbefore, ?_, ho⟩
  simpa [hafter] using hp.symm

theorem Stands.append (h : Stands ps is name o)
    (hlen : (ps.filterMap Piece.instruction?).length = is.length) : Stands ps (is ++ js) name o := by
  obtain ⟨before, after, rfl, hbefore, hafter, ho⟩ := h
  refine ⟨before, after, rfl, hbefore, hafter, ?_⟩
  rw [ho, List.take_append_of_le_length]
  rw [← hlen, List.filterMap_append, List.length_append]
  exact Nat.le_add_right _ _

theorem Stands.congr (h : Stands ps is name o) (hs : List.Forall₂ Instruction.SameExtent is js) :
    Stands ps js name o := by
  obtain ⟨before, after, hps, hbefore, hafter, ho⟩ := h
  refine ⟨before, after, hps, hbefore, hafter, ?_⟩
  rw [ho, encodedLength_congr (List.forall₂_take _ hs)]

end

namespace Listing

def addPiece (l : Listing) : Piece → Except LineError Listing
  | .label name => l.addLabel name
  | .directive line cs => (Assembly.directive cs).map (l.addDirective line)
  | .instruction line cs => (Assembly.instruction l.offset cs).map (l.addInstruction line)

section

variable {l l' : Listing} {line : Nat}

theorem addStatement_eq_foldlM (l : Listing) (line : Nat) (cs : List Char) :
    l.addStatement line cs = (statementPieces line cs).foldlM addPiece l := by
  unfold addStatement
  split
  · rfl
  · simp [statementPieces, addPiece]
  · rw [statementPieces]
    · simp [addPiece]
    all_goals assumption

theorem addLine_eq_foldlM (l : Listing) (line : Nat) (text : String) :
    l.addLine line text = (linePieces line text).foldlM addPiece l := by
  simp only [addLine, linePieces, List.foldlM_append, List.foldlM_map, addStatement_eq_foldlM]
  rfl

theorem foldlM_of_addLines {texts : List String} (h : l.addLines line texts = .ok l') :
    (piecesFrom line texts).foldlM addPiece l = .ok l' := by
  induction texts generalizing l line with
  | nil =>
    cases h
    rfl
  | cons text texts ih =>
    rw [addLines] at h
    split at h
    · cases h
    next l₁ hl =>
      rw [piecesFrom, List.foldlM_append, ← addLine_eq_foldlM, hl]
      exact ih h

theorem foldlM_addPiece {I : List Piece → Listing → Prop}
    (keep : ∀ {ps l p l'}, I ps l → l.addPiece p = .ok l' → I (ps ++ [p]) l') {ps qs : List Piece}
    (h : I ps l) (hl : qs.foldlM addPiece l = .ok l') : I (ps ++ qs) l' := by
  induction qs generalizing ps l with
  | nil =>
    cases hl
    simpa using h
  | cons q qs ih =>
    rw [List.foldlM_cons, bind_eq_ok] at hl
    obtain ⟨l₁, hq, hqs⟩ := hl
    simpa using ih (keep h hq) hqs

end

theorem lookup_cons_ne {name name' : String} (h : name' ≠ name) (o : Int)
    (labels : List (String × Int)) :
    ((name, o) :: labels).lookup name' = labels.lookup name' := by
  simp [List.lookup_cons, beq_eq_false_iff_ne.2 h]

theorem exists_addInstruction (l : Listing) (line : Nat) (d : Draft) :
    ∃ used, l.addInstruction line d =
      { l with drafts := l.drafts.push (d, line), offset := l.offset + d.instr.length, used } := by
  unfold addInstruction
  split
  · exact ⟨_, rfl⟩
  · exact ⟨_, rfl⟩

def instructions (l : Listing) : List Instruction := l.drafts.toList.map fun d => d.1.instr

/-- The draft is what the line says. -/
def Drafted (cs : List Char) (d : Draft) : Prop := instruction d.instr.offset cs = .ok d

/-- What a listing knows after some pieces. -/
structure Records (ps : List Piece) (l : Listing) : Prop where
  drafts : List.Forall₂ Drafted (ps.filterMap Piece.instruction?) (l.drafts.toList.map Prod.fst)
  placed : Placed l.instructions
  offset : l.offset = encodedLength l.instructions
  stands : ∀ {name o}, l.labels.lookup name = some o → Stands ps l.instructions name o
  fresh : ∀ {name}, l.labels.lookup name = none → .label name ∉ ps
  handlers : l.handlers.toList = ps.filterMap Piece.handler?
  vars : l.vars.toList = ps.filterMap Piece.var?

namespace Records

theorem empty : Records [] {} where
  drafts := .nil
  placed := .nil
  offset := rfl
  stands := by simp
  fresh := by simp
  handlers := rfl
  vars := rfl

section

variable {ps : List Piece} {l l' : Listing}

theorem length_eq (h : Records ps l) :
    (ps.filterMap Piece.instruction?).length = l.instructions.length := by
  simpa [instructions] using h.drafts.length_eq

theorem addLabel (h : Records ps l) {name : String} (hl : l.addLabel name = .ok l') :
    Records (ps ++ [.label name]) l' := by
  unfold Listing.addLabel at hl
  split at hl
  · cases hl
  next hname =>
    cases hl
    rw [Option.not_isSome_iff_eq_none] at hname
    refine ⟨?_, h.placed, h.offset, ?_, ?_, ?_, ?_⟩
    · simpa [List.filterMap_cons, Piece.instruction?] using h.drafts
    · intro name' o ho
      by_cases heq : name' = name
      · subst heq
        simp only [List.lookup_cons_self, Option.some.injEq] at ho
        refine ⟨ps, [], rfl, h.fresh hname, List.not_mem_nil, ?_⟩
        rw [h.length_eq, ← ho, h.offset]
        exact congrArg encodedLength (List.take_length).symm
      · rw [lookup_cons_ne heq] at ho
        exact (h.stands ho).snoc (by simpa using Ne.symm heq)
    · intro name' ho
      by_cases heq : name' = name
      · subst heq
        simp at ho
      · rw [lookup_cons_ne heq] at ho
        simpa [heq] using h.fresh ho
    · simpa [List.filterMap_cons, Piece.handler?] using h.handlers
    · simpa [List.filterMap_cons, Piece.var?] using h.vars

theorem addDirective (h : Records ps l) {line : Nat} {cs : List Char} {d : Directive}
    (hd : directive cs = .ok d) : Records (ps ++ [.directive line cs]) (l.addDirective line d) := by
  have hstands {name : String} {o : Int} (ho : l.labels.lookup name = some o) :
      Stands (ps ++ [.directive line cs]) l.instructions name o := (h.stands ho).snoc (by simp)
  have hfresh {name : String} (ho : l.labels.lookup name = none) :
      .label name ∉ ps ++ [.directive line cs] := by simpa using h.fresh ho
  have hdrafts : List.Forall₂ Drafted
      ((ps ++ [Piece.directive line cs]).filterMap Piece.instruction?)
      (l.drafts.toList.map Prod.fst) := by
    simpa [List.filterMap_cons, Piece.instruction?] using h.drafts
  cases d <;> refine ⟨hdrafts, h.placed, h.offset, hstands, hfresh, ?_, ?_⟩ <;>
    simp [Listing.addDirective, useLocal, Piece.handler?, Piece.var?, hd, h.handlers, h.vars]

theorem addInstruction (h : Records ps l) {line : Nat} {cs : List Char} {d : Draft}
    (hd : instruction l.offset cs = .ok d) :
    Records (ps ++ [.instruction line cs]) (l.addInstruction line d) := by
  obtain ⟨op, -, -, -, hreads⟩ := of_instruction hd
  have hoffset : d.instr.offset = l.offset := hreads.offset
  obtain ⟨used, heq⟩ := exists_addInstruction l line d
  have hinstrs : (l.addInstruction line d).instructions = l.instructions ++ [d.instr] := by
    simp [heq, instructions]
  refine ⟨?_, ?_, ?_, ?_, ?_, ?_, ?_⟩
  · rw [heq, List.filterMap_append]
    simp only [Array.toList_push, List.map_append]
    refine List.rel_append h.drafts (.cons ?_ .nil)
    rw [Drafted, hoffset]
    exact hd
  · rw [hinstrs]
    exact h.placed.snoc (hoffset.trans h.offset)
  · rw [hinstrs, heq]
    simp [h.offset, encodedLength]
  · intro name o ho
    rw [heq] at ho
    rw [hinstrs]
    exact ((h.stands ho).append h.length_eq).snoc (by simp)
  · intro name ho
    rw [heq] at ho
    simpa using h.fresh ho
  · simpa [heq, List.filterMap_cons, Piece.handler?] using h.handlers
  · simpa [heq, List.filterMap_cons, Piece.var?] using h.vars

theorem addPiece (h : Records ps l) {p : Piece} (hl : l.addPiece p = .ok l') :
    Records (ps ++ [p]) l' := by
  cases p with
  | label name => exact h.addLabel hl
  | directive line cs =>
    obtain ⟨d, hd, rfl⟩ := map_eq_ok.1 hl
    exact h.addDirective hd
  | instruction line cs =>
    obtain ⟨d, hd, rfl⟩ := map_eq_ok.1 hl
    exact h.addInstruction hd

end

end Records

theorem labelOffset_eq_ok {l : Listing} {line : Nat} {label : String} {o : Int} :
    l.labelOffset line label = .ok o ↔ l.labels.lookup label = some o := by
  unfold labelOffset
  split
  next h => simp [h]
  next h => simp [h]

theorem map_target_zipWith {cs : List SwitchCase} {offsets : List Int}
    (h : offsets.length = cs.length) :
    (cs.zipWith (fun c target => { c with target }) offsets).map SwitchCase.target = offsets := by
  induction cs generalizing offsets with
  | nil => simpa using h
  | cons c cs ih =>
    cases offsets with
    | nil => simp at h
    | cons o offsets => simpa using ih (by simpa using h)

section

variable {l : Listing} {d : Draft} {line : Nat} {i instr : Instruction}

theorem exists_of_resolveInstruction (h : l.resolveInstruction d line = .ok i) :
    ∃ target offsets,
      (∀ label, d.target = some label → l.labels.lookup label = some target) ∧
      List.Forall₂ (fun label o => l.labels.lookup label = some o) d.caseTargets offsets ∧
      i = { d.instr with
        target
        cases := d.instr.cases.zipWith (fun c target => { c with target }) offsets } := by
  have hcases {offsets : List Int} (hm : d.caseTargets.mapM (l.labelOffset line) = .ok offsets) :
      List.Forall₂ (fun label o => l.labels.lookup label = some o) d.caseTargets offsets :=
    (forall₂_of_mapM hm).imp fun _ _ => labelOffset_eq_ok.1
  unfold resolveInstruction at h
  split at h
  next label htarget =>
    simp only [bind_eq_ok, pure_eq_ok] at h
    obtain ⟨target, ht, offsets, hm, rfl⟩ := h
    refine ⟨target, offsets, ?_, hcases hm, rfl⟩
    rintro label' hl
    rw [htarget] at hl
    cases hl
    exact labelOffset_eq_ok.1 ht
  next htarget =>
    simp only [bind_eq_ok, pure_eq_ok] at h
    obtain ⟨target, -, offsets, hm, rfl⟩ := h
    refine ⟨target, offsets, ?_, hcases hm, rfl⟩
    intro label hl
    rw [htarget] at hl
    cases hl

theorem targets_of_resolveInstruction {ws : List String} (hd : d.Reads instr ws)
    (h : l.resolveInstruction d line = .ok i) :
    List.Forall₂ (fun label o => l.labels.lookup label = some o)
      (d.target.toList ++ d.caseTargets) i.targets := by
  obtain ⟨target, offsets, htarget, hcases, rfl⟩ := exists_of_resolveInstruction h
  have hlen : offsets.length = d.instr.cases.length := hcases.length_eq.symm.trans hd.cases
  have hflow : d.instr.op.flow = instr.operation.flow := by rw [hd.op]; rfl
  have hnames := hd.names
  generalize d.target = label?, d.caseTargets = labels, instr.operation = op at *
  simp only [Instruction.targets, hflow, map_target_zipWith hlen]
  cases hnames with
  | jump hjump =>
    cases hcases
    have htargets := List.Forall₂.cons (htarget _ rfl) .nil
    simp only [List.mem_cons, List.not_mem_nil, or_false] at hjump
    rcases hjump with hjump | hjump | hjump <;> simpa [hjump] using htargets
  | table => exact .cons (htarget _ rfl) hcases
  | lookup => exact .cons (htarget _ rfl) hcases
  | none hnext =>
    cases hcases
    split <;> simp_all

theorem extent_of_resolveInstruction {ws : List String} (hd : d.Reads instr ws)
    (h : l.resolveInstruction d line = .ok i) :
    d.instr.SameExtent i ∧ i.op = instr.op ∧ i.missingOperand? = none := by
  obtain ⟨target, offsets, -, hcases, rfl⟩ := exists_of_resolveInstruction h
  refine ⟨⟨rfl, ?_⟩, hd.op, hd.complete⟩
  have hlen : offsets.length = d.instr.cases.length := hcases.length_eq.symm.trans hd.cases
  simp [Instruction.length, Instruction.operation, hlen]

end

theorem exists_of_resolveVar {l : Listing} {d : VarDraft} {v : LocalVariable}
    (h : l.resolveVar d = .ok v) :
    ∃ first last, l.labelOffset d.line d.first = .ok first ∧
      l.labelOffset d.line d.last = .ok last ∧
      v = ⟨d.slot, d.name, d.descriptor, first, last - first⟩ := by
  simp only [resolveVar, bind_eq_ok, pure_eq_ok] at h
  obtain ⟨first, hfirst, last, hlast, rfl⟩ := h
  exact ⟨first, last, hfirst, hlast, rfl⟩

theorem exists_of_resolve {l : Listing} {c : Code} (h : l.resolve = .ok c) :
    List.Forall₂ (fun d i => l.resolveInstruction d.1 d.2 = .ok i) l.drafts.toList
      c.instructions ∧
    List.Forall₂ (fun d p => l.resolveHandler d = .ok p) l.handlers.toList c.handlers ∧
    List.Forall₂ (fun d v => l.resolveVar d = .ok v) l.vars.toList c.locals := by
  simp only [resolve, bind_eq_ok, pure_eq_ok] at h
  obtain ⟨is, his, ps, hps, vs, hvs, rfl⟩ := h
  exact ⟨forall₂_of_mapM his, forall₂_of_mapM hps, forall₂_of_mapM hvs⟩

end Listing

theorem fitting_eq_map {ls : List (List Char)} (h : (Text.Lines.ofLines ls).overlong = false) :
    (Text.Lines.ofLines ls).fitting = ls.map fun l => String.ofList (Text.dropReturn l) := by
  induction ls with
  | nil => rfl
  | cons l ls ih =>
    rw [Text.Lines.ofLines] at h ⊢
    split at h
    · cases h
    next hfits =>
      rw [if_neg hfits]
      simpa [Text.Lines.cons] using ih h

theorem foldlM_of_assemble {source : String} {c : Code} (h : assemble source = .ok c) :
    ∃ l : Listing, (pieces source).foldlM Listing.addPiece {} = .ok l ∧ l.resolve = .ok c := by
  simp only [assemble, bind_eq_ok] at h
  obtain ⟨l, hl, h⟩ := h
  split at h
  · cases h
  next hfits =>
    refine ⟨l, ?_, h⟩
    have hlines := Listing.foldlM_of_addLines hl
    rw [Text.linesOf, fitting_eq_map (by simpa [Text.linesOf] using hfits), List.map_map] at hlines
    exact hlines

theorem records_of_assemble {source : String} {c : Code} (h : assemble source = .ok c) :
    ∃ l : Listing, l.Records (pieces source) ∧ l.resolve = .ok c := by
  obtain ⟨l, hl, hc⟩ := foldlM_of_assemble h
  exact ⟨l, Listing.foldlM_addPiece (fun hr hp => hr.addPiece hp) Listing.Records.empty hl, hc⟩

/-- What the line of an instruction says: its mnemonic, and labels for its targets. -/
structure Assembled (ps : List Piece) (is : List Instruction) (cs : List Char) (i : Instruction) :
    Prop where
  mnemonic : i.op.name = (splitMnemonic cs).1
  targets : ∃ label? labels, Names i.operation (Text.fields (splitMnemonic cs).2) label? labels ∧
    List.Forall₂ (Stands ps is) (label?.toList ++ labels) i.targets

/-- The code that the pieces of a text stand for. -/
structure LaidOut (ps : List Piece) (c : Code) : Prop where
  first : ∀ i, c.instructions.head? = some i → i.offset = 0
  next : c.instructions.IsChain fun i j => j.offset = i.offset + i.length
  increasing : c.instructions.Pairwise fun i j => i.offset < j.offset
  instructions :
    List.Forall₂ (Assembled ps c.instructions) (ps.filterMap Piece.instruction?) c.instructions
  handlers : List.Forall₂
    (fun d p => Stands ps c.instructions d.first p.first ∧ Stands ps c.instructions d.last p.last ∧
      Stands ps c.instructions d.entry p.entry ∧ p.catchType = d.catchType)
    (ps.filterMap Piece.handler?) c.handlers
  locals : List.Forall₂
    (fun d v => Stands ps c.instructions d.first v.start ∧
      Stands ps c.instructions d.last (v.start + v.length) ∧
      v.slot = d.slot ∧ v.name = d.name ∧ v.descriptor = d.descriptor)
    (ps.filterMap Piece.var?) c.locals
  boundary : ∀ name o, Stands ps c.instructions name o →
    (∃ i ∈ c.instructions, i.offset = o) ∨ o = encodedLength c.instructions
  length : c.length = word (encodedLength c.instructions)

namespace Listing

variable {ps : List Piece} {l : Listing} {c : Code}

theorem Records.exists_draft (h : l.Records ps) (hc : l.resolve = .ok c) {k : Nat}
    {i : Instruction} (hi : c.instructions[k]? = some i) :
    ∃ cs d line, (ps.filterMap Piece.instruction?)[k]? = some cs ∧
      l.drafts.toList[k]? = some (d, line) ∧ Drafted cs d ∧ l.resolveInstruction d line = .ok i := by
  obtain ⟨⟨d, line⟩, hd, hres⟩ := exists_of_forall₂ (exists_of_resolve hc).1 hi
  obtain ⟨cs, hcs, hdrafted⟩ := exists_of_forall₂ h.drafts (i := k) (b := d) (by simp [hd])
  exact ⟨cs, d, line, hcs, hd, hdrafted, hres⟩

theorem Records.sameExtent (h : l.Records ps) (hc : l.resolve = .ok c) :
    List.Forall₂ Instruction.SameExtent l.instructions c.instructions := by
  rw [instructions, List.forall₂_map_left_iff, forall₂_iff_getElem?]
  refine ⟨(exists_of_resolve hc).1.length_eq, fun {k x i} hx hi => ?_⟩
  obtain ⟨cs, d, line, -, hd, hdrafted, hres⟩ := h.exists_draft hc hi
  obtain ⟨op, -, -, -, hreads⟩ := of_instruction hdrafted
  cases hx.symm.trans hd
  exact (extent_of_resolveInstruction hreads hres).1

theorem Records.complete (h : l.Records ps) (hc : l.resolve = .ok c) :
    ∀ i ∈ c.instructions, i.Complete := by
  intro i hi
  obtain ⟨k, hi⟩ := List.getElem?_of_mem hi
  obtain ⟨cs, d, line, -, -, hdrafted, hres⟩ := h.exists_draft hc hi
  obtain ⟨op, hvalid, hwide, -, hreads⟩ := of_instruction hdrafted
  obtain ⟨-, rfl, hmissing⟩ := extent_of_resolveInstruction hreads hres
  exact ⟨hvalid, hwide, hmissing⟩

theorem Records.assembled (h : l.Records ps) (hc : l.resolve = .ok c) :
    List.Forall₂ (Assembled ps c.instructions) (ps.filterMap Piece.instruction?)
      c.instructions := by
  have hlen := h.length_eq.trans (h.sameExtent hc).length_eq
  refine forall₂_iff_getElem?.2 ⟨hlen, fun {k x i} hx hi => ?_⟩
  obtain ⟨cs, d, line, hcs, -, hdrafted, hres⟩ := h.exists_draft hc hi
  obtain ⟨op, -, -, hname, hreads⟩ := of_instruction hdrafted
  cases hx.symm.trans hcs
  obtain ⟨-, rfl, -⟩ := extent_of_resolveInstruction hreads hres
  refine ⟨hname, d.target, d.caseTargets, hreads.names, ?_⟩
  exact (targets_of_resolveInstruction hreads hres).imp fun _ _ ho =>
    (h.stands ho).congr (h.sameExtent hc)

theorem Records.laidOut (h : l.Records ps) (hc : l.resolve = .ok c) : LaidOut ps c := by
  have hsame := h.sameExtent hc
  have hplaced := h.placed.congr hsame
  have hstands {line : Nat} {name : String} {o : Int} (ho : l.labelOffset line name = .ok o) :
      Stands ps c.instructions name o := (h.stands (labelOffset_eq_ok.1 ho)).congr hsame
  obtain ⟨-, hhandlers, hvars⟩ := exists_of_resolve hc
  refine ⟨?_, hplaced.isChain, hplaced.pairwise, h.assembled hc, ?_, ?_, ?_, hplaced.length_eq⟩
  · intro i hi
    rw [List.head?_eq_getElem?] at hi
    exact hplaced 0 i hi
  · rw [← h.handlers]
    refine hhandlers.imp fun d p hp => ?_
    simp only [resolveHandler, bind_eq_ok, pure_eq_ok] at hp
    obtain ⟨first, hfirst, last, hlast, entry, hentry, rfl⟩ := hp
    exact ⟨hstands hfirst, hstands hlast, hstands hentry, rfl⟩
  · rw [← h.vars]
    refine hvars.imp fun d v hv => ?_
    obtain ⟨first, last, hfirst, hlast, rfl⟩ := exists_of_resolveVar hv
    refine ⟨hstands hfirst, ?_, rfl, rfl, rfl⟩
    have hend : first + (last - first) = last := by omega
    simpa only [hend] using hstands hlast
  · rintro name o ⟨before, -, -, -, -, rfl⟩
    exact hplaced.boundary _

theorem Records.instructionDefect?_eq_none (h : l.Records ps) (hc : l.resolve = .ok c) :
    Method.instructionDefect? 0 (-1) c.instructions = none := by
  have hplaced := h.placed.congr (h.sameExtent hc)
  refine Method.instructionDefect?_eq_none.2 ⟨h.complete hc, fun i hi => ?_, hplaced.pairwise⟩
  have := hplaced.offset_nonneg hi
  omega

end Listing

/-- Assembled code is what its text says: an instruction for each line that has one, each where those
before it end, and every label resolved to the offset at which it stands. All that can be wrong with a
method of such code is that there is none, or that a handler protects nothing; the first such handler
is the one that is reported. -/
theorem assembled_code_laidOut {source : String} {c : Code} (h : assemble source = .ok c) :
    LaidOut (pieces source) c ∧
      ∀ m : Method, m.code.instructions = c.instructions → m.code.handlers = c.handlers →
        ∀ d, m.defect? = some d ↔
          (c.instructions = [] ∧ d = .noCode) ∨
          (c.instructions ≠ [] ∧ ∃ k p, c.handlers[k]? = some p ∧ p.last ≤ p.first ∧
            d = .emptyRange k p.first p.last ∧
            ∀ j < k, ∀ q, c.handlers[j]? = some q → q.first < q.last) := by
  obtain ⟨l, hl, hc⟩ := records_of_assemble h
  refine ⟨hl.laidOut hc, fun m hi hh d => ?_⟩
  have hnone := hl.instructionDefect?_eq_none hc
  rw [← hi] at hnone
  rw [Method.defect?_eq_some hnone, Method.handlerDefect?_eq_some, hi, hh]
  simp only [Nat.zero_add]

/-- Labels before and behind their use, a padded switch, a wide form and a handler of nothing. -/
def switching : String :=
  "L0: tableswitch 5 L0 L1 default L2\nL1: iinc 1 200\ngoto L0\nL2:\n" ++
  ".catch all from L2 to L2 using L1\n.var 1 is x I from L0 to L2\n"

theorem assembled_code_laidOut_switching : ∃ c, assemble switching = .ok c ∧
    LaidOut (pieces switching) c ∧
    c.instructions.map Instruction.offset = [0, 24, 30] ∧
    c.instructions.map Instruction.targets = [[33, 0, 24], [], [0]] ∧
    Method.defect? ⟨"A", "m", "()V", true, c⟩ = some (.emptyRange 0 33 33) := by
  have h : (assemble switching).toOption.any fun c => decide (
      c.instructions.map Instruction.offset = [0, 24, 30] ∧
      c.instructions.map Instruction.targets = [[33, 0, 24], [], [0]] ∧
      c.handlers = [⟨33, 33, 24, ""⟩]) := by decide +kernel
  obtain ⟨c, hc, h⟩ := (Option.any_eq_true _ _).1 h
  obtain ⟨hoffsets, htargets, hhandlers⟩ := of_decide_eq_true h
  have hc := toOption_eq_some.1 hc
  obtain ⟨hout, hdefect⟩ := assembled_code_laidOut hc
  refine ⟨c, hc, hout, hoffsets, htargets, ?_⟩
  refine (hdefect ⟨"A", "m", "()V", true, c⟩ rfl rfl _).2 (.inr ⟨?_, 0, ⟨33, 33, 24, ""⟩, ?_⟩)
  · intro hnil
    simp [hnil] at hoffsets
  · simp [hhandlers]

end Assembly

end BytecodeFlow
