import BytecodeFlow.Proofs.Assembly.Layout
import BytecodeFlow.Proofs.Descriptor.Grammar

/-!
The methods that calls name. An operand is cut into owner, name and descriptor without loss.
Conversely, an operand put together from such parts is read back as them, in a line that is not too
long: the slash behind the owner is the last one that has an opening parenthesis after it.
-/

namespace BytecodeFlow

/-- The mnemonic of a call. -/
def Invocation.mnemonic : Invocation → String
  | .virtual => "invokevirtual"
  | .special => "invokespecial"
  | .static => "invokestatic"
  | .interface => "invokeinterface"
  | .dynamic => "invokedynamic"

def Invocation.opcode : Invocation → Opcode
  | .virtual => ⟨182⟩
  | .special => ⟨183⟩
  | .static => ⟨184⟩
  | .interface => ⟨185⟩
  | .dynamic => ⟨186⟩

/-- A word that holds no comment and no literal. -/
structure Assembly.Word (w : List Char) : Prop where
  ne_nil : w ≠ []
  unbroken : ∀ c ∈ w, Text.isBlank c = false
  quote : '"' ∉ w
  slashes : ¬ ['/', '/'] <:+: w
  semicolon : w.head? ≠ some ';'

namespace Member

/-- The operand that names a method in a call. -/
def operand (i : Invocation) (m : Member) : String :=
  if i = .dynamic then m.name ++ m.descriptor else m.owner ++ "/" ++ m.name ++ m.descriptor

/-- A method that a call can name: it has an owner unless the call is dynamic. -/
structure Callable (i : Invocation) (m : Member) : Prop where
  owner : m.owner = "" ↔ i = .dynamic
  name_ne : m.name ≠ ""
  name_slash : '/' ∉ m.name.toList
  name_opening : '(' ∉ m.name.toList

/-- A method that the text of a call can name, by a descriptor that opens one parenthesis. -/
structure Writable (i : Invocation) (m : Member) : Prop extends m.Callable i where
  descriptor : ∃ s, Descriptor.method m.descriptor = .ok s
  opening : m.descriptor.toList.count '(' = 1
  word : Assembly.Word (m.operand i).toList

end Member

namespace Assembly

section Cuts

variable {cs a b : List Char}

theorem exists_of_mem_slashCuts {before : List Char} {cuts : List (List Char × List Char)}
    (h : (a, b) ∈ slashCuts before cuts cs) :
    (a, b) ∈ cuts ∨ a ≠ [] ∧ ∃ p, cs = p ++ '/' :: b ∧ a = before.reverse ++ p := by
  induction cs generalizing before cuts with
  | nil => exact .inl h
  | cons c cs ih =>
    rw [slashCuts] at h
    split at h
    next hc =>
      obtain ⟨rfl, hbefore⟩ := hc
      rcases ih h with h | ⟨ha, p, rfl, rfl⟩
      · rcases List.mem_cons.1 h with heq | h
        · cases heq
          exact .inr ⟨by simpa using hbefore, [], rfl, by simp⟩
        · exact .inl h
      · exact .inr ⟨ha, '/' :: p, rfl, by simp⟩
    · rcases ih h with h | ⟨ha, p, rfl, rfl⟩
      · exact .inl h
      · exact .inr ⟨ha, c :: p, rfl, by simp⟩

theorem slashCuts_eq_append (before : List Char) (cuts : List (List Char × List Char))
    (cs : List Char) : slashCuts before cuts cs = slashCuts before [] cs ++ cuts := by
  induction cs generalizing before cuts with
  | nil => rfl
  | cons c cs ih =>
    rw [slashCuts, slashCuts]
    split
    · rw [ih, ih _ [_], List.append_assoc]
      rfl
    · exact ih _ _

/-- The cuts behind a slash come first, and then the cut at it. -/
theorem exists_slashCuts_append (before : List Char) (cuts : List (List Char × List Char))
    (h : before.reverse ++ a ≠ []) :
    ∃ earlier, slashCuts before cuts (a ++ '/' :: b) =
      slashCuts ('/' :: (a.reverse ++ before)) [] b ++ (before.reverse ++ a, b) :: earlier := by
  induction a generalizing before cuts with
  | nil =>
    refine ⟨cuts, ?_⟩
    rw [List.nil_append, slashCuts, if_pos ⟨rfl, by simpa using h⟩, slashCuts_eq_append]
    simp
  | cons c a ih =>
    rw [List.cons_append, slashCuts]
    split
    all_goals simpa using ih (c :: before) _ (by simp)

theorem eq_of_nameAndDescriptor? {name descriptor : List Char}
    (h : nameAndDescriptor? cs = some (name, descriptor)) :
    cs = name ++ descriptor ∧ name ≠ [] ∧ '/' ∉ name ∧ '(' ∉ name ∧ '(' ∈ descriptor := by
  unfold nameAndDescriptor? at h
  dsimp only at h
  split at h
  next c name' rest hname hrest =>
    split at h
    · cases h
      have houtside {d : Char} (hd : d ∈ cs.takeWhile fun c => c != '/' && c != '(') :
          d ≠ '/' ∧ d ≠ '(' := by simpa using List.mem_takeWhile_imp hd
      refine ⟨?_, by simp [hname], ?_, ?_, List.mem_cons_self⟩
      · rw [← hrest, List.takeWhile_append_dropWhile]
      · exact fun hmem => (houtside hmem).1 rfl
      · exact fun hmem => (houtside hmem).2 rfl
    · cases h
  · cases h

theorem nameAndDescriptor?_append {name rest : List Char} (hne : name ≠ []) (hslash : '/' ∉ name)
    (hopening : '(' ∉ name) (htail : isMethodTail ('(' :: rest) = true) :
    nameAndDescriptor? (name ++ '(' :: rest) = some (name, '(' :: rest) := by
  have houtside : ∀ c ∈ name, (c != '/' && c != '(') = true := by
    intro c hc
    simp only [Bool.and_eq_true, bne_iff_ne]
    exact ⟨ne_of_mem_of_not_mem hc hslash, ne_of_mem_of_not_mem hc hopening⟩
  have hstop : ('(' != '/' && '(' != '(') = false := by decide
  unfold nameAndDescriptor?
  dsimp only
  rw [Descriptor.takeWhile_append_of_stop houtside hstop,
    Descriptor.dropWhile_append_of_stop houtside hstop]
  obtain ⟨c, cs, rfl⟩ := List.exists_cons_of_ne_nil hne
  exact if_pos htail

/-- No cut gives a method if every slash stands behind the parenthesis. -/
theorem findSome?_slashCuts (before : List Char) (h : ∀ p b, cs = p ++ '/' :: b → '(' ∉ b) :
    ((slashCuts before [] cs).findSome? fun x => (nameAndDescriptor? x.2).map fun y =>
      (⟨String.ofList x.1, String.ofList y.1, String.ofList y.2⟩ : Member)) = none := by
  rw [List.findSome?_eq_none_iff]
  rintro ⟨a, b⟩ hab
  rw [Option.map_eq_none_iff, Option.eq_none_iff_forall_ne_some]
  rintro ⟨name, descriptor⟩ hread
  obtain ⟨rfl, -, -, -, hmem⟩ := eq_of_nameAndDescriptor? hread
  rcases exists_of_mem_slashCuts hab with hnil | ⟨-, p, hp, -⟩
  · exact List.not_mem_nil hnil
  · exact h p _ hp (List.mem_append_right _ hmem)

theorem methodOperand?_append {owner name descriptor rest : List Char} (howner : owner ≠ [])
    (hread : nameAndDescriptor? rest = some (name, descriptor))
    (h : ∀ p b, rest = p ++ '/' :: b → '(' ∉ b) :
    methodOperand? (owner ++ '/' :: rest) =
      some ⟨String.ofList owner, String.ofList name, String.ofList descriptor⟩ := by
  obtain ⟨earlier, hcuts⟩ := exists_slashCuts_append (b := rest) [] [] (a := owner) (by simpa)
  unfold methodOperand?
  dsimp only
  rw [hcuts, List.findSome?_append, findSome?_slashCuts _ h]
  simp [hread]

theorem methodOperand?_of_no_owner {name descriptor : List Char}
    (hread : nameAndDescriptor? cs = some (name, descriptor))
    (h : ∀ p b, cs = p ++ '/' :: b → '(' ∉ b) :
    methodOperand? cs = some ⟨"", String.ofList name, String.ofList descriptor⟩ := by
  unfold methodOperand?
  dsimp only
  rw [findSome?_slashCuts _ h, hread]
  rfl

theorem split_of_methodOperand? {m : Member} (h : methodOperand? cs = some m) :
    m.name ≠ "" ∧ '/' ∉ m.name.toList ∧ '(' ∉ m.name.toList ∧
      String.ofList cs =
        if m.owner = "" then m.name ++ m.descriptor
        else m.owner ++ "/" ++ m.name ++ m.descriptor := by
  unfold methodOperand? at h
  dsimp only at h
  rw [Option.or_eq_some_iff] at h
  rcases h with h | ⟨-, h⟩
  · obtain ⟨⟨owner, rest⟩, hcut, h⟩ := List.exists_of_findSome?_eq_some h
    obtain ⟨⟨name, descriptor⟩, hread, rfl⟩ := Option.map_eq_some_iff.1 h
    obtain ⟨rfl, hne, hslash, hopening, -⟩ := eq_of_nameAndDescriptor? hread
    rcases exists_of_mem_slashCuts hcut with hnil | ⟨howner, p, rfl, rfl⟩
    · cases hnil
    · refine ⟨by simpa using hne, by simpa using hslash, by simpa using hopening, ?_⟩
      rw [if_neg (by simpa using howner)]
      simp [String.ext_iff]
  · obtain ⟨⟨name, descriptor⟩, hread, rfl⟩ := Option.map_eq_some_iff.1 h
    obtain ⟨rfl, hne, hslash, hopening, -⟩ := eq_of_nameAndDescriptor? hread
    refine ⟨by simpa using hne, by simpa using hslash, by simpa using hopening, ?_⟩
    rw [if_pos (by simp)]
    simp

/-- Slashes behind a name without any stand behind the parenthesis that follows it. -/
theorem opening_not_mem_of_append {name rest p : List Char} (hslash : '/' ∉ name)
    (hopening : '(' ∉ rest) (h : name ++ '(' :: rest = p ++ '/' :: b) : '(' ∉ b := by
  rcases List.append_eq_append_iff.1 h with ⟨q, rfl, hq⟩ | ⟨q, rfl, hq⟩
  -- the slash is behind the parenthesis
  · cases q with
    | nil => simp at hq
    | cons c q =>
      simp only [List.cons_append, List.cons.injEq] at hq
      rw [hq.2] at hopening
      simp_all
  -- the slash would be in the name
  · cases q with
    | nil => simp at hq
    | cons c q => simp_all

end Cuts

/-- A call names the method whose parts make up the operand on its line. -/
def Named (cs : List Char) (instr : Instruction) : Prop :=
  ∀ i, instr.operation = .invoke i → ∃ w ws m, Text.fields (splitMnemonic cs).2 = w :: ws ∧
    instr.member = some m ∧ m.Callable i ∧ m.operand i = w

section Operand

variable {instr : Instruction} {i : Invocation} {m : Member}

theorem callable_of_methodOperand {path : String} {d : Draft}
    (h : methodOperand instr i path = .ok d) :
    ∃ m, d.instr.member = some m ∧ m.Callable i ∧ m.operand i = path := by
  unfold methodOperand at h
  split at h
  next m hm =>
    split at h
    next howner =>
      cases h
      obtain ⟨hne, hslash, hopening, hpath⟩ := split_of_methodOperand? hm
      refine ⟨m, rfl, ⟨howner, hne, hslash, hopening⟩, ?_⟩
      rw [String.ofList_toList] at hpath
      simpa only [Member.operand, howner] using hpath.symm
    · cases h
  · cases h

theorem named_of_instruction {offset : Int} {cs : List Char} {d : Draft}
    (h : instruction offset cs = .ok d) : Named cs d.instr := by
  intro i hcall
  obtain ⟨op, -, -, -, hread⟩ := operands_of_instruction h
  have hop : d.instr.op = op := (reads_of_operands hread).op
  rw [Instruction.operation, hop] at hcall
  obtain ⟨w, ws, hws, hm⟩ := exists_of_invoke hread hcall
  obtain ⟨m, hmember, hm⟩ := callable_of_methodOperand hm
  exact ⟨w, ws, m, hws, hmember, hm⟩

theorem named_of_assemble {source : String} {c : Code} (h : assemble source = .ok c) :
    List.Forall₂ Named ((pieces source).filterMap Piece.instruction?) c.instructions := by
  obtain ⟨l, hrecords, hc⟩ := records_of_assemble h
  have hlength := hrecords.length_eq.trans (hrecords.sameExtent hc).length_eq
  refine forall₂_iff_getElem?.2 ⟨hlength, fun {k cs instr} hcs hinstr => ?_⟩
  obtain ⟨cs', d, line, hcs', -, hdrafted, hres⟩ := hrecords.exists_draft hc hinstr
  cases hcs.symm.trans hcs'
  -- resolving labels changes targets only
  obtain ⟨target, offsets, -, -, rfl⟩ := Listing.exists_of_resolveInstruction hres
  exact named_of_instruction hdrafted

theorem isMethodTail_chars (t : Descriptor.MethodType) : isMethodTail t.chars = true := by
  obtain ⟨c, cs, hresult⟩ : ∃ c cs, Descriptor.MethodType.resultChars t.result = c :: cs := by
    cases t.result with
    | none => exact ⟨'V', [], rfl⟩
    | some f =>
      obtain ⟨c, cs, hf, -⟩ := f.chars_eq_cons
      exact ⟨c, cs, hf⟩
  simp [isMethodTail, Descriptor.MethodType.chars, hresult]

theorem exists_descriptor_eq_cons (h : m.Writable i) :
    ∃ rest, m.descriptor.toList = '(' :: rest ∧ '(' ∉ rest ∧ isMethodTail ('(' :: rest) = true := by
  obtain ⟨s, hs⟩ := h.descriptor
  obtain ⟨t, ht, -⟩ := Descriptor.method_eq_ok.1 hs
  obtain ⟨rest, hrest⟩ : ∃ rest, t.chars = '(' :: rest := ⟨_, rfl⟩
  have hchars : m.descriptor.toList = '(' :: rest := by
    rw [← ht, Descriptor.MethodType.text, String.toList_ofList, hrest]
  refine ⟨rest, hchars, ?_, hrest ▸ isMethodTail_chars t⟩
  have hcount := h.opening
  rw [hchars, List.count_cons_self] at hcount
  exact List.count_eq_zero.1 (by omega)

theorem methodOperand?_operand (h : m.Writable i) :
    methodOperand? (m.operand i).toList = some m := by
  obtain ⟨rest, hchars, hopening, htail⟩ := exists_descriptor_eq_cons h
  have hread : nameAndDescriptor? (m.name.toList ++ m.descriptor.toList) =
      some (m.name.toList, m.descriptor.toList) := by
    rw [hchars]
    exact nameAndDescriptor?_append (by simpa using h.name_ne) h.name_slash h.name_opening htail
  have hlater (p b : List Char) (hb : m.name.toList ++ m.descriptor.toList = p ++ '/' :: b) :
      '(' ∉ b := opening_not_mem_of_append h.name_slash hopening (hchars ▸ hb)
  by_cases hi : i = .dynamic
  · have howner := h.owner.2 hi
    simp only [Member.operand, hi, if_true, String.toList_append]
    rw [methodOperand?_of_no_owner hread hlater]
    simp [← howner]
  · have howner : m.owner.toList ≠ [] := by simpa using mt h.owner.1 hi
    simp only [Member.operand, hi, if_false, String.toList_append, List.append_assoc]
    refine (methodOperand?_append howner hread hlater).trans ?_
    simp

theorem methodOperand_operand (instr : Instruction) (h : m.Writable i) :
    methodOperand instr i (m.operand i) = .ok { instr := { instr with member := some m } } := by
  unfold methodOperand
  rw [methodOperand?_operand h]
  exact if_pos h.owner

end Operand

section Line

variable {p w : List Char}

theorem commentStart_cons {prev : Option Char} {n : Nat} {c : Char} {cs : List Char}
    (hquote : c ≠ '"')
    (hsemicolon : ¬ (c = ';' ∧ (prev = none ∨ prev = some ' ' ∨ prev = some '\t')))
    (hslash : ¬ (c = '/' ∧ cs.head? = some '/')) :
    commentStart false prev n (c :: cs) = commentStart false (some c) (n + 1) cs := by
  rw [commentStart.eq_def]
  dsimp only
  rw [if_neg Bool.false_ne_true, if_neg hquote, if_neg hsemicolon, if_neg hslash]

theorem commentStart_append {prev : Option Char} {n : Nat}
    (hp : ∀ c ∈ p, c ∉ ['"', ';', '/']) :
    commentStart false prev n (p ++ w) =
      commentStart false (p.getLast?.or prev) (n + p.length) w := by
  induction p generalizing prev n with
  | nil => rfl
  | cons c p ih =>
    have hc := hp c List.mem_cons_self
    simp only [List.mem_cons, List.not_mem_nil, or_false, not_or] at hc
    obtain ⟨hquote, hsemicolon, hslash⟩ := hc
    rw [List.cons_append, commentStart_cons hquote (fun h => hsemicolon h.1) fun h => hslash h.1,
      ih fun d hd => hp d (List.mem_cons_of_mem _ hd)]
    simp [List.getLast?_cons, Nat.add_assoc, Nat.add_comm 1]

theorem commentStart_of_unbroken {prev : Option Char} {n : Nat}
    (hblank : ∀ c ∈ w, Text.isBlank c = false) (hquote : '"' ∉ w) (hslashes : ¬ ['/', '/'] <:+: w)
    (hprev : w.head? = some ';' → ¬ (prev = none ∨ prev = some ' ' ∨ prev = some '\t')) :
    commentStart false prev n w = n + w.length := by
  induction w generalizing prev n with
  | nil => rfl
  | cons c w ih =>
    have hprev' : ¬ (some c = none ∨ some c = some ' ' ∨ some c = some '\t') := by
      have hc := hblank c List.mem_cons_self
      rintro (h | h | h) <;> cases h <;> revert hc <;> decide
    have hhead : ¬ (c = '/' ∧ w.head? = some '/') := by
      rintro ⟨rfl, h⟩
      obtain ⟨w', rfl⟩ := List.head?_eq_some_iff.1 h
      exact hslashes ⟨[], w', rfl⟩
    rw [commentStart_cons (fun h => hquote (h ▸ List.mem_cons_self))
        (fun h => hprev (congrArg some h.1) h.2) hhead,
      ih (fun d hd => hblank d (List.mem_cons_of_mem _ hd)) (fun h => hquote (.tail _ h))
        (fun h => hslashes (h.trans (List.suffix_cons c w).isInfix)) fun _ => hprev']
    simp [Nat.add_assoc, Nat.add_comm 1]

theorem trimChars_eq_self (hfirst : ∀ c, w.head? = some c → Text.isBlank c = false)
    (hlast : ∀ c, w.getLast? = some c → Text.isBlank c = false) : Text.trimChars w = w := by
  have hdrop {cs : List Char} (h : ∀ c, cs.head? = some c → Text.isBlank c = false) :
      cs.dropWhile Text.isBlank = cs := by
    cases cs with
    | nil => rfl
    | cons c cs => exact List.dropWhile_cons_of_neg (by simp [h c rfl])
  rw [Text.trimChars, hdrop hfirst, hdrop (by simpa using hlast), List.reverse_reverse]

namespace Word

variable (hw : Word w)

include hw

theorem trimChars_append (hp : ∀ c, p.head? = some c → Text.isBlank c = false) :
    Text.trimChars (p ++ w) = p ++ w := by
  have hmem {c : Char} (hc : c ∈ w) := hw.unbroken c hc
  refine trimChars_eq_self (fun c hc => ?_) fun c hc => ?_
  · cases p with
    | nil => exact hmem (List.mem_of_mem_head? hc)
    | cons d p => exact hp c hc
  · rw [List.getLast?_append_of_ne_nil _ hw.ne_nil] at hc
    exact hmem (List.mem_of_mem_getLast? hc)

theorem trimChars_cons : Text.trimChars (' ' :: w) = w := by
  have hself := hw.trimChars_append (p := []) (by simp)
  rw [Text.trimChars, List.dropWhile_cons_of_pos (by decide)]
  exact hself

theorem fields_eq : Text.fields (String.ofList w) = [String.ofList w] := by
  obtain ⟨c, cs, rfl⟩ := List.exists_cons_of_ne_nil hw.ne_nil
  have hc := hw.unbroken c List.mem_cons_self
  have hcs : ∀ d ∈ cs, (!Text.isBlank d) = true := fun d hd => by
    simp [hw.unbroken d (List.mem_cons_of_mem _ hd)]
  rw [Text.fields, String.toList_ofList, Text.wordsBy, if_neg (by simp [hc]),
    List.takeWhile_eq_self_iff.2 hcs, List.dropWhile_eq_nil_iff.2 hcs, Text.wordsBy]
  rfl

end Word

/-- Characters of a mnemonic, which end no word and are no comment. -/
def IsName (p : List Char) : Prop :=
  p ≠ [] ∧ ∀ c ∈ p, isLabelChar c = true ∧ Text.isBlank c = false ∧ c ∉ ['"', ';', '/', '.']

variable {line : String} (hp : IsName p) (hw : Word w)

include hp hw

theorem content_eq (hline : line.toList = p ++ ' ' :: w) : content line = p ++ ' ' :: w := by
  have hplain : ∀ c ∈ p ++ [' '], c ∉ ['"', ';', '/'] := by
    intro c hc
    rcases List.mem_append.1 hc with hc | hc
    · have := (hp.2 c hc).2.2
      simp_all
    · rw [List.mem_singleton.1 hc]
      decide
  have hstart : commentStart false none 0 (p ++ ' ' :: w) = (p ++ ' ' :: w).length := by
    rw [List.append_cons, commentStart_append hplain, List.getLast?_concat, Option.some_or,
      commentStart_of_unbroken hw.unbroken hw.quote hw.slashes fun h => absurd h hw.semicolon]
    simp [Nat.add_assoc, Nat.add_comm 1]
  rw [content, hline, hstart, List.take_length, List.append_cons]
  refine hw.trimChars_append fun c hc => ?_
  obtain ⟨d, p', rfl⟩ := List.exists_cons_of_ne_nil hp.1
  cases hc
  exact (hp.2 c List.mem_cons_self).2.1

omit hw in
theorem splitLabels_eq : splitLabels (p ++ ' ' :: w) = ([], p ++ ' ' :: w) := by
  have hlabel : label? (p ++ ' ' :: w) = none := by
    unfold label?
    rw [Descriptor.takeWhile_append_of_stop (fun c hc => (hp.2 c hc).1) (by decide),
      Descriptor.dropWhile_append_of_stop (fun c hc => (hp.2 c hc).1) (by decide)]
    split
    next h => cases h
    · rfl
  rw [splitLabels]
  split
  · rfl
  next h => simp [hlabel] at h

theorem linePieces_eq (hline : line.toList = p ++ ' ' :: w) (n : Nat) :
    linePieces n line = [.instruction n (p ++ ' ' :: w)] := by
  rw [linePieces, content_eq hp hw hline, splitLabels_eq hp]
  obtain ⟨c, p', rfl⟩ := List.exists_cons_of_ne_nil hp.1
  have hc := (hp.2 c List.mem_cons_self).2.2
  rw [List.cons_append, statementPieces]
  · rfl
  · simp
  · intro cs h
    cases h
    simp at hc

theorem splitMnemonic_eq : splitMnemonic (p ++ ' ' :: w) = (String.ofList p, String.ofList w) := by
  have hgap : ∀ c ∈ p, (!(c == ' ' || c == '\t')) = true := by
    intro c hc
    have hblank := (hp.2 c hc).2.1
    simp only [Bool.not_eq_true', Bool.or_eq_false_iff, beq_eq_false_iff_ne]
    constructor <;> rintro rfl <;> revert hblank <;> decide
  unfold splitMnemonic
  dsimp only
  rw [Descriptor.takeWhile_append_of_stop hgap (by decide),
    Descriptor.dropWhile_append_of_stop hgap (by decide), hw.trimChars_cons]

end Line

theorem length_le_byteSize (cs : List Char) : cs.length ≤ Text.byteSize cs := by
  have hfold (n : Nat) : n + cs.length ≤ cs.foldl (fun n c => n + c.utf8Size) n := by
    induction cs generalizing n with
    | nil => simp
    | cons c cs ih =>
      have := ih (n + c.utf8Size)
      have := c.utf8Size_pos
      simp only [List.length_cons, List.foldl_cons]
      omega
  simpa [Text.byteSize] using hfold 0

/-- A text of one line that does not fit is refused, and any other one is that line. -/
theorem linesOf_of_line (cs : List Char) (hne : cs ≠ []) (hfeed : '\n' ∉ cs)
    (hreturn : cs.getLast? ≠ some '\r') :
    Text.linesOf cs =
      if Text.lineLimit ≤ Text.byteSize cs then ⟨[], true⟩ else ⟨[String.ofList cs], false⟩ := by
  have hdrop : cs.dropWhile (· != '\n') = [] :=
    List.dropWhile_eq_nil_iff.2 fun c hc => by simpa using ne_of_mem_of_not_mem hc hfeed
  have hlines : Text.splitLines cs = [(cs, false)] := by
    rw [Text.splitLines]
    split
    · simp [hne]
    next h => simp [hdrop] at h
  have hend : Text.dropReturn cs = cs := by
    unfold Text.dropReturn
    split
    next h => simp [← List.head?_reverse, h] at hreturn
    · rfl
  rw [Text.linesOf, hlines]
  simp only [List.map_cons, List.map_nil, Text.Lines.ofLines, Text.Lines.cons, hend]

section Call

variable {i : Invocation} {m : Member}

theorem isName_mnemonic (i : Invocation) : IsName i.mnemonic.toList := by
  have hall : (i.mnemonic.toList.all fun c =>
      isLabelChar c && !Text.isBlank c && !(['"', ';', '/', '.'].contains c)) = true := by
    cases i <;> decide
  refine ⟨by cases i <;> decide, fun c hc => ?_⟩
  simpa [and_assoc] using List.all_eq_true.1 hall c hc

theorem ofName?_mnemonic (i : Invocation) : Opcode.ofName? i.mnemonic = some i.opcode := by
  have hall : ∀ j ∈ [Invocation.virtual, .special, .static, .interface, .dynamic],
      Opcode.ofName? j.mnemonic = some j.opcode := by decide +kernel
  exact hall i (by cases i <;> decide)

theorem operation_opcode (i : Invocation) : i.opcode.operation = .invoke i := by
  cases i <;> decide +kernel

/-- The line of a call. -/
def callLine (i : Invocation) (m : Member) : String := i.mnemonic ++ " " ++ m.operand i

theorem toList_callLine (i : Invocation) (m : Member) :
    (callLine i m).toList = i.mnemonic.toList ++ ' ' :: (m.operand i).toList := by
  simp [callLine]

theorem instruction_call (h : m.Writable i) (offset : Int) :
    instruction offset (callLine i m).toList =
      .ok { instr := { offset, op := i.opcode, member := some m } } := by
  have hfields : Text.fields (m.operand i) = [m.operand i] := by simpa using h.word.fields_eq
  have hread : operands { offset, op := i.opcode } (m.operand i) =
      .ok { instr := { offset, op := i.opcode, member := some m } } := by
    unfold operands
    simp only [Instruction.operation, operation_opcode, hfields]
    exact methodOperand_operand _ h
  unfold instruction
  rw [toList_callLine, splitMnemonic_eq (isName_mnemonic i) h.word]
  simp only [String.ofList_toList, ofName?_mnemonic, operation_opcode, hread]
  rfl

theorem addLine_call (h : m.Writable i) (l : Listing) (n : Nat) :
    l.addLine n (callLine i m) =
      .ok (l.addInstruction n
        { instr := { offset := l.offset, op := i.opcode, member := some m } }) := by
  have hpieces := linePieces_eq (isName_mnemonic i) h.word (toList_callLine i m) n
  rw [Listing.addLine_eq_foldlM, hpieces, ← toList_callLine, List.foldlM_cons, Listing.addPiece,
    instruction_call h]
  rfl

theorem linesOf_call (h : m.Writable i) :
    Text.linesOf (callLine i m).toList =
      if Text.lineLimit ≤ Text.byteSize (callLine i m).toList then ⟨[], true⟩
      else ⟨[callLine i m], false⟩ := by
  have hmem {c : Char} (hc : c ∈ (callLine i m).toList) : c = ' ' ∨ Text.isBlank c = false := by
    rw [toList_callLine, List.mem_append, List.mem_cons] at hc
    rcases hc with hc | hc | hc
    · exact .inr ((isName_mnemonic i).2 c hc).2.1
    · exact .inl hc
    · exact .inr (h.word.unbroken c hc)
  have hline := linesOf_of_line (callLine i m).toList ?_ ?_ ?_
  · simpa using hline
  · simp [toList_callLine]
  · intro hc
    exact absurd (hmem hc) (by decide)
  · intro hc
    exact absurd (hmem (List.mem_of_mem_getLast? hc)) (by decide)

theorem assemble_call (h : m.Writable i) :
    assemble (callLine i m) =
      if Text.lineLimit ≤ Text.byteSize (callLine i m).toList then .error .overlong
      else .ok { instructions := [{ offset := 0, op := i.opcode, member := some m }] } := by
  rw [assemble, linesOf_call h]
  split
  · rfl
  · simp only [Listing.addLines, addLine_call h]
    rfl

end Call

/-- Assembling cuts the operand of a call into owner, name and descriptor, which make it up again.
Conversely, parts from which an operand can be made up are read back from the line of a call,
wherever it stands; a text that is this line is refused only if it is too long to be read. -/
theorem call_operands_split :
    (∀ source c, assemble source = .ok c →
      List.Forall₂ Named ((pieces source).filterMap Piece.instruction?) c.instructions) ∧
    ∀ i m, Member.Writable i m → ∃ op : Opcode, op.operation = .invoke i ∧
      (∀ (l : Listing) n, l.addLine n (callLine i m) =
        .ok (l.addInstruction n { instr := { offset := l.offset, op, member := some m } })) ∧
      assemble (callLine i m) =
        if Text.lineLimit ≤ Text.byteSize (callLine i m).toList then .error .overlong
        else .ok { instructions := [{ offset := 0, op, member := some m }] } :=
  ⟨fun _ _ => named_of_assemble, fun i _ h =>
    ⟨i.opcode, operation_opcode i, addLine_call h, assemble_call h⟩⟩

/-- The owner has slashes and parentheses of its own, and the descriptor has slashes. -/
def nested : Member := ⟨"a(b)I/C;", "x)y", "([La/b;J)La/c;"⟩

theorem nested_writable : nested.Writable .virtual where
  owner := by decide
  name_ne := by decide
  name_slash := by decide
  name_opening := by decide
  descriptor := ⟨⟨[.object "[La/b;", .long], some (.object "a/c")⟩, by decide +kernel⟩
  opening := by decide
  word := by
    have hall : ((nested.operand .virtual).toList.all fun c => !Text.isBlank c) = true := by decide
    refine ⟨by decide, fun c hc => ?_, by decide, by decide +kernel, by decide⟩
    simpa using List.all_eq_true.1 hall c hc

theorem call_operands_split_nested :
    nested.Writable .virtual ∧
    ∃ op c, op.operation = .invoke .virtual ∧
      assemble "invokevirtual a(b)I/C;/x)y([La/b;J)La/c;" = .ok c ∧
      c.instructions = [{ offset := 0, op, member := some nested }] ∧
      List.Forall₂ Named
        ((pieces "invokevirtual a(b)I/C;/x)y([La/b;J)La/c;").filterMap Piece.instruction?)
        c.instructions := by
  have hline : callLine .virtual nested = "invokevirtual a(b)I/C;/x)y([La/b;J)La/c;" := by decide
  obtain ⟨op, hop, -, h⟩ := call_operands_split.2 _ _ nested_writable
  rw [if_neg (by decide +kernel), hline] at h
  exact ⟨nested_writable, op, _, hop, h, rfl, call_operands_split.1 _ _ h⟩

/-- A method whose owner has a name of `n` characters. -/
def longOwner (n : Nat) : Member := ⟨String.ofList (List.replicate n 'a'), "f", "()V"⟩

theorem operand_longOwner (n : Nat) :
    ((longOwner n).operand .static).toList = List.replicate n 'a' ++ "/f()V".toList := by
  simp [Member.operand, longOwner]

theorem longOwner_writable {n : Nat} (hn : n ≠ 0) : (longOwner n).Writable .static where
  owner := by simp [longOwner, hn]
  name_ne := by simp [longOwner]
  name_slash := by simp [longOwner]
  name_opening := by simp [longOwner]
  descriptor := ⟨_, Descriptor.method_eq_ok.2 ⟨⟨[], none⟩, (by decide : _ = "()V"), rfl⟩⟩
  opening := by simp [longOwner]
  word := by
    have hall {P : Char → Bool} (h : (['a', '/', 'f', '(', ')', 'V'].all P) = true) :
        ∀ c ∈ List.replicate n 'a' ++ "/f()V".toList, P c = true := by
      intro c hc
      refine List.all_eq_true.1 h c ?_
      rcases List.mem_append.1 hc with hc | hc
      · simp [List.eq_of_mem_replicate hc]
      · exact List.mem_cons_of_mem _ hc
    rw [operand_longOwner]
    refine ⟨by simp, fun c hc => ?_, fun h => ?_, fun h => ?_, fun h => ?_⟩
    · simpa using hall (P := fun c => !Text.isBlank c) (by decide) c hc
    · simpa using hall (P := (· != '"')) (by decide) _ h
    · have hcount := h.sublist.count_le '/'
      simp [List.count_replicate] at hcount
    · simpa using hall (P := (· != ';')) (by decide) _ (List.mem_of_mem_head? h)

theorem longOwner_overlong {n : Nat} (h : Text.lineLimit ≤ n) :
    assemble (callLine .static (longOwner n)) = .error .overlong := by
  have hn : n ≠ 0 := by
    rintro rfl
    exact absurd h (by decide)
  rw [assemble_call (longOwner_writable hn)]
  refine if_pos (Nat.le_trans ?_ (length_le_byteSize _))
  rw [toList_callLine, operand_longOwner]
  simp only [List.length_append, List.length_cons, List.length_replicate]
  omega

theorem longOwner_call_refused :
    (longOwner 65536).Writable .static ∧
      assemble (callLine .static (longOwner 65536)) = .error .overlong :=
  ⟨longOwner_writable (by decide), longOwner_overlong (by decide)⟩

end Assembly

end BytecodeFlow
