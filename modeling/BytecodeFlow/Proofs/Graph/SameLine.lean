import BytecodeFlow.Proofs.Graph.WellFormed
import Mathlib.Data.List.Nodup

/-!
The groups of nodes that have the same place in copies of a source construct. Membership is symmetric and
keeps opcodes. If no two entries of the line table start at one offset, an offset belongs to one entry only,
so that runs do not meet, groups are the classes of an equivalence and a group has one line.
-/

namespace BytecodeFlow

namespace Code

variable {c : Code} {e e' : LineEntry} {offset : Int}

/-- An entry of the line table speaks of an offset: it starts there or before, and no entry starts
between. -/
structure Governs (c : Code) (e : LineEntry) (offset : Int) : Prop where
  mem : e ∈ c.lines
  le : e.start ≤ offset
  last : ∀ e' ∈ c.lines, e'.start ≤ offset → e'.start ≤ e.start

theorem Governs.unique (hc : (c.lines.map LineEntry.start).Nodup) (h : c.Governs e offset)
    (h' : c.Governs e' offset) : e = e' := by
  have hstart : e.start = e'.start :=
    Int.le_antisymm (h'.last e h.mem h.le) (h.last e' h'.mem h'.le)
  exact List.inj_on_of_nodup_map hc h.mem h'.mem hstart

/-- The later of two entries, unless it starts behind the offset. -/
def nearer (offset : Int) (best e : LineEntry) : LineEntry :=
  if e.start ≤ offset ∧ best.start < e.start then e else best

theorem lineAt_eq (c : Code) (offset : Int) :
    c.lineAt offset = (c.lines.foldl (nearer offset) ⟨-1, -1⟩).line := rfl

theorem nearer_cases (offset : Int) (best e : LineEntry) :
    nearer offset best e = best ∧ (e.start ≤ offset → e.start ≤ best.start) ∨
      nearer offset best e = e ∧ e.start ≤ offset ∧ best.start ≤ e.start := by
  rw [nearer]
  split
  next h => exact .inr ⟨rfl, h.1, Int.le_of_lt h.2⟩
  next h => exact .inl ⟨rfl, fun hle => Int.not_lt.1 fun hlt => h ⟨hle, hlt⟩⟩

/-- What a scan of entries keeps: the last one up to the offset, or `best` if none is later. -/
structure Latest (offset : Int) (best : LineEntry) (es : List LineEntry) (r : LineEntry) : Prop where
  found : r = best ∨ r ∈ es ∧ r.start ≤ offset
  le : best.start ≤ r.start
  last : ∀ e ∈ es, e.start ≤ offset → e.start ≤ r.start

theorem latest_foldl (offset : Int) (es : List LineEntry) (best : LineEntry) :
    Latest offset best es (es.foldl (nearer offset) best) := by
  induction es generalizing best with
  | nil => exact ⟨.inl rfl, Int.le_refl _, by simp⟩
  | cons x es ih =>
    obtain ⟨hfound, hle, hlast⟩ := ih (nearer offset best x)
    rw [List.foldl_cons]
    rcases nearer_cases offset best x with ⟨hkeep, hx⟩ | ⟨htake, hx, hbest⟩
    · rw [hkeep] at hfound hle hlast ⊢
      constructor
      · exact hfound.imp_right fun h => ⟨List.mem_cons_of_mem _ h.1, h.2⟩
      · exact hle
      · exact List.forall_mem_cons.2 ⟨fun h => Int.le_trans (hx h) hle, hlast⟩
    · rw [htake] at hfound hle hlast ⊢
      constructor
      · rcases hfound with hfound | ⟨hmem, hstart⟩
        · rw [hfound]
          exact .inr ⟨List.mem_cons_self, hx⟩
        · exact .inr ⟨List.mem_cons_of_mem _ hmem, hstart⟩
      · exact Int.le_trans hbest hle
      · exact List.forall_mem_cons.2 ⟨fun _ => hle, hlast⟩

/-- The line at an offset is that of the entry the offset belongs to, however the table is ordered. -/
theorem Governs.lineAt (hc : (c.lines.map LineEntry.start).Nodup) (hpos : ∀ e ∈ c.lines, 0 ≤ e.start)
    (h : c.Governs e offset) : c.lineAt offset = e.line := by
  obtain ⟨hfound, -, hlast⟩ := latest_foldl offset c.lines ⟨-1, -1⟩
  have he := hlast e h.mem h.le
  have hpos := hpos e h.mem
  rw [lineAt_eq]
  rcases hfound with hfound | ⟨hmem, hstart⟩
  · rw [hfound] at he
    exact absurd (Int.le_trans hpos he) (by decide)
  · rw [Governs.unique hc ⟨hmem, hstart, hlast⟩ h]

theorem perm_sortedLines (c : Code) : c.sortedLines.Perm c.lines := List.mergeSort_perm _ _

theorem pairwise_sortedLines (c : Code) : c.sortedLines.Pairwise fun a b => a.start ≤ b.start := by
  refine (List.pairwise_mergeSort ?_ ?_ c.lines).imp of_decide_eq_true
  · intro a b d hab hbd
    exact decide_eq_true (Int.le_trans (of_decide_eq_true hab) (of_decide_eq_true hbd))
  · intro a b
    simpa using Int.le_total a.start b.start

/-- With distinct offsets there is only one way to sort the entries. -/
theorem sortedLines_eq (hc : (c.lines.map LineEntry.start).Nodup) {es : List LineEntry}
    (hp : es.Perm c.lines) (hs : es.Pairwise fun a b => a.start ≤ b.start) : c.sortedLines = es := by
  refine List.Perm.eq_of_pairwise (fun a b ha hb hab hba => ?_) c.pairwise_sortedLines hs
    (c.perm_sortedLines.trans hp.symm)
  exact List.inj_on_of_nodup_map hc (c.perm_sortedLines.mem_iff.1 ha) (hp.mem_iff.1 hb)
    (Int.le_antisymm hab hba)

end Code

namespace LineRun

variable {c : Code} {es : List LineEntry} {r : LineRun} {n : Nat}

theorem map_entry_ofEntries (c : Code) (es : List LineEntry) : (ofEntries c es).map entry = es := by
  induction es with
  | nil => rfl
  | cons e es ih => rw [ofEntries, List.map_cons, ih]

theorem mem_membersBetween {first last : Int}
    (h : n ∈ (membersBetween c first last).map Prod.fst) :
    ∃ instr, c.instructions[n]? = some instr ∧ first ≤ instr.offset ∧ instr.offset < last := by
  simp only [membersBetween, List.map_map, List.mem_map, List.mem_filter, Bool.and_eq_true,
    decide_eq_true_eq] at h
  obtain ⟨⟨instr, _⟩, ⟨hmem, hfirst, hlast⟩, rfl⟩ := h
  exact ⟨instr, List.mk_mem_zipIdx_iff_getElem?.1 hmem, hfirst, hlast⟩

theorem nodup_membersBetween (c : Code) (first last : Int) :
    ((membersBetween c first last).map Prod.fst).Nodup := by
  have hsub := (List.filter_sublist (l := c.instructions.zipIdx)
    (p := fun x => first ≤ x.1.offset && x.1.offset < last)).map Prod.snd
  rw [List.zipIdx_map_snd] at hsub
  rw [membersBetween, List.map_map]
  exact hsub.nodup (List.nodup_range' ..)

theorem nodup_nodes (hr : r ∈ ofEntries c es) : r.nodes.Nodup := by
  induction es with
  | nil => simp [ofEntries] at hr
  | cons e es ih =>
    rw [ofEntries, List.mem_cons] at hr
    rcases hr with rfl | hr
    · exact nodup_membersBetween c _ _
    · exact ih hr

theorem start_le_of_find? (hsorted : es.Pairwise fun a b => a.start ≤ b.start) {start : Int}
    {next e : LineEntry} (hfind : es.find? (start < ·.start) = some next) (he : e ∈ es)
    (hlater : start < e.start) : next.start ≤ e.start := by
  obtain ⟨-, before, after, rfl, hbefore⟩ := List.find?_eq_some_iff_append.1 hfind
  rcases List.mem_append.1 he with he | he
  · exact absurd hlater (by simpa using hbefore e he)
  · rcases List.mem_cons.1 he with rfl | he
    · exact Int.le_refl _
    · exact (List.pairwise_cons.1 (List.pairwise_append.1 hsorted).2.1).1 e he

/-- The nodes of a run lie between the start of its entry and that of any later one. -/
theorem offset_of_mem_nodes (hsorted : es.Pairwise fun a b => a.start ≤ b.start)
    (hr : r ∈ ofEntries c es) (hn : n ∈ r.nodes) :
    ∃ instr, c.instructions[n]? = some instr ∧ r.entry.start ≤ instr.offset ∧
      ∀ e ∈ es, e.start ≤ instr.offset → e.start ≤ r.entry.start := by
  induction es with
  | nil => simp [ofEntries] at hr
  | cons e es ih =>
    obtain ⟨hfirst, hrest⟩ := List.pairwise_cons.1 hsorted
    rw [ofEntries, List.mem_cons] at hr
    rcases hr with rfl | hr
    · obtain ⟨instr, hi, hle, hlt⟩ := mem_membersBetween hn
      refine ⟨instr, hi, hle, fun x hx hxle => ?_⟩
      rcases List.mem_cons.1 hx with rfl | hx
      · exact Int.le_refl _
      refine Int.not_lt.1 fun hlater => ?_
      -- the run ends before `x`, since the first entry behind `e` does not start after it
      cases hfind : es.find? (e.start < ·.start) with
      | none => exact List.find?_eq_none.1 hfind x hx (by simpa using hlater)
      | some next =>
        have hnext := start_le_of_find? hrest hfind hx hlater
        simp only [hfind] at hlt
        exact Int.not_le.2 hlt (Int.le_trans hnext hxle)
    · obtain ⟨instr, hi, hle, hlast⟩ := ih hrest hr
      refine ⟨instr, hi, hle, List.forall_mem_cons.2 ⟨fun _ => ?_, hlast⟩⟩
      have hmem : r.entry ∈ es := map_entry_ofEntries c es ▸ List.mem_map_of_mem hr
      exact hfirst r.entry hmem

theorem matching_iff {r s : LineRun} : r.matching s = true ↔
    r.entry.line = s.entry.line ∧ r.entry.start ≠ s.entry.start ∧ r.opcodes = s.opcodes := by
  simp [matching, and_assoc]

theorem matching_symm {r s : LineRun} (h : r.matching s = true) : s.matching r = true := by
  obtain ⟨hline, hstart, hops⟩ := matching_iff.1 h
  exact matching_iff.2 ⟨hline.symm, hstart.symm, hops.symm⟩

end LineRun

namespace Code

variable {c : Code} {r s : LineRun} {a b d : Nat}

/-- The runs of the line table. -/
def runs (c : Code) : List LineRun := LineRun.ofEntries c c.sortedLines

theorem twins_eq (c : Code) : c.twins =
    c.runs.flatMap fun r => (c.runs.filter r.matching).flatMap fun s => r.nodes.zip s.nodes := rfl

theorem mem_twins : (a, b) ∈ c.twins ↔ ∃ r ∈ c.runs, ∃ s ∈ c.runs, r.matching s = true ∧
    ∃ k : Nat, r.nodes[k]? = some a ∧ s.nodes[k]? = some b := by
  simp only [twins_eq, List.mem_flatMap, List.mem_filter, and_assoc]
  simp only [List.mem_iff_getElem? (a := (a, b)), List.getElem?_zip_eq_some]

theorem twins_symm (h : (a, b) ∈ c.twins) : (b, a) ∈ c.twins := by
  obtain ⟨r, hr, s, hs, hmatch, k, ha, hb⟩ := mem_twins.1 h
  exact mem_twins.2 ⟨s, hs, r, hr, LineRun.matching_symm hmatch, k, hb, ha⟩

theorem governs_of_mem_runs (hr : r ∈ c.runs) (ha : a ∈ r.nodes) :
    ∃ instr, c.instructions[a]? = some instr ∧ c.Governs r.entry instr.offset := by
  obtain ⟨instr, hi, hle, hlast⟩ := LineRun.offset_of_mem_nodes c.pairwise_sortedLines hr ha
  have hentry : r.entry ∈ c.sortedLines :=
    LineRun.map_entry_ofEntries c c.sortedLines ▸ List.mem_map_of_mem hr
  exact ⟨instr, hi, c.perm_sortedLines.mem_iff.1 hentry, hle,
    fun e he => hlast e (c.perm_sortedLines.mem_iff.2 he)⟩

section Distinct

variable (hc : (c.lines.map LineEntry.start).Nodup)

include hc

theorem eq_of_start_eq (hr : r ∈ c.runs) (hs : s ∈ c.runs) (h : r.entry.start = s.entry.start) :
    r = s := by
  have hstarts : (c.runs.map fun r => r.entry.start).Nodup := by
    rw [← Function.comp_def, ← List.map_map, runs, LineRun.map_entry_ofEntries]
    exact ((c.perm_sortedLines.map _).nodup_iff).2 hc
  exact List.inj_on_of_nodup_map hstarts hr hs h

theorem eq_of_mem_nodes (hr : r ∈ c.runs) (hs : s ∈ c.runs) (ha : a ∈ r.nodes) (ha' : a ∈ s.nodes) :
    r = s := by
  obtain ⟨instr, hi, hgov⟩ := governs_of_mem_runs hr ha
  obtain ⟨instr', hi', hgov'⟩ := governs_of_mem_runs hs ha'
  obtain rfl : instr = instr' := Option.some.inj (hi.symm.trans hi')
  exact eq_of_start_eq hc hr hs (congrArg _ (hgov.unique hc hgov'))

theorem twins_trans (hab : (a, b) ∈ c.twins) (hbd : (b, d) ∈ c.twins) :
    d = a ∨ (a, d) ∈ c.twins := by
  obtain ⟨r, hr, s, hs, hrs, k, ha, hb⟩ := mem_twins.1 hab
  obtain ⟨s', hs', t, ht, hst, k', hb', hd⟩ := mem_twins.1 hbd
  -- `b` has one place in one run, so that `a` and `d` have that place in theirs
  obtain rfl := eq_of_mem_nodes hc hs hs' (List.mem_of_getElem? hb) (List.mem_of_getElem? hb')
  have hlt := (List.getElem?_eq_some_iff.1 hb).1
  obtain rfl := (List.getElem?_inj hlt (LineRun.nodup_nodes hs)).1 (hb.trans hb'.symm)
  obtain ⟨hline, -, hops⟩ := LineRun.matching_iff.1 hrs
  obtain ⟨hline', -, hops'⟩ := LineRun.matching_iff.1 hst
  by_cases hstart : r.entry.start = t.entry.start
  · obtain rfl := eq_of_start_eq hc hr ht hstart
    exact .inl (Option.some.inj (hd.symm.trans ha))
  · have hrt := LineRun.matching_iff.2 ⟨hline.trans hline', hstart, hops.trans hops'⟩
    exact .inr (mem_twins.2 ⟨r, hr, t, ht, hrt, k, ha, hd⟩)

theorem lineAt_of_twins (hpos : ∀ e ∈ c.lines, 0 ≤ e.start) (hab : (a, b) ∈ c.twins)
    {instr instr' : Instruction} (hi : c.instructions[a]? = some instr)
    (hi' : c.instructions[b]? = some instr') : c.lineAt instr.offset = c.lineAt instr'.offset := by
  obtain ⟨r, hr, s, hs, hmatch, k, ha, hb⟩ := mem_twins.1 hab
  obtain ⟨_, hj, hgov⟩ := governs_of_mem_runs hr (List.mem_of_getElem? ha)
  obtain ⟨_, hj', hgov'⟩ := governs_of_mem_runs hs (List.mem_of_getElem? hb)
  cases hi.symm.trans hj
  cases hi'.symm.trans hj'
  rw [hgov.lineAt hc hpos, hgov'.lineAt hc hpos]
  exact (LineRun.matching_iff.1 hmatch).1

end Distinct

end Code

theorem OrderedSet.pairwise_lt (s : NodeSet) : s.toList.Pairwise (· < ·) :=
  s.increasing.imp Nat.compare_eq_lt.1

namespace Graph

/-- Node `b` is in the group of node `a`. -/
def Grouped (g : Graph) (a b : Nat) : Prop := ∃ n, g.nodes[a]? = some n ∧ b ∈ n.sameLine

section Build

variable {m : Method} {g : Graph} {a b d : Nat} {n k : Node}

theorem mem_sameLine_of_build (hb : build m = .ok g) (hn : g.nodes[a]? = some n) :
    b ∈ n.sameLine ↔ b = a ∨ (a, b) ∈ m.code.twins := by
  obtain ⟨-, w, hc, -, rfl⟩ := build_eq_ok hb
  rw [mem_sameLine_ofWiring hn, hc]

theorem grouped_iff (hb : build m = .ok g) :
    g.Grouped a b ↔ a < g.size ∧ (b = a ∨ (a, b) ∈ m.code.twins) := by
  constructor
  · rintro ⟨n, hn, hmem⟩
    exact ⟨node_lt hn, (mem_sameLine_of_build hb hn).1 hmem⟩
  · rintro ⟨hlt, h⟩
    have hn := @Array.getElem?_eq_getElem _ g.nodes a hlt
    exact ⟨_, hn, (mem_sameLine_of_build hb hn).2 h⟩

theorem grouped_symm (hb : build m = .ok g) (h : g.Grouped a b) : g.Grouped b a := by
  obtain ⟨n, hn, hmem⟩ := h
  have hlt := (wf_of_build hb).sameLine_lt hn hmem
  exact (grouped_iff hb).2
    ⟨hlt, ((mem_sameLine_of_build hb hn).1 hmem).imp Eq.symm Code.twins_symm⟩

theorem grouped_trans (hb : build m = .ok g) (hc : (m.code.lines.map LineEntry.start).Nodup)
    (hab : g.Grouped a b) (hbd : g.Grouped b d) : g.Grouped a d := by
  rw [grouped_iff hb] at hab hbd ⊢
  obtain ⟨hlt, rfl | hab⟩ := hab
  · exact hbd
  obtain ⟨-, rfl | hbd⟩ := hbd
  · exact ⟨hlt, .inr hab⟩
  · exact ⟨hlt, Code.twins_trans hc hab hbd⟩

theorem equivalence_grouped (hb : build m = .ok g) (hc : (m.code.lines.map LineEntry.start).Nodup) :
    Equivalence fun a b : Fin g.size => g.Grouped a b where
  refl a := (grouped_iff hb).2 ⟨a.isLt, .inl rfl⟩
  symm := grouped_symm hb
  trans := grouped_trans hb hc

theorem line_of_build (hb : build m = .ok g) (hn : g.nodes[a]? = some n) :
    n.line = m.code.lineAt n.instr.offset := by
  obtain ⟨-, w, hc, -, rfl⟩ := build_eq_ok hb
  obtain ⟨instr, flow, -, -, rfl⟩ := Wiring.getElem?_nodes (getElem?_ofWiring hn)
  rw [hc]

theorem line_of_sameLine (hb : build m = .ok g) (hc : (m.code.lines.map LineEntry.start).Nodup)
    (hpos : ∀ e ∈ m.code.lines, 0 ≤ e.start) (hn : g.nodes[a]? = some n) (hk : g.nodes[b]? = some k)
    (h : b ∈ n.sameLine) : k.line = n.line := by
  rcases (mem_sameLine_of_build hb hn).1 h with rfl | htwin
  · rw [Option.some.inj (hk.symm.trans hn)]
  · rw [line_of_build hb hn, line_of_build hb hk]
    exact (Code.lineAt_of_twins hc hpos htwin (instr_of_build hb hn) (instr_of_build hb hk)).symm

/-- A group is listed in increasing order with its own node in it, membership is symmetric, and the members
have one opcode. If the entries of the line table start at distinct offsets in the code, membership is an
equivalence relation and the members are on one line. -/
theorem sameLine_grouping (hb : build m = .ok g) :
    (∀ (a : Nat) (n : Node), g.nodes[a]? = some n →
      n.sameLine.toList.Pairwise (· < ·) ∧ a ∈ n.sameLine ∧
      ∀ b ∈ n.sameLine, ∃ k, g.nodes[b]? = some k ∧ k.instr.op = n.instr.op) ∧
    (∀ a b : Nat, g.Grouped a b ↔ g.Grouped b a) ∧
    ((m.code.lines.map LineEntry.start).Nodup → (∀ e ∈ m.code.lines, 0 ≤ e.start) →
      (Equivalence fun a b : Fin g.size => g.Grouped a b) ∧
      ∀ (a b : Nat) (n k : Node), g.nodes[a]? = some n → g.nodes[b]? = some k → b ∈ n.sameLine →
        k.line = n.line) := by
  refine ⟨fun a n hn => ?_, fun a b => ⟨grouped_symm hb, grouped_symm hb⟩, fun hc hpos => ?_⟩
  · refine ⟨n.sameLine.pairwise_lt, (wf_of_build hb).mem_sameLine hn, fun b hmem => ?_⟩
    have hk := @Array.getElem?_eq_getElem _ g.nodes b ((wf_of_build hb).sameLine_lt hn hmem)
    exact ⟨_, hk, (op_of_sameLine hb hn hk hmem).symm⟩
  · exact ⟨equivalence_grouped hb hc, fun a b n k hn hk => line_of_sameLine hb hc hpos hn hk⟩

end Build

/-- The graph with given twins. Where they are known, it can be evaluated without sorting a line table. -/
def ofTwins (m : Method) (twins : List (Nat × Nat)) (w : Wiring) : Graph :=
  let nodes := (w.nodes w.edges twins).toArray
  { method := m
    nodes
    dead := unreached (succsIn nodes) ((NodeSet.below nodes.size).erase 0) [0] }

theorem build_of_twins {m : Method} {twins : List (Nat × Nat)} (h : m.code.twins = twins)
    (hd : m.defect? = none) : build m = (wire m.code).map (ofTwins m twins) := by
  simp only [build, hd]
  cases hw : wire m.code with
  | error e => rfl
  | ok w =>
    have hc : w.code = m.code := (Wiring.resolves_of_wire hw).1
    subst h
    rw [← hc]
    rfl

/-- Three copies of a block on one line, in a line table out of order. -/
def tripled : Method where
  className := "a/B"
  name := "m"
  descriptor := "(I)V"
  static := true
  code := {
    instructions := [{ offset := 0, op := ⟨26⟩ }, { offset := 1, op := ⟨87⟩ },
      { offset := 2, op := ⟨0⟩ }, { offset := 3, op := ⟨26⟩ }, { offset := 4, op := ⟨87⟩ },
      { offset := 5, op := ⟨0⟩ }, { offset := 6, op := ⟨26⟩ }, { offset := 7, op := ⟨87⟩ },
      { offset := 8, op := ⟨177⟩ }]
    lines := [⟨6, 5⟩, ⟨0, 5⟩, ⟨8, 9⟩, ⟨3, 5⟩, ⟨2, 6⟩, ⟨5, 8⟩]
    maxLocals := 1 }

theorem twins_tripled : tripled.code.twins =
    [(0, 3), (1, 4), (0, 6), (1, 7), (3, 0), (4, 1), (3, 6), (4, 7), (6, 0), (7, 1), (6, 3), (7, 4)] := by
  have hs : tripled.code.sortedLines = [⟨0, 5⟩, ⟨2, 6⟩, ⟨3, 5⟩, ⟨5, 8⟩, ⟨6, 5⟩, ⟨8, 9⟩] :=
    Code.sortedLines_eq (by decide) (by decide) (by decide)
  rw [Code.twins, hs]
  decide +kernel

theorem sameLine_grouping_tripled : ∃ g n k, build tripled = .ok g ∧ g.nodes[1]? = some n ∧
    g.nodes[7]? = some k ∧ n.sameLine.toList = [1, 4, 7] ∧ n.sameLine.toList.Pairwise (· < ·) ∧
    (g.Grouped 1 7 ↔ g.Grouped 7 1) ∧ (Equivalence fun a b : Fin g.size => g.Grouped a b) ∧
    k.line = n.line := by
  have h : (build tripled).toOption.any fun g => g.nodes[1]?.any fun n => g.nodes[7]?.isSome &&
      n.sameLine.toList == [1, 4, 7] := by
    rw [build_of_twins twins_tripled (by decide +kernel)]
    decide +kernel
  obtain ⟨g, hb, h⟩ := (Option.any_eq_true _ _).1 h
  obtain ⟨n, hn, h⟩ := (Option.any_eq_true _ _).1 h
  obtain ⟨hk, hgroup⟩ := Bool.and_eq_true_iff.1 h
  obtain ⟨k, hk⟩ := Option.isSome_iff_exists.1 hk
  have hgroup := eq_of_beq hgroup
  have hmem : 7 ∈ n.sameLine.toList := by simp [hgroup]
  obtain ⟨hnodes, hsymm, hdistinct⟩ := sameLine_grouping (toOption_eq_some.1 hb)
  obtain ⟨hequiv, hline⟩ := hdistinct (by decide) (by decide)
  exact ⟨g, n, k, toOption_eq_some.1 hb, hn, hk, hgroup, (hnodes 1 n hn).1, hsymm 1 7, hequiv,
    hline 1 7 n k hn hk hmem⟩

end Graph

end BytecodeFlow
