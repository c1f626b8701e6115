import ScriptCompiler.Proofs.Frame.Code
import ScriptCompiler.Proofs.Line.Finish

/-!
# Joining the notes of the sections

The notes of each section are a run of coded notes that reaches as far as the
offset annotated last. Emitting notes and code keeps this, and so does
resolution, whatever the table of spans holds: growth that is added to the
deltas is added to the offset annotated last. Joining the sections then keeps
every note in place. What the hoisted declarations have behind their last note
goes into a closing line note or into the first delta of main.
-/

namespace ScriptCompiler

open NoteBytes CodedNote

variable {front back : List CodedNote} {c : CodedNote} {kind : NoteKind} {p value : Nat}

/-! ## The notes of a section -/

/-- The notes of a section are a run of coded notes up to the offset annotated last. -/
structure SectionCoded (s : CodeSection) (cs : List CodedNote) : Prop where
  spells : Spells s.notes cs
  ended : cs.getLast?.map CodedNote.kind ≠ some .filler
  extent : CodedNote.extent cs = s.lastNoteOffset

/-- The notes of a section annotate offsets of its code or its end. -/
def CodeSection.NotesInside (s : CodeSection) : Prop := s.lastNoteOffset ≤ s.code.size

namespace SectionCoded

variable {s : CodeSection} {cs : List CodedNote}

/-- There are notes as soon as there are bytes. -/
theorem noteList_eq_nil (h : SectionCoded s cs) : noteList s.notes = [] ↔ s.notes.size = 0 := by
  rw [h.spells.noteList, h.spells.size]
  constructor
  · intro hnone
    cases hcs : cs.getLast? with
    | none => rw [List.getLast?_eq_none_iff.mp hcs, allBytes_nil, List.length_nil]
    | some c =>
      obtain ⟨front, rfl⟩ := List.getLast?_eq_some_iff.mp hcs
      have hc : c.kind ≠ .filler := fun hc => h.ended (by rw [hcs, Option.map_some, hc])
      simp [CodedNote.placed_append, CodedNote.placed, hc] at hnone
  · intro hsize
    rw [h.spells.eq_nil_iff.mpr (h.spells.size.trans hsize)]
    rfl

/-- One note of the run is replaced by one of its kind. -/
theorem ended_congr {c' : CodedNote} (hkind : c'.kind = c.kind)
    (h : (front ++ c :: back).getLast?.map CodedNote.kind ≠ some .filler) :
    (front ++ c' :: back).getLast?.map CodedNote.kind ≠ some .filler := by
  rw [← List.getLast?_map, List.map_append, List.map_cons] at h ⊢
  rwa [hkind]

end SectionCoded

namespace Emit

variable {g g' : Generator} {cs : List CodedNote}

/-- A new note stands at the end of the code, with operands of zero. -/
theorem note_coded (hs : SectionCoded g.currentSection cs) (hproper : kind ≠ .null)
    (h : note kind g = .ok p g') : kind ≠ .filler ∧ ∃ (front : List CodedNote) (c : CodedNote),
      c.kind = kind ∧ c.operands.map CodedOperand.value = List.replicate kind.arity 0 ∧
      p = (allBytes front).length ∧ CodedNote.placed 0 front = CodedNote.placed 0 cs ∧
      SectionCoded g'.currentSection (front ++ [c]) ∧
      g'.currentSection.lastNoteOffset = g.currentSection.code.size ∧
      g'.currentSection.code = g.currentSection.code := by
  obtain ⟨hplain, front, c, notes, hkind, hvalues, hp, hplaced, hextent, hspells, hsection⟩ :=
    note_fresh hs.spells hs.extent hproper h
  rw [hsection]
  refine ⟨hplain, front, c, hkind, hvalues, hp, hplaced, ⟨hspells, ?_, ?_⟩, rfl, rfl⟩
  · simpa [hkind] using hplain
  · simpa using hextent

/-- A new note as one of the notes the section stands for. -/
theorem note_placed (hs : SectionCoded g.currentSection cs) (hproper : kind ≠ .null)
    (h : note kind g = .ok p g') : ∃ cs', SectionCoded g'.currentSection cs' ∧
      CodedNote.placed 0 cs' = CodedNote.placed 0 cs ++
        [⟨kind, g.currentSection.code.size, List.replicate kind.arity 0⟩] := by
  obtain ⟨hplain, front, c, hkind, hvalues, -, hplaced, hs', hlast, -⟩ := note_coded hs hproper h
  have hoffset : CodedNote.extent front + c.delta = g.currentSection.code.size := by
    simpa [hlast] using hs'.extent
  refine ⟨_, hs', ?_⟩
  rw [CodedNote.placed_append, hplaced, CodedNote.placed, Nat.zero_add, hoffset, hvalues, hkind,
    if_neg hplain, CodedNote.placed]

/-- An operand of a note that is there is set. -/
theorem setNote_coded {which : Nat} (hs : SectionCoded g.currentSection (front ++ c :: back))
    (hwhich : which < c.kind.arity)
    (h : setNote (allBytes front).length which value g = .ok () g') : ∃ hvalue,
      SectionCoded g'.currentSection (front ++ c.setOperand which value hvalue :: back) ∧
      g'.currentSection.lastNoteOffset = g.currentSection.lastNoteOffset ∧
      g'.currentSection.code = g.currentSection.code := by
  obtain ⟨hvalue, notes, hspells, hsection⟩ := setNote_spells hs.spells hwhich h
  rw [hsection]
  exact ⟨hvalue, ⟨hspells, SectionCoded.ended_congr (kind_setOperand ..) hs.ended, by
    simpa using hs.extent⟩, rfl, rfl⟩

/-- A line note is appended. -/
theorem setLine_coded (hs : SectionCoded g.currentSection cs)
    (h : note1 .setLine value g = .ok p g') : ∃ cs', SectionCoded g'.currentSection cs' ∧
      g'.currentSection.lastNoteOffset = g.currentSection.code.size ∧
      g'.currentSection.code = g.currentSection.code ∧
      CodedNote.placed 0 cs' = CodedNote.placed 0 cs ++
        [⟨.setLine, g.currentSection.code.size, [value]⟩] := by
  obtain ⟨cs', notes, hspells, hlast, hextent, hplaced, hsection⟩ :=
    setLine_fresh hs.spells hs.extent h
  rw [hsection]
  exact ⟨cs', ⟨hspells, by rw [hlast]; decide, hextent⟩, rfl, rfl, hplaced⟩

theorem repeatNote_coded (hs : SectionCoded g.currentSection cs) (hproper : kind ≠ .null)
    {count : Nat} (h : repeatNote kind count g = .ok () g') :
    (∃ cs', SectionCoded g'.currentSection cs') ∧
      (g.currentSection.NotesInside → g'.currentSection.NotesInside) := by
  induction count generalizing g cs with
  | zero =>
    obtain ⟨-, rfl⟩ := pure_ok.mp h
    exact ⟨⟨cs, hs⟩, id⟩
  | succ count ih =>
    simp only [repeatNote, bind_ok] at h
    obtain ⟨_, g₁, hnote, hrest⟩ := h
    obtain ⟨-, front, c, -, -, -, -, hs₁, hlast, hcode⟩ := note_coded hs hproper hnote
    obtain ⟨hs', hinside⟩ := ih hs₁ hrest
    exact ⟨hs', fun _ => hinside (Nat.le_of_eq (by rw [hlast, hcode]))⟩

end Emit

/-- The caller makes no note that ends a stream, and sets operands of notes that are there. -/
def NoteOperation.Proper (g : Generator) : NoteOperation → Prop
  | note kind => kind ≠ .null
  | setNote position which _ =>
    ∃ note, (position, note) ∈ leads g.currentSection.notes ∧ which < note.kind.arity
  | updateLine _ => True

/-- Operations on notes keep the notes of the current section a run of coded notes. -/
theorem SectionCoded.operation {g g' : Generator} {cs : List CodedNote}
    (hs : SectionCoded g.currentSection cs) (operation : NoteOperation)
    (hproper : operation.Proper g) (hok : operation.run g = .ok () g') :
    (∃ cs', SectionCoded g'.currentSection cs') ∧
      (g.currentSection.NotesInside → g'.currentSection.NotesInside) := by
  cases operation with
  | note kind =>
    simp only [NoteOperation.run, Emit.bind_ok, Emit.pure_ok] at hok
    obtain ⟨_, _, hok, -, rfl⟩ := hok
    obtain ⟨-, front, c, -, -, -, -, hs', hlast, hcode⟩ := Emit.note_coded hs hproper hok
    exact ⟨⟨_, hs'⟩, fun _ => Nat.le_of_eq (by rw [hlast, hcode])⟩
  | setNote position which value =>
    obtain ⟨note, hmem, hwhich⟩ := hproper
    rw [hs.spells.leads] at hmem
    obtain ⟨front, c, back, rfl, rfl, rfl⟩ := split_of_mem_leads hmem
    rw [NoteOperation.run, Nat.zero_add] at hok
    obtain ⟨hvalue, hs', hlast, hcode⟩ := Emit.setNote_coded hs hwhich hok
    exact ⟨⟨_, hs'⟩, fun hinside => by rwa [CodeSection.NotesInside, hlast, hcode]⟩
  | updateLine line =>
    simp only [NoteOperation.run, Emit.updateLine, Emit.get_bind] at hok
    split at hok
    · obtain ⟨-, rfl⟩ := Emit.pure_ok.mp hok
      exact ⟨⟨cs, hs⟩, id⟩
    · rw [Emit.modify_bind] at hok
      have hs₀ : SectionCoded
          (g.modifySection fun s => { s with line := line }).currentSection cs := by
        rw [Generator.currentSection_modifySection]
        exact ⟨hs.spells, hs.ended, hs.extent⟩
      have hinside₀ : g.currentSection.NotesInside →
          (g.modifySection fun s => { s with line := line }).currentSection.NotesInside := by
        rw [Generator.currentSection_modifySection]
        exact id
      split at hok
      · simp only [Emit.bind_ok, Emit.pure_ok] at hok
        obtain ⟨_, _, hnote, -, rfl⟩ := hok
        obtain ⟨cs', hs', hlast, hcode, -⟩ := Emit.setLine_coded hs₀ hnote
        exact ⟨⟨cs', hs'⟩, fun _ => Nat.le_of_eq (by rw [hlast, hcode])⟩
      · obtain ⟨hs', hinside⟩ := Emit.repeatNote_coded hs₀ (by decide) hok
        exact ⟨hs', fun h => hinside (hinside₀ h)⟩

/-! ## Runs -/

/-- A run of a generator, as far as its notes go. -/
inductive Annotating : Generator → Prop where
  | new (filename : String) (first : UInt32) (limits : Limits) :
      Annotating (Generator.new filename first limits)
  /-- Operations on notes. -/
  | note {g g' : Generator} (operation : NoteOperation) (hrun : Annotating g)
      (hproper : operation.Proper g) (hok : operation.run g = .ok () g') : Annotating g'
  /-- Operations on code. -/
  | code {g g' : Generator} {α : Type} {x : Emit α} {a : α} (hrun : Annotating g)
      (hcode : Emit.WritesCode x) (hok : x g = .ok a g') : Annotating g'
  /-- Resolution of the spans. -/
  | resolve {g g' : Generator} (hrun : Annotating g) (hok : Emit.resolveSpans g = .ok () g') :
      Annotating g'
  /-- Anything else: the choice of a section, statements, literals, functions, regions. -/
  | aside {g g' : Generator} (hrun : Annotating g) (hprolog : g'.prolog = g.prolog)
      (hmain : g'.main = g.main) : Annotating g'

/-- Both sections have coded notes, those of the hoisted declarations within their code. -/
structure NotesCoded (g : Generator) : Prop where
  prolog : ∃ cs, SectionCoded g.prolog cs
  inside : g.prolog.NotesInside
  main : ∃ cs, SectionCoded g.main cs

namespace NotesCoded

variable {g g' : Generator}

theorem currentSection (h : NotesCoded g) : ∃ cs, SectionCoded g.currentSection cs := by
  rw [Generator.currentSection]
  split
  · exact h.prolog
  · exact h.main

theorem new (filename : String) (first : UInt32) (limits : Limits) :
    NotesCoded (Generator.new filename first limits) :=
  have hnone : SectionCoded ⟨#[], #[], 0, first⟩ [] := ⟨rfl, by simp, rfl⟩
  ⟨⟨[], hnone⟩, Nat.le_refl 0, [], hnone⟩

theorem note (h : NotesCoded g) (operation : NoteOperation) (hproper : operation.Proper g)
    (hok : operation.run g = .ok () g') : NotesCoded g' := by
  obtain ⟨⟨cs, hprolog⟩, hinside, cs', hmain⟩ := h
  obtain ⟨notes, last, line, hg'⟩ := operation.noted hok
  cases hcurrent : g.current with
  | prolog =>
    have hsection : g.currentSection = g.prolog := by rw [Generator.currentSection, hcurrent]
    obtain ⟨hcoded, hkept⟩ := SectionCoded.operation (hsection ▸ hprolog) operation hproper hok
    rw [hsection] at hkept
    simp only [Generator.modifySection, hcurrent] at hg'
    subst hg'
    exact ⟨hcoded, hkept hinside, cs', hmain⟩
  | main =>
    have hsection : g.currentSection = g.main := by rw [Generator.currentSection, hcurrent]
    obtain ⟨hcoded, -⟩ := SectionCoded.operation (hsection ▸ hmain) operation hproper hok
    simp only [Generator.modifySection, hcurrent] at hg'
    subst hg'
    exact ⟨⟨cs, hprolog⟩, hinside, hcoded⟩

theorem code (h : NotesCoded g) (hcode : CodeOnly g g') : NotesCoded g' := by
  obtain ⟨⟨cs, hprolog⟩, hinside, cs', hmain⟩ := h
  have hsize := hcode.prolog
  rw [hcode.rest]
  exact ⟨⟨cs, hprolog.spells, hprolog.ended, hprolog.extent⟩, Nat.le_trans hinside hsize,
    cs', hmain.spells, hmain.ended, hmain.extent⟩

theorem resolve (h : NotesCoded g) (hok : Emit.resolveSpans g = .ok () g') : NotesCoded g' := by
  cases hon : g.spans.active with
  | false =>
    obtain rfl := resolveSpans_off hon hok
    exact h
  | true =>
    obtain ⟨-, layout, code, notes, last, regions, -, -, -, hnotes, -, rfl⟩ := resolveSpans_ok hon hok
    obtain ⟨hprolog, hinside, cs, hmain⟩ := h
    refine ⟨hprolog, hinside, ?_⟩
    split at hnotes
    · obtain ⟨grown, hfix, rfl⟩ := hnotes
      obtain ⟨cs', hspells, hextent, hlast, -⟩ := Layout.fixNotes_moves hmain.spells hfix
      exact ⟨cs', hspells, hlast ▸ hmain.ended, by rw [hextent, hmain.extent]⟩
    · obtain ⟨rfl, rfl⟩ := hnotes
      exact ⟨cs, hmain.spells, hmain.ended, hmain.extent⟩

end NotesCoded

theorem Annotating.coded {g : Generator} (h : Annotating g) : NotesCoded g := by
  induction h with
  | new filename first limits => exact .new filename first limits
  | note operation _ hproper hok ih => exact ih.note operation hproper hok
  | code _ hcode hok ih => exact ih.code (hcode.ok _ _ _ hok)
  | resolve _ hok ih => exact ih.resolve hok
  | aside _ hprolog hmain ih => exact ⟨hprolog ▸ ih.prolog, hprolog ▸ ih.inside, hmain ▸ ih.main⟩

/-- What a run with a log asks of an operation on notes is more than being proper. -/
theorem NoteOperation.Allowed.proper {g : Generator} {operation : NoteOperation}
    (h : operation.Allowed g) : operation.Proper g := by
  cases operation with
  | note kind => exact h.1
  | setNote position which value =>
    obtain ⟨note, hmem, hwhich, -⟩ := h
    exact ⟨note, hmem, hwhich⟩
  | updateLine line => trivial

/-- Operations on code write code and spans. -/
theorem CodeOperation.writesCode (operation : CodeOperation) : Emit.WritesCode operation.run := by
  cases operation <;> simp only [run] <;> infer_instance

/-- A run with a log is one as far as its notes go. -/
theorem Emission.annotating {first : UInt32} {g : Generator} {log : EmissionLog}
    (h : Emission first g log) : Annotating g := by
  induction h with
  | new filename limits _ => exact .new filename first limits
  | code operation _ hok _ _ ih => exact ih.code operation.writesCode hok
  | note operation _ hallowed hok ih => exact ih.note operation hallowed.proper hok
  | register _ _ _ hok ih => exact ih.code inferInstance hok
  | resolve _ _ hok ih => exact ih.resolve hok
  | aside _ _ hprolog hmain _ ih => exact ih.aside hprolog hmain

/-! ## Joining -/

/-- The terminator is no note. -/
theorem NoteBytes.Spells.leads_push_zero {b : Bytes} {cs : List CodedNote} (h : Spells b cs) :
    NoteBytes.leads (b.push 0) = NoteBytes.leads b := by
  have hle := length_le_allBytes cs
  have hend : NoteStream.readNote (b.push 0) b.size = .error .terminator := by
    simp [NoteStream.readNote]
  have hholds : Bytes.Holds (b.push 0) 0 (allBytes cs) := by
    rw [Array.push_eq_append]
    exact h.holds_append _
  rw [h.leads, NoteBytes.leads,
    leadsFrom_of_holds hholds (by rw [Array.size_push, h.size]; omega), Nat.zero_add, ← h.size]
  cases (b.push 0).size - cs.length with
  | zero => simp [leadsFrom]
  | succ fuel => simp [leadsFrom, hend]

/-- The line note between the sections, if one is needed. -/
def closingNotes (g : Generator) : List PlacedNote :=
  if noteList g.prolog.notes ≠ [] ∧ g.prolog.line ≠ g.firstLine then
    [⟨.setLine, g.prolog.code.size, [g.firstLine.toNat]⟩]
  else []

/-- Runs of two sections one behind the other, the second further on by the code of the first. -/
theorem CodedNote.placed_join {cs cs' more : List CodedNote} {distance : Nat}
    (h : placed (extent cs) more = placed distance cs') :
    placed 0 (cs ++ more) = placed 0 cs ++ (placed 0 cs').map (PlacedNote.shift distance) := by
  rw [placed_append, Nat.zero_add, h, ← placed_shift, Nat.zero_add]

/-- The joined notes: those of the hoisted declarations, a line note if one is needed, and those of
main. -/
theorem joinNotes_noteList {g g' : Generator} {notes : Bytes} (h : NotesCoded g)
    (hok : Emit.joinNotes g = .ok notes g') : ∃ joined cs, notes = joined.push 0 ∧
      Spells joined cs ∧ CodedNote.placed 0 cs = noteList g.prolog.notes ++ closingNotes g ++
        (noteList g.main.notes).map (PlacedNote.shift g.prolog.code.size) := by
  obtain ⟨⟨cs, hprolog⟩, hinside, cs', hmain⟩ := h
  have hempty := hprolog.noteList_eq_nil
  obtain ⟨joined, front, back, hnotes, hspells, hback, hfront⟩ :=
    joinNotes_spells hprolog.spells hprolog.extent hmain.spells hok
  refine ⟨joined, _, hnotes, hspells, ?_⟩
  rw [CodedNote.placed_join hback, closingNotes, hmain.spells.noteList]
  obtain ⟨hneeded, -, hplaced⟩ | ⟨hneeded, rfl⟩ := hfront
  · rw [if_pos ⟨mt hempty.mp hneeded.1, hneeded.2⟩, hplaced, hprolog.spells.noteList]
  · rw [if_neg fun hline => hneeded ⟨mt hempty.mpr hline.1, hline.2⟩, List.append_nil,
      hprolog.spells.noteList]

/-- Finishing a unit keeps every note of the resolved code in place: reading the notes of the script
gives those of the hoisted declarations, a line note if one is needed, and those of main further on
by the code of the hoisted declarations. Reading stops at the last byte, which ends the stream. -/
theorem finish_noteList {g g' : Generator} {s : Script} (hrun : Annotating g)
    (hok : Emit.finish g = .ok s g') : ∃ (g₁ : Generator) (joined : Bytes),
      Emit.resolveSpans { g with current := .main } = .ok () g₁ ∧
      s.mainOffset = g₁.prolog.code.size ∧ s.notes = joined.push 0 ∧
      s.noteStream = ⟨(leads s.notes).map Prod.snd, joined.size, .terminator⟩ ∧
      noteList s.notes = noteList g₁.prolog.notes ++ closingNotes g₁ ++
        (noteList g₁.main.notes).map (PlacedNote.shift s.mainOffset) := by
  simp only [Emit.finish, Emit.switchTo, Emit.modify_bind, Emit.bind_ok, Emit.get_bind,
    Emit.pure_ok] at hok
  obtain ⟨_, g₁, hresolve, notes, g₂, hjoin, hs, -⟩ := hok
  have hmain : Annotating { g with current := .main } := hrun.aside rfl rfl
  have hcoded := (hmain.resolve hresolve).coded
  obtain ⟨joined, cs, hnotes, hspells, hplaced⟩ := joinNotes_noteList hcoded hjoin
  obtain ⟨-, hcurrent⟩ := resolveSpans_frame hresolve
  obtain ⟨prolog, main, rfl, hprolog, -⟩ := joinNotes_ok hcurrent hjoin
  have hoffset : s.mainOffset = g₁.prolog.code.size := by rw [← hs, ← hprolog]
  have hnotes : s.notes = joined.push 0 := by rw [← hs, hnotes]
  refine ⟨g₁, joined, hresolve, hoffset, hnotes, ?_, ?_⟩
  · rw [Script.noteStream, hnotes, hspells.read_push_zero, hspells.leads_push_zero, hspells.leads,
      map_snd_leads]
  · rw [noteList, entries, hnotes, hspells.leads_push_zero, ← entries, ← noteList, hspells.noteList,
      hplaced, hoffset]

/-- A hoisted declaration on the second line of a unit, and a note in main. -/
def hoistedLine : Generator :=
  { Generator.new "unit" 1 .standard with
    prolog := ⟨#[Opcode.nop.toByte], #[32], 0, 2⟩
    main := ⟨#[Opcode.nop.toByte], NoteBytes.append #[] .hidden 1, 1, 1⟩ }

theorem hoistedLine_annotating : Annotating hoistedLine := by
  have hnew := Annotating.new "unit" 1 .standard
  have hprolog : Annotating { Generator.new "unit" 1 .standard with current := .prolog } :=
    hnew.aside rfl rfl
  have hline := hprolog.note (.updateLine 2) trivial rfl
  have hnop := hline.code (x := Emit.op .nop) inferInstance rfl
  have hmain : Annotating { hoistedLine with main := ⟨#[], #[], 0, 1⟩ } := hnop.aside rfl rfl
  have hbody := hmain.code (x := Emit.op .nop) inferInstance rfl
  exact hbody.note (.note .hidden) (show NoteKind.hidden ≠ .null by decide) rfl

theorem finish_noteList_hoistedLine : ∃ s g', Emit.finish hoistedLine = .ok s g' ∧
    noteList s.notes = [⟨.newline, 0, []⟩, ⟨.setLine, 1, [1]⟩, ⟨.hidden, 2, []⟩] := by
  refine ⟨_, _, rfl, ?_⟩
  obtain ⟨g₁, joined, hresolve, -, -, -, hlist⟩ := finish_noteList hoistedLine_annotating rfl
  cases hresolve
  rw [hlist]
  decide

end ScriptCompiler
