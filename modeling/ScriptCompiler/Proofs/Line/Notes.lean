import ScriptCompiler.Proofs.Code.Notes
import ScriptCompiler.Proofs.Layout.Notes
import ScriptCompiler.Script.Basic
import Mathlib.Data.List.Forall2

/-!
# Lines in a stream of notes

The line of an instruction is what the line notes up to its offset make of the
line the unit starts on. Notes are appended at the end of the code of their
section, so a new note changes the line of no instruction that is already
there. `Says` holds of a section whose notes give every logged instruction the
line it was logged with.
-/

namespace ScriptCompiler

open NoteBytes CodedNote

variable {notes notes' : List PlacedNote} {p value pc which : Nat} {n : PlacedNote} {code : Bytes}
  {cs' : List CodedNote} {line' : UInt32} {kind : NoteKind}

/-- The line after a note. -/
def PlacedNote.line (line : UInt32) (n : PlacedNote) : Except Fault UInt32 :=
  NoteStream.lineStep line ⟨n.kind, 0, n.operands⟩

/-- The line after notes, from the line in front of them on. -/
def lineAfter (line : UInt32) (notes : List PlacedNote) : Except Fault UInt32 :=
  notes.foldlM PlacedNote.line line

@[simp] theorem lineAfter_nil (line : UInt32) : lineAfter line [] = .ok line := rfl

theorem lineAfter_cons (line : UInt32) (n : PlacedNote) (notes : List PlacedNote) :
    lineAfter line (n :: notes) = n.line line >>= fun line => lineAfter line notes := by
  rw [lineAfter, List.foldlM_cons]
  rfl

theorem lineAfter_append (line : UInt32) (notes more : List PlacedNote) :
    lineAfter line (notes ++ more) = lineAfter line notes >>= fun line => lineAfter line more := by
  rw [lineAfter, List.foldlM_append]
  rfl

/-- The notes up to an offset. -/
def notesUpTo (notes : List PlacedNote) (pc : Nat) : List PlacedNote :=
  notes.filter fun n => n.offset ≤ pc

theorem notesUpTo_append (notes more : List PlacedNote) (pc : Nat) :
    notesUpTo (notes ++ more) pc = notesUpTo notes pc ++ notesUpTo more pc :=
  List.filter_append ..

theorem notesUpTo_eq_nil (h : ∀ n ∈ notes, pc < n.offset) : notesUpTo notes pc = [] :=
  List.filter_eq_nil_iff.mpr fun n hn => by
    have := h n hn
    simp
    omega

theorem notesUpTo_eq_self (h : ∀ n ∈ notes, n.offset ≤ pc) : notesUpTo notes pc = notes :=
  List.filter_eq_self.mpr fun n hn => by simpa using h n hn

/-- Notes that change lines alike at offsets that lie alike. -/
theorem lineAfter_congr {pc' : Nat}
    (h : List.Forall₂ (fun n n' => (n'.offset ≤ pc' ↔ n.offset ≤ pc) ∧
      ∀ line, n'.line line = n.line line) notes notes') (line : UInt32) :
    lineAfter line (notesUpTo notes' pc') = lineAfter line (notesUpTo notes pc) := by
  induction h generalizing line with
  | nil => rfl
  | @cons n n' notes notes' hn _ ih =>
    simp only [notesUpTo, List.filter_cons, decide_eq_true_eq, hn.1] at ih ⊢
    split
    · rw [lineAfter_cons, lineAfter_cons, hn.2]
      exact congrArg _ (funext ih)
    · exact ih line

theorem lineAfter_congr_all
    (h : List.Forall₂ (fun n n' : PlacedNote => ∀ line, n'.line line = n.line line) notes notes')
    (line : UInt32) : lineAfter line notes' = lineAfter line notes := by
  induction h generalizing line with
  | nil => rfl
  | cons hn _ ih =>
    rw [lineAfter_cons, lineAfter_cons, hn]
    exact congrArg _ (funext ih)

namespace CodedNote

theorem offset_of_mem_placed {offset : Nat} {cs : List CodedNote} (h : n ∈ placed offset cs) :
    offset ≤ n.offset ∧ n.offset ≤ offset + extent cs := by
  induction cs generalizing offset with
  | nil => cases h
  | cons c cs ih =>
    have hrest : n ∈ placed (offset + c.delta) cs →
        offset ≤ n.offset ∧ n.offset ≤ offset + extent (c :: cs) := by
      intro h
      obtain ⟨hlo, hhi⟩ := ih h
      rw [extent_cons]
      omega
    rw [placed] at h
    split at h
    · exact hrest h
    · rcases List.mem_cons.mp h with rfl | h
      · simp only [extent_cons]
        omega
      · exact hrest h

end CodedNote

/-- The line that a terminated stream gives an offset. -/
theorem lineFrom_eq (pc offset : Nat) (line : UInt32) (cs : List CodedNote) :
    NoteStream.lineFrom .terminator pc offset line (cs.map toNote) =
      lineAfter line (notesUpTo (CodedNote.placed offset cs) pc) := by
  induction cs generalizing offset line with
  | nil => rfl
  | cons c cs ih =>
    rw [List.map_cons, NoteStream.lineFrom]
    split
    · rename_i hpast
      rw [notesUpTo_eq_nil, lineAfter_nil]
      intro n hn
      have hpast : pc < offset + c.delta := hpast
      rw [CodedNote.placed] at hn
      split at hn
      · have := CodedNote.offset_of_mem_placed hn
        omega
      · rcases List.mem_cons.mp hn with rfl | hn
        · exact hpast
        · have := CodedNote.offset_of_mem_placed hn
          omega
    · rename_i hpast
      have hpast : offset + c.delta ≤ pc := Nat.le_of_not_lt hpast
      by_cases hfiller : c.kind = .filler
      · have hstep : NoteStream.lineStep line c.toNote = .ok line := by
          simp only [NoteStream.lineStep, toNote, hfiller]
        rw [CodedNote.placed, if_pos hfiller, hstep]
        exact ih _ _
      · have hhead : notesUpTo (⟨c.kind, offset + c.delta, c.operands.map CodedOperand.value⟩ ::
            CodedNote.placed (offset + c.delta) cs) pc =
            ⟨c.kind, offset + c.delta, c.operands.map CodedOperand.value⟩ ::
              notesUpTo (CodedNote.placed (offset + c.delta) cs) pc := by
          simp [notesUpTo, hpast]
        rw [CodedNote.placed, if_neg hfiller, hhead, lineAfter_cons]
        have hstep : NoteStream.lineStep line c.toNote =
            PlacedNote.line line ⟨c.kind, offset + c.delta, c.operands.map CodedOperand.value⟩ := rfl
        rw [hstep]
        cases PlacedNote.line line ⟨c.kind, offset + c.delta, c.operands.map CodedOperand.value⟩ with
        | error e => rfl
        | ok next => exact ih _ _

/-- A kind of note that changes no line. -/
theorem PlacedNote.line_eq (hnewline : n.kind ≠ .newline) (hset : n.kind ≠ .setLine) (line : UInt32) :
    n.line line = .ok line := by
  obtain ⟨kind, offset, operands⟩ := n
  cases kind <;> first | rfl | exact absurd rfl hnewline | exact absurd rfl hset

/-! ## Sections -/

/-- An emitted instruction: its bytes in its section, and the line in force there when they were
appended. -/
structure LoggedInstruction where
  /-- Offset of the opcode. -/
  pc : Nat
  /-- Number of bytes. -/
  length : Nat
  /-- The line. -/
  line : UInt32
  deriving DecidableEq, Repr

/-- The notes of a section lead to a line, and to the line of each logged instruction. -/
structure Says (first : UInt32) (s : CodeSection) (log : List LoggedInstruction) (line : UInt32)
    (cs : List CodedNote) : Prop where
  spells : Spells s.notes cs
  extent : CodedNote.extent cs = s.lastNoteOffset
  inside : s.lastNoteOffset ≤ s.code.size
  after : lineAfter first (CodedNote.placed 0 cs) = .ok line
  each : ∀ e ∈ log, e.pc < s.code.size ∧
    lineAfter first (notesUpTo (CodedNote.placed 0 cs) e.pc) = .ok e.line

namespace Says

variable {first line : UInt32} {s : CodeSection} {log : List LoggedInstruction} {cs : List CodedNote}

variable (h : Says first s log line cs)

include h

theorem offset_le (hn : n ∈ CodedNote.placed 0 cs) : n.offset ≤ s.code.size := by
  have := (CodedNote.offset_of_mem_placed hn).2
  have := h.extent
  have := h.inside
  omega

/-- Code that is appended belongs to the line the notes lead to. -/
theorem append (hsize : s.code.size < code.size) (length : Nat) :
    Says first { s with code } (log ++ [⟨s.code.size, length, line⟩]) line cs := by
  refine ⟨h.spells, h.extent, Nat.le_trans h.inside (Nat.le_of_lt hsize), h.after, fun e he => ?_⟩
  rcases List.mem_append.mp he with he | he
  · exact ⟨Nat.lt_trans (h.each e he).1 hsize, (h.each e he).2⟩
  · obtain rfl := List.mem_singleton.mp he
    refine ⟨hsize, ?_⟩
    rw [notesUpTo_eq_self fun n hn => h.offset_le hn]
    exact h.after

theorem recode (hsize : s.code.size = code.size) : Says first { s with code } log line cs :=
  ⟨h.spells, h.extent, hsize ▸ h.inside, h.after, fun e he => ⟨hsize ▸ (h.each e he).1, (h.each e he).2⟩⟩

/-- The notes with one more at the end of the code. -/
theorem addNote {notes : Bytes} (hspells : Spells notes cs')
    (hextent : CodedNote.extent cs' = s.code.size)
    (hplaced : CodedNote.placed 0 cs' = CodedNote.placed 0 cs ++ [n])
    (hoffset : n.offset = s.code.size) (hline : n.line line = .ok line') (current : UInt32) :
    Says first { s with notes, lastNoteOffset := s.code.size, line := current } log line' cs' := by
  refine ⟨hspells, hextent, Nat.le_refl _, ?_, fun e he => ⟨(h.each e he).1, ?_⟩⟩
  · rw [hplaced, lineAfter_append, h.after]
    show lineAfter line [n] = .ok line'
    rw [lineAfter_cons, hline]
    rfl
  · have hnone : notesUpTo [n] e.pc = [] := notesUpTo_eq_nil fun m hm => by
      obtain rfl := List.mem_singleton.mp hm
      rw [hoffset]
      exact (h.each e he).1
    rw [hplaced, notesUpTo_append, hnone, List.append_nil]
    exact (h.each e he).2

/-- The notes with one that is no line note changed. -/
theorem setNote {notes : Bytes} (hspells : Spells notes cs')
    (hextent : CodedNote.extent cs' = CodedNote.extent cs)
    (hplaced : List.Forall₂ (fun n n' : PlacedNote => n'.offset = n.offset ∧
      ∀ line, n'.line line = n.line line) (CodedNote.placed 0 cs) (CodedNote.placed 0 cs')) :
    Says first { s with notes } log line cs' := by
  refine ⟨hspells, hextent.trans h.extent, h.inside, ?_, fun e he => ⟨(h.each e he).1, ?_⟩⟩
  · rw [lineAfter_congr_all (hplaced.imp fun n n' hn => hn.2)]
    exact h.after
  · rw [lineAfter_congr (hplaced.imp fun n n' hn => ⟨by rw [hn.1], hn.2⟩)]
    exact (h.each e he).2

end Says

/-! ## Emitting notes -/

namespace Generator

@[simp] theorem current_modifySection (g : Generator) (f : CodeSection → CodeSection) :
    (g.modifySection f).current = g.current := by
  unfold modifySection
  cases g.current <;> rfl

@[simp] theorem currentSection_modifySection (g : Generator) (f : CodeSection → CodeSection) :
    (g.modifySection f).currentSection = f g.currentSection := by
  simp only [modifySection, currentSection]
  cases g.current <;> rfl

end Generator

namespace Emit

variable {g g' : Generator} {first line : UInt32} {log : List LoggedInstruction}
  {cs : List CodedNote}

/-- A new note stands at the end of the code, with operands of zero. -/
theorem note_fresh (hs : Spells g.currentSection.notes cs)
    (hextent : CodedNote.extent cs = g.currentSection.lastNoteOffset) (hproper : kind ≠ .null)
    (h : note kind g = .ok p g') :
    kind ≠ .filler ∧ ∃ (front : List CodedNote) (c : CodedNote) (notes : Bytes),
      c.kind = kind ∧ c.operands.map CodedOperand.value = List.replicate kind.arity 0 ∧
      p = (allBytes front).length ∧ CodedNote.placed 0 front = CodedNote.placed 0 cs ∧
      CodedNote.extent front + c.delta = g.currentSection.code.size ∧
      Spells notes (front ++ [c]) ∧ g'.currentSection = { g.currentSection with
        notes, lastNoteOffset := g.currentSection.code.size } := by
  obtain ⟨hinside, hplain, rfl, rfl⟩ := note_ok.mp h
  obtain ⟨delta, hdelta⟩ : ∃ delta,
      delta = g.currentSection.code.size - g.currentSection.lastNoteOffset := ⟨_, rfl⟩
  have hfillers : ∀ f ∈ fillerRun delta, f.kind = .filler := fun _ => kind_of_mem_fillerRun
  refine ⟨hplain, cs ++ fillerRun delta, .plain kind (ownDelta delta) hproper hplain
    (ownDelta_lt delta), _, rfl, by simp [plain], ?_, ?_, ?_, ?_,
    Generator.currentSection_modifySection ..⟩
  · rw [allBytes_append, List.length_append, ← hs.size, allBytes_fillerRun,
      Array.length_toList, hdelta]
    rfl
  · rw [placed_append, placed_fillers hfillers, List.append_nil]
  · have := extent_fillerRun delta
    rw [extent_append]
    simp only [plain]
    omega
  · rw [List.append_assoc, hdelta]
    exact hs.append _ hproper hplain

/-- One operand of a note of the current section is set. -/
theorem setNote_spells {front back : List CodedNote} {c : CodedNote}
    (hs : Spells g.currentSection.notes (front ++ c :: back)) (hwhich : which < c.kind.arity)
    (h : setNote (allBytes front).length which value g = .ok () g') :
    ∃ hvalue notes, Spells notes (front ++ c.setOperand which value hvalue :: back) ∧
      g'.currentSection = { g.currentSection with notes } := by
  simp only [setNote, guard_tooLarge_ok, get_bind, Nat.not_le] at h
  obtain ⟨hvalue, h⟩ := h
  obtain ⟨place, hplace, hcomplete, hwrite⟩ := writable_of_parts hs.parts hwhich hvalue
  simp only [hplace, hcomplete, if_true, modify_ok] at h
  subst h
  refine ⟨hvalue, _, ?_, Generator.currentSection_modifySection ..⟩
  rw [Spells, hwrite]
  simp

/-- A note that sets the line stands at the end of the code. -/
theorem setLine_fresh (hs : Spells g.currentSection.notes cs)
    (hextent : CodedNote.extent cs = g.currentSection.lastNoteOffset)
    (h : note1 .setLine value g = .ok p g') : ∃ cs' notes, Spells notes cs' ∧
      cs'.getLast?.map CodedNote.kind = some .setLine ∧
      CodedNote.extent cs' = g.currentSection.code.size ∧
      CodedNote.placed 0 cs' = CodedNote.placed 0 cs ++
        [⟨.setLine, g.currentSection.code.size, [value]⟩] ∧
      g'.currentSection = { g.currentSection with
        notes, lastNoteOffset := g.currentSection.code.size } := by
  simp only [note1, bind_ok, pure_ok] at h
  obtain ⟨p', g₁, hnote, _, _, hset, -, rfl⟩ := h
  obtain ⟨-, front, c, notes, hkind, hvalues, rfl, hplaced, hextent, hspells, hsection⟩ :=
    note_fresh hs hextent (by decide) hnote
  have hspells₁ : Spells g₁.currentSection.notes (front ++ [c]) := by
    rw [hsection]
    exact hspells
  obtain ⟨hvalue, notes', hspells', hsection'⟩ :=
    setNote_spells hspells₁ (by rw [hkind]; decide) hset
  have hone : (c.setOperand 0 value hvalue).operands.map CodedOperand.value = [value] := by
    rw [values_setOperand, hvalues]
    rfl
  refine ⟨_, notes', hspells', by simp [hkind], by simpa using hextent, ?_, by rw [hsection', hsection]⟩
  rw [placed_append, hplaced, CodedNote.placed, Nat.zero_add, delta_setOperand,
    hextent, hone, kind_setOperand, hkind, if_neg (by decide), CodedNote.placed]

/-- A note that is no line note changes no line. -/
theorem note_says (hs : Says first g.currentSection log line cs) (hproper : kind ≠ .null)
    (hline : ∀ offset, PlacedNote.line line ⟨kind, offset, List.replicate kind.arity 0⟩ = .ok line')
    (h : note kind g = .ok p g') : (∃ cs', Says first g'.currentSection log line' cs') ∧
      g'.currentSection.line = g.currentSection.line := by
  obtain ⟨hplain, front, c, notes, hkind, hvalues, -, hplaced, hextent, hspells, hsection⟩ :=
    note_fresh hs.spells hs.extent hproper h
  have hadded := hs.addNote (n := ⟨kind, g.currentSection.code.size, List.replicate kind.arity 0⟩)
    hspells (by simpa using hextent) (by
      rw [placed_append, hplaced, CodedNote.placed, Nat.zero_add, hextent, hkind, hvalues,
        if_neg hplain, CodedNote.placed]) rfl (hline _) g.currentSection.line
  rw [hsection]
  exact ⟨⟨_, hadded⟩, rfl⟩

/-- A note that sets the line. -/
theorem setLine_says (hs : Says first g.currentSection log line cs)
    (h : note1 .setLine value g = .ok p g') :
    (∃ cs', Says first g'.currentSection log (UInt32.ofNat value) cs') ∧
      g'.currentSection.line = g.currentSection.line ∧
      g'.currentSection.lastNoteOffset = g.currentSection.code.size := by
  obtain ⟨cs', notes, hspells, -, hextent, hplaced, hsection⟩ := setLine_fresh hs.spells hs.extent h
  rw [hsection]
  exact ⟨⟨cs', hs.addNote hspells hextent hplaced rfl rfl g.currentSection.line⟩, rfl, rfl⟩

/-- Each relative line note adds one. -/
theorem newlines_says (hs : Says first g.currentSection log line cs) {count : Nat}
    (hroom : line.toNat + count < 4294967296) (h : repeatNote .newline count g = .ok () g') :
    (∃ cs', Says first g'.currentSection log (line + UInt32.ofNat count) cs') ∧
      g'.currentSection.line = g.currentSection.line := by
  induction count generalizing g line cs with
  | zero =>
    obtain ⟨-, rfl⟩ := pure_ok.mp h
    exact ⟨⟨cs, by simpa using hs⟩, rfl⟩
  | succ count ih =>
    simp only [repeatNote, bind_ok] at h
    obtain ⟨_, g₁, hnote, hrest⟩ := h
    have hnext : (line + 1).toNat = line.toNat + 1 := by
      rw [UInt32.toNat_add]
      exact Nat.mod_eq_of_lt (by simp; omega)
    have hstep : ∀ offset, PlacedNote.line line
        ⟨.newline, offset, List.replicate NoteKind.newline.arity 0⟩ = .ok (line + 1) := by
      intro offset
      simp only [PlacedNote.line, NoteStream.lineStep]
      rw [if_pos (by omega)]
    obtain ⟨⟨cs₁, hs₁⟩, hline₁⟩ := note_says hs (by decide) hstep hnote
    obtain ⟨⟨cs₂, hs₂⟩, hline₂⟩ := ih hs₁ (by omega) hrest
    refine ⟨⟨cs₂, ?_⟩, hline₂.trans hline₁⟩
    have hsum : line + UInt32.ofNat (count + 1) = line + 1 + UInt32.ofNat count := by
      rw [UInt32.ofNat_add, UInt32.add_assoc, UInt32.add_comm (UInt32.ofNat count)]
      rfl
    rw [hsum]
    exact hs₂

/-- After a change of line the notes lead to the new line. -/
theorem updateLine_says {target : UInt32}
    (hs : Says first g.currentSection log g.currentSection.line cs)
    (hsmall : g.currentSection.line.toNat < operandLimit) (htarget : target.toNat < operandLimit)
    (h : updateLine target g = .ok () g') : (∃ cs', Says first g'.currentSection log target cs') ∧
      g'.currentSection.line = target := by
  simp only [updateLine, get_bind] at h
  split at h
  · rename_i heq
    obtain ⟨-, rfl⟩ := pure_ok.mp h
    exact ⟨⟨cs, heq ▸ hs⟩, heq.symm⟩
  · rw [modify_bind] at h
    have hs₀ : Says first (g.modifySection fun s => { s with line := target }).currentSection log
        g.currentSection.line cs := by
      rw [Generator.currentSection_modifySection]
      exact ⟨hs.spells, hs.extent, hs.inside, hs.after, hs.each⟩
    have hline₀ : (g.modifySection fun s => { s with line := target }).currentSection.line =
        target := by simp
    split at h
    · simp only [bind_ok, pure_ok] at h
      obtain ⟨_, _, hnote, -, rfl⟩ := h
      obtain ⟨⟨cs', hs'⟩, hline, -⟩ := setLine_says hs₀ hnote
      rw [Nat.min_eq_left (by omega), UInt32.ofNat_toNat] at hs'
      exact ⟨⟨cs', hs'⟩, hline.trans hline₀⟩
    · rename_i hcost
      have hcost : (target - g.currentSection.line).toNat < 4 := by
        have : setLineCost target ≤ 4 := by
          unfold setLineCost
          split <;> omega
        omega
      simp only [operandLimit] at hsmall
      obtain ⟨⟨cs', hs'⟩, hline⟩ := newlines_says hs₀ (by omega) h
      rw [UInt32.ofNat_toNat, UInt32.add_comm, UInt32.sub_add_cancel] at hs'
      exact ⟨⟨cs', hs'⟩, hline.trans hline₀⟩

/-- Setting an operand of a note that is no line note changes no line. -/
theorem setNote_says (hs : Says first g.currentSection log line cs) {position : Nat} {note : Note}
    (hmem : (position, note) ∈ leads g.currentSection.notes) (hwhich : which < note.kind.arity)
    (hkind : note.kind ≠ .setLine) (h : setNote position which value g = .ok () g') :
    (∃ cs', Says first g'.currentSection log line cs') ∧
      g'.currentSection.line = g.currentSection.line := by
  rw [hs.spells.leads] at hmem
  obtain ⟨front, c, back, rfl, rfl, rfl⟩ := split_of_mem_leads hmem
  have hwhich : which < c.kind.arity := hwhich
  have hkind : c.kind ≠ .setLine := hkind
  rw [Nat.zero_add] at h
  obtain ⟨hvalue, notes, hspells, hsection⟩ := setNote_spells hs.spells hwhich h
  have hnewline : c.kind ≠ .newline := by
    intro heq
    rw [heq] at hwhich
    exact Nat.not_lt_zero _ hwhich
  have hfiller : c.kind ≠ .filler := by
    intro heq
    rw [heq] at hwhich
    exact Nat.not_lt_zero _ hwhich
  have hset := hs.setNote hspells (by simp) (by
    rw [placed_append, placed_append]
    refine List.rel_append (List.forall₂_same.mpr fun n _ => ⟨rfl, fun _ => rfl⟩) ?_
    simp only [CodedNote.placed, kind_setOperand, delta_setOperand, hfiller,
      if_false]
    refine .cons ⟨rfl, fun line => ?_⟩ (List.forall₂_same.mpr fun n _ => ⟨rfl, fun _ => rfl⟩)
    rw [PlacedNote.line_eq hnewline hkind, PlacedNote.line_eq hnewline hkind])
  rw [hsection]
  exact ⟨⟨_, hset⟩, rfl⟩

end Emit

end ScriptCompiler
