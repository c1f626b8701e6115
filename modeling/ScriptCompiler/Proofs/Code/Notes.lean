import ScriptCompiler.Generator.Notes
import ScriptCompiler.Proofs.Emission

/-!
# Notes leave the code alone

All that a note changes is the notes of the current section, with the offset of
its latest note and the line in force.
-/

namespace ScriptCompiler

variable {kind : NoteKind} {p : Nat}

theorem Generator.modifySection_modifySection (g : Generator) (f h : CodeSection → CodeSection) :
    (g.modifySection f).modifySection h = g.modifySection fun s => h (f s) := by
  simp only [modifySection]
  cases hcurrent : g.current <;> simp

/-- Nothing but notes and the line of the current section changes. -/
def Noted (g g' : Generator) : Prop :=
  ∃ notes lastNoteOffset line, g' = g.modifySection fun s => { s with notes, lastNoteOffset, line }

namespace Noted

variable {g g' g'' : Generator}

/-- A change of the current section that leaves its code alone. -/
theorem of_modify {f : CodeSection → CodeSection} (hcode : ∀ s, (f s).code = s.code) :
    Noted g (g.modifySection f) := by
  have heq : ∀ s : CodeSection, f s = { s with
      notes := (f s).notes, lastNoteOffset := (f s).lastNoteOffset, line := (f s).line } :=
    fun s => by rw [← hcode s]
  refine ⟨(f g.currentSection).notes, (f g.currentSection).lastNoteOffset,
    (f g.currentSection).line, ?_⟩
  simp only [Generator.modifySection, Generator.currentSection]
  cases g.current with
  | prolog => exact congrArg (fun s => { g with prolog := s, current := .prolog }) (heq g.prolog)
  | main => exact congrArg (fun s => { g with main := s, current := .main }) (heq g.main)

theorem refl (g : Generator) : Noted g g := by
  have hsame : g.modifySection id = g := by
    rw [Generator.modifySection]
    split <;> rfl
  have hnoted : Noted g (g.modifySection id) := of_modify fun _ => rfl
  rwa [hsame] at hnoted

theorem trans (h : Noted g g') (h' : Noted g' g'') : Noted g g'' := by
  obtain ⟨notes, offset, line, rfl⟩ := h
  obtain ⟨notes', offset', line', rfl⟩ := h'
  exact ⟨notes', offset', line', Generator.modifySection_modifySection ..⟩

end Noted

namespace Emit

variable {g g' : Generator}

/-- A note goes behind the other notes of the section. -/
theorem note_ok : note kind g = .ok p g' ↔
    ¬g.currentSection.code.size < g.currentSection.lastNoteOffset ∧ kind ≠ .filler ∧
      NoteBytes.appendPos g.currentSection.notes
        (g.currentSection.code.size - g.currentSection.lastNoteOffset) = p ∧
      (g.modifySection fun s => { s with
        notes := NoteBytes.append s.notes kind
          (g.currentSection.code.size - g.currentSection.lastNoteOffset)
        lastNoteOffset := g.currentSection.code.size }) = g' := by
  simp only [note, get_bind, guard_throw_ok, guard_inconsistent_ok, modify_bind, pure_ok,
    Generator.modifySection_modifySection, ne_eq]

theorem note_noted (h : note kind g = .ok p g') : Noted g g' := by
  obtain ⟨-, -, -, rfl⟩ := note_ok.mp h
  exact Noted.of_modify fun _ => rfl

theorem setNote_noted {position which value : Nat} (h : setNote position which value g = .ok () g') :
    Noted g g' := by
  simp only [setNote, guard_tooLarge_ok, get_bind] at h
  obtain ⟨-, h⟩ := h
  cases hplace : NoteBytes.operandPos? g.currentSection.notes position which with
  | none => simp [hplace] at h
  | some place =>
    simp only [hplace] at h
    split at h
    · obtain rfl := modify_ok.mp h
      exact Noted.of_modify fun _ => rfl
    · simp at h

theorem note1_noted {operand : Nat} (h : note1 kind operand g = .ok p g') : Noted g g' := by
  simp only [note1, bind_ok, pure_ok] at h
  obtain ⟨_, g₁, hnote, _, _, hset, -, rfl⟩ := h
  exact (note_noted hnote).trans (setNote_noted hset)

theorem note2_noted {first second : Nat} (h : note2 kind first second g = .ok p g') :
    Noted g g' := by
  simp only [note2, bind_ok, pure_ok] at h
  obtain ⟨_, g₁, hnote, _, g₂, hsecond, _, _, hfirst, -, rfl⟩ := h
  exact ((note_noted hnote).trans (setNote_noted hsecond)).trans (setNote_noted hfirst)

theorem repeatNote_noted {count : Nat} (h : repeatNote kind count g = .ok () g') : Noted g g' := by
  induction count generalizing g with
  | zero =>
    obtain ⟨-, rfl⟩ := pure_ok.mp h
    exact Noted.refl g
  | succ count ih =>
    simp only [repeatNote, bind_ok] at h
    obtain ⟨_, g₁, hnote, hrest⟩ := h
    exact (note_noted hnote).trans (ih hrest)

theorem updateLine_noted {line : UInt32} (h : updateLine line g = .ok () g') : Noted g g' := by
  simp only [updateLine, get_bind] at h
  split at h
  · obtain ⟨-, rfl⟩ := pure_ok.mp h
    exact Noted.refl g
  · rw [modify_bind] at h
    refine (Noted.of_modify (f := fun s => { s with line }) fun _ => rfl).trans ?_
    split at h
    · simp only [bind_ok, pure_ok] at h
      obtain ⟨_, _, hnote, -, rfl⟩ := h
      exact note1_noted hnote
    · exact repeatNote_noted h

end Emit

end ScriptCompiler
