import ScriptCompiler.Generator.Notes
import ScriptCompiler.Layout.Resolution

/-!
# Finishing a unit

The sections are joined into one script. Note offsets of the main section then
count from the start of the hoisted declarations: either a line note closes the
first stream at its end, or the bytes behind its last note are added to the
first delta of the second stream.
-/

namespace ScriptCompiler

namespace Emit

/-- Add `distance` to the first delta of a note stream, `step` of it now and the rest in steps that
fit a filler. Only the first step may be empty, so `fuel` exceeds the distance. -/
def pushAhead (notes : Bytes) (distance step : Nat) : Nat → Except Error Bytes
  | 0 => .error (.fault .endless)
  | fuel + 1 => do
    let (notes, _) ← NoteBytes.addToDelta notes 0 step
    let rest := distance - step
    if rest = 0 then return notes
    pushAhead notes rest (min rest (NoteBytes.fillerLimit - 1)) fuel

/-- The notes of both sections as one terminated stream. -/
def joinNotes : Emit Bytes := do
  let g ← get
  if g.prolog.notes.size ≠ 0 ∧ g.prolog.line ≠ g.firstLine then
    switchTo .prolog
    let _ ← note1 .setLine g.firstLine.toNat
    switchTo .main
  else
    if g.prolog.code.size < g.prolog.lastNoteOffset then throw (.fault .overflow)
    let distance := g.prolog.code.size - g.prolog.lastNoteOffset
    match g.main.notes[0]? with
    | none => pure ()
    | some lead =>
      if 0 < distance then
        let notes ← lift (pushAhead g.main.notes distance (min (NoteBytes.headroom lead) distance)
          (distance + 1))
        modify fun g => { g with main := { g.main with notes := notes } }
  let g ← get
  return (g.prolog.notes ++ g.main.notes).push 0

/-- Resolve what is left and hand over the script. -/
def finish : Emit Script := do
  switchTo .main
  resolveSpans
  let notes ← joinNotes
  let g ← get
  return {
    filename := g.filename
    code := g.prolog.code ++ g.main.code
    mainOffset := g.prolog.code.size
    notes := notes
    regions := g.regions
    literals := g.literals.entries
    functions := g.functions
    maxStackDepth := g.depth.high
    firstLine := g.firstLine
    warnings := g.warnings }

end Emit

end ScriptCompiler
