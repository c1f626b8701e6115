import ScriptCompiler.Generator.State

/-!
# Emitting source notes and regions

A note annotates the offset of the next instruction of the current section. A
change of line is recorded either as a few relative notes or as one absolute
note, whichever takes fewer bytes.
-/

namespace ScriptCompiler

namespace Emit

/-- Append a note at the current offset; answers its position. -/
def note (kind : NoteKind) : Emit Nat := do
  let s := (← get).currentSection
  let offset := s.code.size
  if offset < s.lastNoteOffset then throw (.fault .overflow)
  let delta := offset - s.lastNoteOffset
  let position := NoteBytes.appendPos s.notes delta
  modify fun g => g.modifySection fun s => { s with lastNoteOffset := offset }
  if kind = .filler then inconsistent .directFiller
  modify fun g => g.modifySection fun s => { s with notes := NoteBytes.append s.notes kind delta }
  return position

/-- Set operand `which` of the note at `position` in the current section. -/
def setNote (position which value : Nat) : Emit Unit := do
  if NoteBytes.operandLimit ≤ value then tooLarge
  let notes := (← get).currentSection.notes
  match NoteBytes.operandPos? notes position which with
  | none => outOfBounds
  | some place =>
    if NoteBytes.operandComplete notes place then
      modify fun g => g.modifySection fun s =>
        { s with notes := NoteBytes.writeOperand s.notes place value }
    else outOfBounds

/-- Append a note and set its first operand. -/
def note1 (kind : NoteKind) (operand : Nat) : Emit Nat := do
  let position ← note kind
  setNote position 0 operand
  return position

/-- Append a note and set its first two operands, the later one first. -/
def note2 (kind : NoteKind) (first second : Nat) : Emit Nat := do
  let position ← note kind
  setNote position 1 second
  setNote position 0 first
  return position

/-- Length of the encoded notes of the current section. -/
def noteCount : Emit Nat := do return (← get).currentSection.notes.size

/-- Append `count` notes of one kind. -/
def repeatNote (kind : NoteKind) : Nat → Emit Unit
  | 0 => pure ()
  | count + 1 => do
    let _ ← note kind
    repeatNote kind count

/-- Number of relative notes at which an absolute one is no longer than they are. -/
def setLineCost (line : UInt32) : Nat := if 127 < line.toNat then 4 else 2

/-- Record that the code from here on belongs to `line`. Going back counts as a huge step ahead. -/
def updateLine (line : UInt32) : Emit Unit := do
  let current := (← get).currentSection.line
  if line = current then return
  modify fun g => g.modifySection fun s => { s with line := line }
  let step := (line - current).toNat
  if setLineCost line ≤ step then
    let _ ← note1 .setLine (min line.toNat (NoteBytes.operandLimit - 1))
  else repeatNote .newline step

/-- Record a protected region at a given stack depth. -/
def regionAtDepth (kind : RegionKind) (depth : Int) (start stop : Nat) : Emit Unit := do
  let region ← lift (Region.between kind depth start stop)
  modify fun g => { g with regions := g.regions.push region }

/-- Record a protected region at the current stack depth. -/
def region (kind : RegionKind) (start stop : Nat) : Emit Unit := do
  regionAtDepth kind (← stackDepth) start stop

end Emit

end ScriptCompiler
