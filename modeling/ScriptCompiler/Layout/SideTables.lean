import ScriptCompiler.Layout.Widening
import ScriptCompiler.Note.Encoding
import ScriptCompiler.Region

/-!
# Notes and regions follow the code

Growth in front of an annotated offset is added to the delta of the note, and
operands that measure distances in the code are measured anew. Regions move
with their first byte and grow with what they contain. The growth in front of
an offset is what the first field not before that offset has moved; behind the
last field it is the growth of the whole code.
-/

namespace ScriptCompiler

namespace Layout

/-- Fields in order with how far each of them has moved. -/
structure Displacement where
  /-- The arms of all sites. -/
  arms : Array Arm
  /-- Growth of the whole code. -/
  growth : Nat

namespace Displacement

/-- Offset before widening of the field at a position. -/
def field (d : Displacement) (index : Nat) : Nat := (d.arms[index]?.map Arm.field).getD 0

/-- How far the field at a position has moved, or the code behind the last field. -/
def moved (d : Displacement) (index : Nat) : Nat := (d.arms[index]?.map Arm.moved).getD d.growth

/-- Position of the first field from `lo` on that is not before `offset`. -/
def nearest (d : Displacement) (offset lo : Nat) : Nat :=
  lowerBound d.field offset (min lo d.arms.size) d.arms.size

end Displacement

/-- Where the walk over the notes stands. -/
structure NoteWalk where
  /-- Annotated offset before widening. -/
  offset : Nat
  /-- Growth added to the notes so far. -/
  growth : Nat
  /-- Number of fields in front of the annotated offset. -/
  passed : Nat

/-- The bytes of one note with room for what is put in front of it. -/
structure NotePiece where
  /-- The bytes. -/
  bytes : Bytes
  /-- Position of the note among them. -/
  position : Nat

/-- Add the growth of every field in front of the annotated offset to the note; at most `fuel`
fields are left. -/
def absorb (d : Displacement) (walk : NoteWalk) (piece : NotePiece) :
    Nat → Except Error (NoteWalk × NotePiece)
  | 0 => .ok (walk, piece)
  | fuel + 1 => do
    if walk.passed < d.arms.size ∧ d.field walk.passed < walk.offset then
      let added := d.moved (walk.passed + 1) - walk.growth
      if 0 < added then
        let (bytes, position) ← NoteBytes.addToDelta piece.bytes piece.position added
        absorb d ⟨walk.offset, walk.growth + added, walk.passed + 1⟩ ⟨bytes, position⟩ fuel
      else absorb d { walk with passed := walk.passed + 1 } piece fuel
    else return (walk, piece)

/-- A distance measured from `pivot`, taken again in the new layout. -/
def remeasure (tooLarge : Error) (d : Displacement) (walk : NoteWalk) (direction : Direction)
    (pivot span : Nat) : Except Error Nat := do
  let target ← match direction with
    | .forward => pure (pivot + span)
    | .backward => if pivot < span then throw (.inconsistent .noteBeforeScript) else pure (pivot - span)
  let lo := if pivot ≤ target then walk.passed else 0
  let moved := target + d.moved (d.nearest target lo)
  let start := pivot + walk.growth
  let distance : Int := match direction with
    | .forward => (moved : Int) - start
    | .backward => (start : Int) - moved
  if distance < 0 then throw (.inconsistent .noteDirection)
  if NoteBytes.operandLimit ≤ distance then throw tooLarge
  return distance.toNat

/-- Measure the operands of a note anew, `count` of them from `which` on. An operand of zero has
not been set and stays. -/
def remeasureOperands (tooLarge : Error) (d : Displacement) (walk : NoteWalk)
    (direction : Direction) (pivot position : Nat) (bytes : Bytes) (which : Nat) :
    Nat → Except Error Bytes
  | 0 => .ok bytes
  | count + 1 => do
    let span ← Error.inBounds (NoteBytes.operand? bytes position which)
    if span = 0 then
      remeasureOperands tooLarge d walk direction pivot position bytes (which + 1) count
    else
      let distance ← remeasure tooLarge d walk direction pivot span
      let bytes ← NoteBytes.setOperand bytes position which distance
      remeasureOperands tooLarge d walk direction pivot position bytes (which + 1) count

/-- Most bytes a note takes: two in front of three operands of three bytes. -/
def longestNote : Nat := 11

/-- Fix the note at the start of `piece`. -/
def fixNote (tooLarge : Error) (d : Displacement) (walk : NoteWalk) (bytes : Bytes) :
    Except Error (NoteWalk × NotePiece) := do
  let lead ← Error.inBounds bytes[0]?
  let walk := { walk with offset := walk.offset + NoteBytes.leadDelta lead }
  let (walk, piece) ← absorb d walk ⟨bytes, 0⟩ (d.arms.size - walk.passed)
  let kind ← Error.orInconsistent .unknownNoteKind (NoteBytes.kindAt? piece.bytes piece.position)
  match kind.spec.measures with
  | none => return (walk, piece)
  | some direction =>
    let bytes ← remeasureOperands tooLarge d walk direction (walk.offset + kind.spec.bias)
      piece.position piece.bytes 0 kind.arity
    return (walk, { piece with bytes })

/-- Fix the notes from `pos` on, with `fixed` the ones before it. Every note takes at least one
byte, so `fuel` is the number of bytes left. -/
def fixNotesFrom (tooLarge : Error) (d : Displacement) (notes : Bytes) (walk : NoteWalk)
    (fixed : Bytes) (pos : Nat) : Nat → Except Error (Bytes × Nat)
  | 0 => .ok (fixed, walk.growth)
  | fuel + 1 => do
    if notes.size ≤ pos then return (fixed, walk.growth)
    let bytes := notes.extract pos (pos + longestNote)
    let (walk, piece) ← fixNote tooLarge d walk bytes
    let length ← Error.inBounds (NoteBytes.noteLen? piece.bytes piece.position)
    let stop := piece.position + length
    let taken := stop - (piece.bytes.size - bytes.size)
    fixNotesFrom tooLarge d notes walk (fixed ++ piece.bytes.extract 0 stop) (pos + taken) fuel

/-- Fix all notes of main code; answers them with the growth in front of the last one. -/
def fixNotes (tooLarge : Error) (d : Displacement) (notes : Bytes) : Except Error (Bytes × Nat) :=
  fixNotesFrom tooLarge d notes ⟨0, 0, 0⟩ #[] 0 notes.size

/-- A region in the new layout. -/
def fixRegion (tooLarge : Error) (d : Displacement) (r : Region) : Except Error Region := do
  let first := d.nearest r.start 0
  let before := d.moved first
  if 4294967296 ≤ r.start + before then throw tooLarge
  let last := d.nearest (r.start + r.length) first
  if last = first then return { r with start := r.start + before }
  let grown := r.length + (d.moved last - before)
  if 4294967296 ≤ grown then throw tooLarge
  return { r with start := r.start + before, length := grown }

end Layout

end ScriptCompiler
