import ScriptCompiler.Bytes
import ScriptCompiler.Error
import ScriptCompiler.Note.Kind

/-!
# Encoded source notes

A note starts with a lead byte. Lead bytes from 192 on are fillers and carry a
six-bit delta, the distance in code bytes from the previously annotated
offset. Any other lead byte has a tag in its upper three bits and a delta in
its lower five: the tags 0 to 4 are kind numbers, and tag 5 says that the next
byte is the kind number. Operands follow, in one byte each or in three bytes
of which the first has its upper bit set. An operand that took three bytes
once keeps them.

Within a stream a note is known by the position of its lead byte. Growing an
operand moves every later note by two bytes.
-/

namespace ScriptCompiler

namespace NoteBytes

/-- Deltas from here on do not fit the lead byte of a regular note. -/
def deltaLimit : Nat := 30

/-- Deltas from here on do not fit a filler. -/
def fillerLimit : Nat := 64

/-- Operands from here on do not fit three bytes. -/
def operandLimit : Nat := 8388608

/-- Tag of the notes whose kind number is in the second byte. -/
def escapeTag : Nat := 5

/-- Whether a lead byte is a filler. -/
def isFiller (lead : UInt8) : Bool := 192 ≤ lead.toNat

/-- The delta a lead byte carries. -/
def leadDelta (lead : UInt8) : Nat :=
  if isFiller lead then lead.toNat - 192 else lead.toNat % 32

/-- The tag of a lead byte that is no filler. -/
def leadTag (lead : UInt8) : Nat := lead.toNat / 32

/-- A filler with the given delta, which is below `fillerLimit`. -/
def fillerByte (delta : Nat) : UInt8 := UInt8.ofNat (192 + delta % 64)

/-- A regular lead byte. -/
def leadByte (tag delta : Nat) : UInt8 := UInt8.ofNat (32 * tag + delta)

/-- Number of bytes in front of the operands. -/
def headerLen (lead : UInt8) : Nat := if leadTag lead = escapeTag then 2 else 1

/-- Whether an operand that starts with this byte takes three bytes. -/
def isLong (first : UInt8) : Bool := 128 ≤ first.toNat

/-- Number of bytes of an operand that starts with this byte. -/
def operandLen (first : UInt8) : Nat := if isLong first then 3 else 1

/-- The kind of the note at `pos`, if its bytes name one. -/
def kindAt? (b : Bytes) (pos : Nat) : Option NoteKind := do
  let lead ← b[pos]?
  if isFiller lead then some .filler
  else if leadTag lead = escapeTag then
    let number ← b[pos + 1]?
    NoteKind.ofNumber? number.toNat
  else NoteKind.ofNumber? (leadTag lead)

/-- Step over `count` operands from `pos` on; `none` when one of them starts past the end. -/
def skipOperands? (b : Bytes) (pos : Nat) : Nat → Option Nat
  | 0 => some pos
  | count + 1 => do
    let first ← b[pos]?
    skipOperands? b (pos + operandLen first) count

/-- Position of operand `which` of the note at `pos`; `none` when the walk leaves the stream. -/
def operandPos? (b : Bytes) (pos which : Nat) : Option Nat := do
  let lead ← b[pos]?
  skipOperands? b (pos + headerLen lead) which

/-- The operand that starts at `pos`; `none` when a byte of it is missing. -/
def operandAt? (b : Bytes) (pos : Nat) : Option Nat := do
  let first ← b[pos]?
  if isLong first then
    let middle ← b[pos + 1]?
    let last ← b[pos + 2]?
    return (first.toNat - 128) * 65536 + middle.toNat * 256 + last.toNat
  else return first.toNat

/-- Operand `which` of the note at `pos`. -/
def operand? (b : Bytes) (pos which : Nat) : Option Nat := do operandAt? b (← operandPos? b pos which)

/-- Length of the note at `pos`, operands included. A note of unknown kind has no operands. -/
def noteLen? (b : Bytes) (pos : Nat) : Option Nat := do
  let lead ← b[pos]?
  let arity := ((kindAt? b pos).map NoteKind.arity).getD 0
  let stop ← skipOperands? b (pos + headerLen lead) arity
  return stop - pos

/-- The fillers that bring a delta below `deltaLimit`: as many full ones as fit, and one for the
rest if that is still too large. -/
def fillersFor (delta : Nat) : Bytes :=
  let full := Array.replicate (delta / 63) (fillerByte 63)
  if deltaLimit ≤ delta % 63 then full.push (fillerByte (delta % 63)) else full

/-- The part of a delta that `fillersFor` leaves to the note itself. -/
def ownDelta (delta : Nat) : Nat := if deltaLimit ≤ delta % 63 then 0 else delta % 63

/-- Lead byte and kind byte of a note with a delta below `deltaLimit`. -/
def header (kind : NoteKind) (delta : Nat) : Bytes :=
  if kind.number < escapeTag then #[leadByte kind.number delta]
  else #[leadByte escapeTag delta, UInt8.ofNat kind.number]

/-- A note at distance `delta` from the one before it, fillers first and all operands zero. -/
def fresh (kind : NoteKind) (delta : Nat) : Bytes :=
  fillersFor delta ++ header kind (ownDelta delta) ++ Array.replicate kind.arity 0

/-- Append a note with zero operands. -/
def append (b : Bytes) (kind : NoteKind) (delta : Nat) : Bytes := b ++ fresh kind delta

/-- Position the note appended next will have. -/
def appendPos (b : Bytes) (delta : Nat) : Nat := b.size + (fillersFor delta).size

/-- Whether the bytes of an operand at `pos` are all there. -/
def operandComplete (b : Bytes) (pos : Nat) : Bool :=
  match b[pos]? with
  | some first => !isLong first || pos + 2 < b.size
  | none => false

/-- Whether the operand at `pos` takes three bytes. -/
def longAt (b : Bytes) (pos : Nat) : Bool := (b[pos]?.map isLong).getD false

/-- Store `value` in the operand at `pos`. A short operand grows when the value needs it. -/
def writeOperand (b : Bytes) (pos value : Nat) : Bytes :=
  let long := longAt b pos
  let room := if 127 < value ∧ long = false then
      (b.insertIdxIfInBounds (pos + 1) 0).insertIdxIfInBounds (pos + 1) 0
    else b
  if 127 < value ∨ long = true then
    ((room.setIfInBounds pos (UInt8.ofNat (128 + value / 65536))).setIfInBounds (pos + 1)
      (UInt8.ofNat (value / 256))).setIfInBounds (pos + 2) (UInt8.ofNat value)
  else room.setIfInBounds pos (UInt8.ofNat value)

/-- Set operand `which` of the note at `pos`. -/
def setOperand (b : Bytes) (pos which value : Nat) : Except Error Bytes := do
  if operandLimit ≤ value then throw (.inconsistent .operandOutOfRange)
  let place ← Error.inBounds (operandPos? b pos which)
  if operandComplete b place then return writeOperand b place value
  else throw (.fault .outOfBounds)

/-- Largest delta that can be added to a lead byte in place. -/
def headroom (lead : UInt8) : Nat :=
  if isFiller lead then fillerLimit - 1 - leadDelta lead else deltaLimit - 1 - leadDelta lead

/-- A lead byte with its delta replaced. -/
def withDelta (lead : UInt8) (delta : Nat) : UInt8 :=
  if isFiller lead then fillerByte delta else UInt8.ofNat (lead.toNat - lead.toNat % 32 + delta)

/-- Add `delta` to the note at `pos`, in place if the lead byte has room and by a filler in front
otherwise. Answers the new bytes and the new position of the note. -/
def addToDelta (b : Bytes) (pos delta : Nat) : Except Error (Bytes × Nat) := do
  let lead ← Error.inBounds b[pos]?
  let limit := if isFiller lead then fillerLimit else deltaLimit
  let sum := leadDelta lead + delta
  if sum < limit then return (b.setIfInBounds pos (withDelta lead sum), pos)
  else if fillerLimit ≤ delta then throw (.inconsistent .deltaTooLarge)
  else return (b.insertIdxIfInBounds pos (fillerByte delta), pos + 1)

end NoteBytes

end ScriptCompiler
