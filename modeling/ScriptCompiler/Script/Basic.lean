import ScriptCompiler.Instruction
import ScriptCompiler.Literal
import ScriptCompiler.Note.Stream
import ScriptCompiler.Region
import ScriptCompiler.Warning

/-!
# Finished scripts

A script is the code of one unit with its side tables and the scripts of its
nested functions. The code is the declarations hoisted to the front followed
by the main section. Note offsets count from the start of the code, region
offsets from the start of the main section. Jumps and switches are read back
as absolute targets.
-/

namespace ScriptCompiler

/-- Compiled code of a script or of a function body. -/
structure Script where
  /-- File the unit comes from. -/
  filename : String
  /-- Hoisted declarations, then main code. -/
  code : Bytes
  /-- Where main code starts. -/
  mainOffset : Nat
  /-- Encoded notes with their terminating zero. -/
  notes : Bytes
  /-- Protected regions, inner ones first. -/
  regions : Array Region
  /-- Literals by index. -/
  literals : Array Literal
  /-- Nested functions by index. -/
  functions : Array Script
  /-- Stack slots a frame needs. -/
  maxStackDepth : Nat
  /-- Line the unit starts on. -/
  firstLine : UInt32
  /-- Underflows found while emitting. -/
  warnings : Array Warning

/-- What selects an arm of a switch. -/
inductive CaseKey where
  /-- An integer of a table switch. -/
  | integer (value : Int)
  /-- The literal index of a lookup pair. -/
  | literal (index : Nat)
  deriving DecidableEq, Repr

/-- The words for a key in listings. -/
def CaseKey.text : CaseKey → String
  | integer value => toString value
  | literal index => "#" ++ toString index

/-- An arm of a switch. -/
structure SwitchArm where
  /-- What selects the arm. -/
  key : CaseKey
  /-- Offset of the instruction it leads to. -/
  target : Nat
  deriving DecidableEq, Repr

/-- A switch as absolute targets. -/
structure SwitchTargets where
  /-- Where control goes when no arm is selected. -/
  fallback : Nat
  /-- The arms in the order of the operands. -/
  arms : Array SwitchArm
  deriving DecidableEq, Repr

namespace Script

/-- Offset reached from `pc` by a relative offset, unless that lies before the code. -/
def landing? (pc : Nat) (offset : Int) : Option Nat :=
  if 0 ≤ pc + offset then some (pc + offset).toNat else none

/-- The jump offset of `width` bytes stored at `pos`. -/
def offsetAt? (code : Bytes) (width pos : Nat) : Option Int :=
  if width = 2 then Bytes.i16? code pos else Bytes.i32? code pos

/-- Absolute target of the jump at `pc`. There is none when `pc` holds no jump or when the target
lies before the code; a jump with missing offset bytes is a fault. -/
def jumpTarget (code : Bytes) (pc : Nat) : Except Fault (Option Nat) :=
  match opcodeAt? code pc with
  | none => .ok none
  | some op =>
    if op.format = .jump ∨ op.format = .jumpX then
      match offsetAt? code (op.format.jumpLen.getD 2) (pc + 1) with
      | none => .error .outOfBounds
      | some offset => .ok (landing? pc offset)
    else .ok none

/-- The arms of a table switch at `pc` from the key `key` on, whose offset is at `pos`. An offset
of zero is a hole and leads to `fallback`. -/
def tableArms (code : Bytes) (pc width fallback : Nat) (arms : Array SwitchArm) (key : Int)
    (pos : Nat) : Nat → Except Fault (Option (Array SwitchArm))
  | 0 => .ok (some arms)
  | count + 1 =>
    match offsetAt? code width pos with
    | none => .error .outOfBounds
    | some offset =>
      match landing? pc offset with
      | none => .ok none
      | some target =>
        let arm : SwitchArm := ⟨.integer key, if target = pc then fallback else target⟩
        tableArms code pc width fallback (arms.push arm) (key + 1) (pos + width) count

/-- The arms of a lookup switch at `pc`, whose next pair is at `pos`. -/
def lookupArms (code : Bytes) (pc width : Nat) (arms : Array SwitchArm) (pos : Nat) :
    Nat → Except Fault (Option (Array SwitchArm))
  | 0 => .ok (some arms)
  | count + 1 =>
    match Bytes.u16? code pos, offsetAt? code width (pos + 2) with
    | some index, some offset =>
      match landing? pc offset with
      | none => .ok none
      | some target =>
        lookupArms code pc width (arms.push ⟨.literal index, target⟩) (pos + 2 + width) count
    | _, _ => .error .outOfBounds

/-- The arms of a switch at `pc` whose table bounds or pair count are at `pos`. -/
def switchArms (code : Bytes) (pc width fallback pos : Nat) (table : Bool) :
    Except Fault (Option (Array SwitchArm)) :=
  if table then
    match Bytes.i16? code pos, Bytes.i16? code (pos + 2) with
    | some low, some high =>
      tableArms code pc width fallback #[] low (pos + 4) (keyCount low high)
    | _, _ => .error .outOfBounds
  else
    match Bytes.u16? code pos with
    | some pairs => lookupArms code pc width #[] (pos + 2) pairs
    | none => .error .outOfBounds

/-- The switch at `pc` as absolute targets. There is none when `pc` holds no whole switch or when
one of its targets lies before the code. -/
def switchTargets (code : Bytes) (pc : Nat) : Except Fault (Option SwitchTargets) :=
  match opcodeAt? code pc, instructionLength? code pc with
  | some op, some _ =>
    if op.format.isSwitch then
      let width := op.format.jumpLen.getD 2
      match offsetAt? code width (pc + 1) with
      | none => .error .outOfBounds
      | some offset =>
        match landing? pc offset with
        | none => .ok none
        | some fallback =>
          match switchArms code pc width fallback (pc + 1 + width) op.format.isTable with
          | .ok arms => .ok (arms.map fun arms => ⟨fallback, arms⟩)
          | .error e => .error e
    else .ok none
  | _, _ => .ok none

/-- The code of the main section alone. -/
def mainCode (s : Script) : Except Fault Bytes :=
  if s.mainOffset ≤ s.code.size then .ok (s.code.extract s.mainOffset s.code.size)
  else .error .outOfBounds

/-- The notes of the script as read back. -/
def noteStream (s : Script) : NoteStream := NoteStream.read s.notes

/-- The source line of the instruction at `pc`, from the line notes up to it. -/
def lineAt (s : Script) (pc : Nat) : Except Fault UInt32 :=
  let stream := s.noteStream
  NoteStream.lineFrom stream.ending pc 0 s.firstLine stream.notes

/-- The offsets annotated by notes of one kind, in order. -/
def noteOffsets (s : Script) (kind : NoteKind) : Except Fault (List Nat) := do
  let notes ← s.noteStream.complete
  return (NoteStream.place notes).filterMap fun (offset, note) =>
    if note.kind = kind then some offset else none

end Script

end ScriptCompiler
