import ScriptCompiler.Note.Encoding

/-!
# Reading a note stream

A stream is read note by note from its first byte. Reading ends at a zero lead
byte, at the end of the bytes, or at bytes that are no note; an operand cut off
in the middle is a fault. The result keeps the notes read before the end
together with where and why the reading stopped.
-/

namespace ScriptCompiler

/-- A note as read from a stream. -/
structure Note where
  /-- What the note says. -/
  kind : NoteKind
  /-- Distance from the previously annotated offset. -/
  delta : Nat
  /-- Operands, as many as the kind asks for. -/
  operands : List Nat
  deriving DecidableEq, Repr

/-- Why reading a stream stopped. -/
inductive StreamEnd where
  /-- At the zero byte that ends a stream. -/
  | terminator
  /-- At the end of the bytes, or at bytes that are no note. -/
  | unreadable
  /-- In the middle of a three-byte operand. -/
  | truncated
  deriving DecidableEq, Repr

/-- A read stream. -/
structure NoteStream where
  /-- The notes, fillers included. -/
  notes : List Note
  /-- Position of the byte where reading stopped. -/
  stop : Nat
  /-- Why it stopped there. -/
  ending : StreamEnd
  deriving DecidableEq, Repr

namespace NoteStream

/-- Read `count` operands from `pos` on; answers them in order with the position after them. -/
def readOperands (b : Bytes) (pos : Nat) : Nat → Except StreamEnd (List Nat × Nat)
  | 0 => .ok ([], pos)
  | count + 1 =>
    match b[pos]? with
    | none => .error .unreadable
    | some first =>
      match NoteBytes.operandAt? b pos with
      | none => .error .truncated
      | some value =>
        match readOperands b (pos + NoteBytes.operandLen first) count with
        | .ok (values, stop) => .ok (value :: values, stop)
        | .error e => .error e

/-- Read the note at `pos`; answers it with the position after it. -/
def readNote (b : Bytes) (pos : Nat) : Except StreamEnd (Note × Nat) :=
  match b[pos]? with
  | none => .error .unreadable
  | some lead =>
    if lead = 0 then .error .terminator
    else
      match NoteBytes.kindAt? b pos with
      | none => .error .unreadable
      | some kind =>
        match readOperands b (pos + NoteBytes.headerLen lead) kind.arity with
        | .ok (operands, stop) => .ok (⟨kind, NoteBytes.leadDelta lead, operands⟩, stop)
        | .error e => .error e

/-- Read on from `pos`, with `read` the notes before it, latest first. Every note takes at least
one byte, so `fuel` is the number of bytes left. -/
def readFrom (b : Bytes) (read : List Note) (pos : Nat) : Nat → NoteStream
  | 0 => ⟨read.reverse, pos, .unreadable⟩
  | fuel + 1 =>
    match readNote b pos with
    | .ok (note, next) => readFrom b (note :: read) next fuel
    | .error ending => ⟨read.reverse, pos, ending⟩

/-- Read a whole stream. -/
def read (b : Bytes) : NoteStream := readFrom b [] 0 b.size

/-- The notes, unless the stream is cut off inside an operand. -/
def complete (s : NoteStream) : Except Fault (List Note) :=
  match s.ending with
  | .truncated => .error .outOfBounds
  | _ => .ok s.notes

/-- Pair each note with its absolute offset, the running sum of all deltas up to it. -/
def place (notes : List Note) : List (Nat × Note) :=
  (notes.foldl (fun (placed, offset) note =>
    ((offset + note.delta, note) :: placed, offset + note.delta)) ([], 0)).1.reverse

/-- Step one line count over a note: absolute line changes set it, relative ones add one. -/
def lineStep (line : UInt32) (note : Note) : Except Fault UInt32 :=
  match note.kind with
  | .setLine => .ok (UInt32.ofNat (note.operands.headD 0))
  | .newline => if line.toNat + 1 < 4294967296 then .ok (line + 1) else .error .overflow
  | _ => .ok line

/-- The line in force at `pc` after the notes from `offset` on. Notes past `pc` are not looked at;
if none is, the end of the stream is reached and has to be a proper one. -/
def lineFrom (ending : StreamEnd) (pc offset : Nat) (line : UInt32) : List Note → Except Fault UInt32
  | [] => if ending = .truncated then .error .outOfBounds else .ok line
  | note :: notes =>
    if pc < offset + note.delta then .ok line
    else
      match lineStep line note with
      | .ok next => lineFrom ending pc (offset + note.delta) next notes
      | .error e => .error e

end NoteStream

end ScriptCompiler
