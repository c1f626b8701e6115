import ScriptCompiler.Bytes
import ScriptCompiler.Error
import ScriptCompiler.Opcode

/-!
# Instructions in a byte string

The length of an instruction follows from its opcode and, for switches, from
the table bounds or the pair count among its operands. Walking the bytes from
the start by these lengths yields the instructions; the walk stops at the first
byte that does not start a whole instruction.
-/

namespace ScriptCompiler

/-- An instruction found in a byte string. -/
structure Instruction where
  /-- Offset of the opcode byte. -/
  pc : Nat
  /-- The opcode. -/
  op : Opcode
  /-- Number of bytes, opcode included. -/
  length : Nat
  deriving DecidableEq, Repr

/-- The opcode of the byte at `pc`. -/
def opcodeAt? (code : Bytes) (pc : Nat) : Option Opcode := do Opcode.ofByte? (← code[pc]?)

/-- Number of keys in an inclusive range, none when the bounds are inverted. -/
def keyCount (low high : Int) : Nat := (high - low + 1).toNat

/-- Length of a switch at `pc` with offsets of `width` bytes, read from its table. -/
def switchLength? (code : Bytes) (pc width : Nat) (table : Bool) : Option Nat := do
  let head := 1 + width
  if table then
    let low ← Bytes.i16? code (pc + head)
    let high ← Bytes.i16? code (pc + head + 2)
    return head + 4 + keyCount low high * width
  else
    let pairs ← Bytes.u16? code (pc + head)
    return head + 2 + pairs * (2 + width)

/-- Length of the instruction at `pc`; `none` when no whole instruction starts there. -/
def instructionLength? (code : Bytes) (pc : Nat) : Option Nat := do
  let op ← opcodeAt? code pc
  let length ← match op.spec.length with
    | some length => some length
    | none => do
      let width ← op.format.jumpLen
      switchLength? code pc width op.format.isTable
  if pc + length ≤ code.size then some length else none

/-- Number of values the instruction at `pc` pops. A byte that is no opcode pops nothing. -/
def stackUses (code : Bytes) (pc : Nat) : Except Fault Nat :=
  match code[pc]? with
  | none => .error .outOfBounds
  | some byte =>
    let op := (Opcode.ofByte? byte).getD .nop
    match op.spec.uses with
    | some uses => .ok uses
    | none =>
      match Bytes.u16? code (pc + 1) with
      | none => .error .outOfBounds
      | some count => .ok (if op = .call ∨ op = .new then count + 1 else count)

/-- Walk the instructions from `pc` on, with `found` the ones before it, latest first. Every
instruction takes at least one byte, so `fuel` is the number of bytes left. -/
def instructionsFrom (code : Bytes) (found : List Instruction) (pc : Nat) : Nat → List Instruction
  | 0 => found.reverse
  | fuel + 1 =>
    match opcodeAt? code pc, instructionLength? code pc with
    | some op, some length => instructionsFrom code (⟨pc, op, length⟩ :: found) (pc + length) fuel
    | _, _ => found.reverse

/-- The instructions of a byte string, up to the first byte that starts none. -/
def instructions (code : Bytes) : List Instruction := instructionsFrom code [] 0 code.size

end ScriptCompiler
