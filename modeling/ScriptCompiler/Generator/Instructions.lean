import ScriptCompiler.Generator.State

/-!
# Emitting instructions

Instructions are appended to the current section and their effect on the
operand stack is applied at once. Operands that are only known later are
reserved as zero bytes and written in place afterwards.
-/

namespace ScriptCompiler

namespace Emit

/-- Apply the stack effect of the instruction at `pc`; `pushed` supplies the push count of opcodes
whose description has none. -/
def updateDepth (op : Opcode) (pc pushed : Nat) : Emit Unit := do
  let uses ← liftFault (stackUses (← get).code pc)
  modify fun g => g.applyEffect pc uses (op.spec.defs.getD pushed) op.spec.scratch

/-- Append bytes to the current section; answers where they start. -/
def appendCode (bytes : Bytes) : Emit Nat := do
  let pc ← offset
  modify fun g => g.modifySection fun s => { s with code := s.code ++ bytes }
  return pc

/-- Emit an opcode with its operand bytes. -/
def instruction (op : Opcode) (operands : Bytes) : Emit Nat := do
  let pc ← appendCode (#[op.toByte] ++ operands)
  updateDepth op pc 0
  return pc

/-- Emit an instruction without operands. -/
def op (op : Opcode) : Emit Nat := instruction op #[]

/-- Emit an instruction with one operand byte. -/
def opU8 (op : Opcode) (operand : UInt8) : Emit Nat := instruction op #[operand]

/-- Emit an instruction with a 16-bit operand. -/
def opU16 (op : Opcode) (operand : UInt16) : Emit Nat := instruction op (Bytes.le16 operand.toNat)

/-- Emit an instruction with a signed 32-bit operand. -/
def opI32 (op : Opcode) (operand : Int) : Emit Nat :=
  instruction op (Bytes.le32 (Bytes.image32 operand))

/-- Most bytes a section can have room for. This many addresses stand for those of the machine: no
allocator finds more, and a request beyond them is refused. -/
def bufferLimit : Nat := 70368744177664

/-- Most bytes a request may ask for: room is made in powers of two, which have to be words. -/
def requestLimit : Nat := 9223372036854775808

/-- Emit an opcode followed by zero bytes to be filled in. The stack effect is applied now unless
the pop count is one of the operands. -/
def opZeroed (op : Opcode) (extra : Nat) : Emit Nat := do
  let pc ← appendCode #[op.toByte]
  if requestLimit < pc + 1 + extra then throw (.fault .overflow)
  if bufferLimit < pc + 1 + extra then throw .outOfMemory
  let _ ← appendCode (Array.replicate extra 0)
  if op.spec.uses.isSome then updateDepth op pc 0
  return pc

/-- Emit an instruction that pops `count` values. -/
def popN (count : UInt16) : Emit Nat := opU16 .popN count

/-- Emit block entry, which pushes `count` slots. -/
def enterBlock (count : UInt16) : Emit Nat := do
  let pc ← appendCode (#[Opcode.enterBlock.toByte] ++ Bytes.le16 count.toNat)
  updateDepth .enterBlock pc count.toNat
  return pc

/-- Emit block exit, which pops `count` slots. -/
def leaveBlock (count : UInt16) : Emit Nat := opU16 .leaveBlock count

/-- The index of a literal, which enters the table on its first use. -/
def literalIndex (literal : Literal) : Emit UInt16 := do
  let known := (← get).literals.positions[literal]?
  match known with
  | some index => lift ((LiteralTable.operand? index).elim (.error .tooManyLiterals) .ok)
  | none =>
    let index := (← get).literals.size
    if (← get).literals.limit ≤ index then throw .tooManyLiterals
    modify fun g => { g with literals := g.literals.push literal }
    lift ((LiteralTable.operand? index).elim (.error .tooManyLiterals) .ok)

/-- Emit an instruction whose operand is the index of a literal. -/
def opLiteral (op : Opcode) (literal : Literal) : Emit Nat := do
  let index ← literalIndex literal
  opU16 op index

/-- Overwrite the opcode at `pc` in the current section. -/
def setOp (pc : Nat) (op : Opcode) : Emit Unit := do
  if (← offset) ≤ pc then outOfBounds
  modify fun g => g.modifySection fun s => { s with code := s.code.setIfInBounds pc op.toByte }

/-- Overwrite a 16-bit operand in the current section. -/
def setU16 (position value : Nat) : Emit Unit := do
  if (← offset) < position + 2 then outOfBounds
  modify fun g => g.modifySection fun s => { s with code := Bytes.setU16 s.code position value }

/-- Overwrite a signed 16-bit operand in the current section. -/
def setI16 (position : Nat) (value : Int) : Emit Unit := setU16 position (Bytes.image16 value)

/-- Keep a finished nested function; answers its index. -/
def addFunction (script : Script) : Emit UInt16 := do
  let index := (← get).functions.size
  if 65536 ≤ index then throw .tooManyLiterals
  modify fun g => { g with functions := g.functions.push script }
  return UInt16.ofNat index

end Emit

end ScriptCompiler
