import ScriptCompiler.Generator.Instructions

/-!
# Emitting jumps

A jump is emitted in its narrow form. As long as every offset fits 16 bits the
offsets stand in the code. The first one that does not fit turns the table of
spans on: all jumps and switches since the last resolution are entered, and
from then on their fields hold positions in the table. Reading and writing an
offset works the same way in both modes.
-/

namespace ScriptCompiler

namespace Emit

/-- Greatest distance between two links of a chain. -/
def linkLimit : Int := 2147483647

/-- Offset of the field of the jump at `pc`, as a machine word. -/
def fieldOf (pc : Nat) : Emit Nat := do
  if 18446744073709551616 ≤ pc + 1 then throw (.fault .overflow)
  return pc + 1

/-- Overwrite two bytes of main code. -/
def setMainU16 (position value : Nat) : Emit Unit := do
  if (← get).main.code.size < position + 2 then outOfBounds
  modify fun g => { g with main := { g.main with code := Bytes.setU16 g.main.code position value } }

/-- The signed 16-bit value at a position of main code. -/
def mainI16 (position : Nat) : Emit Int := do
  lift (Error.inBounds (Bytes.i16? (← get).main.code position))

/-- Distance from one offset to another, both as machine words. -/
def spanBetween (start stop : Nat) : Emit Int := do
  if 9223372036854775808 ≤ start ∨ 9223372036854775808 ≤ stop then tooLarge
  return (stop : Int) - start

/-- Let the span at `index`, whose opcode is at `top`, lead to `offset` bytes from its opcode. -/
def setSpanTarget (index top : Nat) (offset : Int) : Emit Unit := do
  if !Bytes.fits32 offset then tooLarge
  if (top : Int) + offset < 0 then tooLarge
  modify fun g => { g with spans := g.spans.setTarget index ((top : Int) + offset).toNat }

/-- Enter the span of the field at `field` into the table and mark the field with its position. -/
def addSpan (top field : Nat) (offset : Int) : Emit Unit := do
  let index := (← get).spans.spans.size
  modify fun g => { g with spans := g.spans.push top field }
  let byte ← lift (Error.inBounds (← get).main.code[top]?)
  let op ← lift (Error.orInconsistent .unknownJumpOpcode (Opcode.ofByte? byte))
  if op.spec.placeholder then
    if linkLimit < offset then tooLarge
    if offset < 0 then inconsistent .negativeLink
    modify fun g => { g with spans := g.spans.setDestination index (.link offset.toNat) }
  else if offset ≠ 0 then
    setSpanTarget index top offset
  setMainU16 field (SpanTable.mark index)

/-- Enter `count` arms of the switch at `top`, the next one `skip` bytes after `position`. Answers
the position behind the last arm. -/
def addArms (top skip : Nat) (position : Nat) : Nat → Emit Nat
  | 0 => pure position
  | count + 1 => do
    let offset ← mainI16 (position + skip)
    addSpan top (position + skip) offset
    addArms top skip (position + skip + 2) count

/-- Enter the spans of the narrow switch at `top`. Answers the offset behind the switch. -/
def addSwitch (top : Nat) : Emit Nat := do
  let byte ← lift (Error.inBounds (← get).main.code[top]?)
  let op ← lift (Error.orInconsistent .unknownSwitchOpcode (Opcode.ofByte? byte))
  let offset ← mainI16 (top + 1)
  addSpan top (top + 1) offset
  if op.format = .tableSwitch then
    let low ← mainI16 (top + 3)
    let high ← mainI16 (top + 5)
    addArms top 0 (top + 7) (keyCount low high)
  else
    let pairs ← lift (Error.inBounds (Bytes.u16? (← get).main.code (top + 3)))
    addArms top 2 (top + 5) pairs

/-- Enter the spans of main code from `pc` up to `stop`. Every instruction takes at least one byte,
so `fuel` is the number of bytes left. -/
def scanSpans (stop : Nat) : Nat → Nat → Emit Unit
  | 0, _ => pure ()
  | fuel + 1, pc => do
    if stop ≤ pc then return
    let code := (← get).main.code
    let byte ← lift (Error.inBounds code[pc]?)
    let op ← lift (Error.orInconsistent .unknownScannedOpcode (Opcode.ofByte? byte))
    match op.format with
    | .jump =>
      let offset ← lift (Error.inBounds (Bytes.i16? code (pc + 1)))
      addSpan pc (pc + 1) offset
      scanSpans stop fuel (pc + 3)
    | .tableSwitch | .lookupSwitch =>
      let next ← addSwitch pc
      scanSpans stop fuel next
    | _ =>
      let length ← lift (Error.orInconsistent .truncatedInstruction (instructionLength? code pc))
      scanSpans stop fuel (pc + length)

/-- Turn the table of spans on and enter everything since the last resolution. -/
def buildSpans : Emit Unit := do
  modify fun g => { g with spans := { g.spans with active := true } }
  let todo := (← get).spans.todo
  let stop := (← get).main.code.size
  scanSpans stop (stop - todo) todo

/-- The span of a field, found by the mark in the field. -/
def locateSpan (field : Nat) : Emit (Nat × Span) := do
  let marked ← lift (Error.inBounds (Bytes.u16? (← get).main.code field))
  lift (Error.orInconsistent .missingSpan ((← get).spans.locate? field marked))

/-- Emit a jump that leads `offset` bytes from its own opcode. -/
def jump (op : Opcode) (offset : Int) : Emit Nat := do
  if (← get).current ≠ .main then inconsistent .jumpOutsideMain
  if !Bytes.fits16 offset && !(← get).spans.active then buildSpans
  let narrow := if Bytes.fits16 offset then offset else 0
  let pc ← opU16 op (UInt16.ofNat (Bytes.image16 narrow))
  if !Bytes.fits16 offset || (← get).spans.active then addSpan pc (pc + 1) offset
  return pc

/-- The offset in a field: where its jump leads, or the distance to the link before it. -/
def offsetAt (field : Nat) : Emit Int := do
  if (← get).spans.active then
    let (_, span) ← locateSpan field
    return (← get).spans.offsetOf span
  else mainI16 field

/-- Set the offset in a field. -/
def setOffsetAt (field : Nat) (offset : Int) : Emit Unit := do
  if !(← get).spans.active then
    if Bytes.fits16 offset then
      setMainU16 field (Bytes.image16 offset)
      return
    buildSpans
  let (index, span) ← locateSpan field
  setSpanTarget index span.top offset

/-- The offset of the jump at `pc`. -/
def jumpOffset (pc : Nat) : Emit Int := do offsetAt (← fieldOf pc)

/-- Let the jump at `pc` lead `offset` bytes from its opcode. -/
def setJumpOffset (pc : Nat) (offset : Int) : Emit Unit := do setOffsetAt (← fieldOf pc) offset

/-- Make the pending jump at `pc` a link, `delta` bytes away from the next one. -/
def setLinkDelta (pc : Nat) (delta : Int) : Emit Unit := do
  let field ← fieldOf pc
  if !(← get).spans.active && delta < 32767 then
    if !Bytes.fits16 delta then inconsistent .negativeLink
    setMainU16 field (Bytes.image16 delta)
    return
  if linkLimit < delta then tooLarge
  if !(← get).spans.active then buildSpans
  let (index, _) ← locateSpan field
  if delta < 0 then inconsistent .negativeLink
  modify fun g => { g with spans := g.spans.setDestination index (.link delta.toNat) }

/-- Emit a jump whose target is set later. -/
def beginJump (op : Opcode) : Emit Nat := jump op 0

/-- Let the jump at `pc` lead to the next instruction. -/
def landHere (pc : Nat) : Emit Unit := do
  let span ← spanBetween pc (← offset)
  setJumpOffset pc span

/-- Emit a jump to an offset. -/
def jumpTo (op : Opcode) (target : Nat) : Emit Nat := do
  let span ← spanBetween (← offset) target
  jump op span

/-- Emit a placeholder that joins the chain ending in `last`. The first link of a chain leads to
just before the code. -/
def link (op : Opcode) (last : Option Nat) : Emit Nat := do
  let here ← offset
  match last with
  | some last =>
    if here < last then throw (.fault .overflow)
    jump op ((here : Int) - last)
  | none => jump op ((here : Int) + 1)

/-- Resolve the links from `cursor` back to the first one: each becomes a jump `op` to `target`.
Links lead strictly backwards, save that a link of distance zero is met once more with its new
offset; `fuel` covers both. -/
def resolveLinks (target : Nat) (op : Opcode) : Nat → Option Nat → Emit Unit
  | _, none => pure ()
  | 0, some _ => throw (.fault .endless)
  | fuel + 1, some pc => do
    let delta ← jumpOffset pc
    let span ← spanBetween pc target
    setJumpOffset pc span
    -- the placeholder has to be there while the table is built, so the opcode comes last
    if (← get).main.code.size ≤ pc then outOfBounds
    modify fun g =>
      { g with main := { g.main with code := g.main.code.setIfInBounds pc op.toByte } }
    if delta < 0 then inconsistent .linkNotPositive
    resolveLinks target op fuel (if delta.toNat ≤ pc then some (pc - delta.toNat) else none)

/-- Resolve the chain that ends in `last`: each link becomes a jump `op` to `target`. -/
def resolveChain (last : Option Nat) (target : Nat) (op : Opcode) : Emit Unit :=
  resolveLinks target op (2 * last.getD 0 + 3) last

end Emit

end ScriptCompiler
