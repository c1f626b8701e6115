import ScriptCompiler.Layout.Widening

/-!
# Moving the code

Once the layout is settled, the bytes between widened fields move to their
final places, from the end of the code backwards so that nothing is overwritten
before it has moved. Then every site gets its opcode and its offsets.
-/

namespace ScriptCompiler

namespace Layout

/-- The arms of the wide sites, last one first. -/
def wideArms (l : Layout) : List Arm :=
  l.sites.foldl (fun arms site =>
    if site.op.isWide then site.arms.foldl (fun arms arm => arm :: arms) arms else arms) []

/-- Move the bytes between a widened field and `cursor`, where the bytes that have moved already
start, to behind the widened field. -/
def moveBehind (state : Bytes × Nat) (arm : Arm) : Except Error (Bytes × Nat) :=
  let (code, cursor) := state
  let source := arm.field + 2
  let destination := arm.place + 4
  if cursor < source ∨ code.size < cursor ∨ code.size < destination + (cursor - source) then
    .error (.fault .outOfBounds)
  else .ok (Bytes.copyUp code source destination (cursor - source), arm.field)

/-- Write the offset of an arm whose opcode ends up at `pivot`. -/
def writeArm (tooLarge : Error) (targets : TargetIndex) (wide : Bool) (pivot : Nat) (code : Bytes)
    (arm : Arm) : Except Error Bytes := do
  let span ← armSpan targets pivot arm
  if wide then
    if !Bytes.fits32 span then throw tooLarge
    if code.size < arm.place + 4 then throw (.fault .outOfBounds)
    return Bytes.setU32 code arm.place (Bytes.image32 span)
  else
    if !Bytes.fits16 span then throw (.inconsistent .narrowSpanOutOfRange)
    if code.size < arm.place + 2 then throw (.fault .outOfBounds)
    return Bytes.setU16 code arm.place (Bytes.image16 span)

/-- Write the opcode and the offsets of a site. -/
def writeSite (tooLarge : Error) (targets : TargetIndex) (code : Bytes) (site : Site) :
    Except Error Bytes := do
  let pivot := site.pivot
  if code.size ≤ pivot then throw (.fault .outOfBounds)
  site.arms.foldlM (writeArm tooLarge targets site.op.isWide pivot)
    (code.setIfInBounds pivot site.op.toByte)

/-- The code in its final layout. -/
def relocate (tooLarge : Error) (l : Layout) (code : Bytes) : Except Error Bytes := do
  let room := code ++ Array.replicate l.growth 0
  let (moved, _) ← l.wideArms.foldlM moveBehind (room, code.size)
  l.sites.foldlM (writeSite tooLarge l.targets) moved

end Layout

end ScriptCompiler
