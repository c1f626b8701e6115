import ScriptCompiler.TargetIndex

/-!
# The table of spans

A span is one jump offset in main code. Once some offset does not fit its
16-bit field, all jumps since the last resolution are listed here, in the order
of the code, and their fields hold positions in this table instead of offsets.
A record says where the jump goes: to an entry of the target index, or nowhere
yet, or it is a link of a chain of pending jumps.
-/

namespace ScriptCompiler

/-- Where a recorded jump goes. -/
inductive Destination where
  /-- Not known; the offset is zero until it is set. -/
  | unset
  /-- To an entry of the target index. -/
  | target (entry : Nat)
  /-- A pending link, `delta` bytes after the link before it. -/
  | link (delta : Nat)
  deriving DecidableEq, Repr

/-- One jump offset of main code. -/
structure Span where
  /-- Offset of the opcode; the arms of a switch share it. -/
  top : Nat
  /-- Offset of the field. -/
  field : Nat
  /-- Where the jump goes. -/
  destination : Destination
  deriving DecidableEq, Repr

/-- The spans of main code since the last resolution. -/
structure SpanTable where
  /-- The spans, in ascending order of their fields. -/
  spans : Array Span
  /-- Their targets. -/
  targets : TargetIndex
  /-- Whether the fields hold positions in `spans`. -/
  active : Bool
  /-- Offset from which on main code has not been resolved. -/
  todo : Nat
  deriving DecidableEq, Repr

/-- The least index from `lo` on, and at most `hi`, at which an ascending key is no longer below
`bound`. -/
def lowerBound (key : Nat → Nat) (bound lo hi : Nat) : Nat :=
  if lo < hi then
    let middle := (lo + hi) / 2
    if key middle < bound then lowerBound key bound (middle + 1) hi
    else lowerBound key bound lo middle
  else lo
termination_by hi - lo

namespace SpanTable

/-- The inactive table with nothing to resolve. -/
def empty : SpanTable := ⟨#[], .empty, false, 0⟩

/-- Position of the first span whose field is not before `offset`. -/
def nearest (t : SpanTable) (offset : Nat) : Nat :=
  lowerBound (fun i => (t.spans[i]?.map Span.field).getD 0) offset 0 t.spans.size

/-- Positions from here on do not fit a 16-bit field and are found by search. -/
def searchMark : Nat := 65535

/-- What the field of the span at a position holds. -/
def mark (index : Nat) : Nat := min index searchMark

/-- The span of the field at `field`, which holds `marked`. -/
def locate? (t : SpanTable) (field marked : Nat) : Option (Nat × Span) := do
  let index := if marked = searchMark then t.nearest field else marked
  let span ← t.spans[index]?
  if span.field = field then some (index, span) else none

/-- Add a span without a destination. -/
def push (t : SpanTable) (top field : Nat) : SpanTable :=
  { t with spans := t.spans.push ⟨top, field, .unset⟩ }

/-- Replace the destination of a span. -/
def setDestination (t : SpanTable) (index : Nat) (destination : Destination) : SpanTable :=
  { t with spans := t.spans.modify index fun span => { span with destination } }

/-- Let a span lead to an offset. -/
def setTarget (t : SpanTable) (index offset : Nat) : SpanTable :=
  let (targets, entry) := t.targets.insert offset
  { t with targets, spans := t.spans.modify index fun span =>
      { span with destination := .target entry } }

/-- The offset a span stands for: the distance to its target, or the distance back to the link
before it. -/
def offsetOf (t : SpanTable) (span : Span) : Int :=
  match span.destination with
  | .unset => 0
  | .link delta => delta
  | .target entry => (t.targets.offset entry : Int) - span.top

/-- Drop all spans; what comes before `todo` is settled. -/
def reset (t : SpanTable) (todo : Nat) : SpanTable := ⟨#[], t.targets.clear, false, todo⟩

end SpanTable

end ScriptCompiler
