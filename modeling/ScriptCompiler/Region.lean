import ScriptCompiler.Error

/-!
# Protected regions

A region marks a stretch of main code and says what unwinding does when an
exception leaves it. Regions are kept in the order in which they close, so an
inner region comes before the ones around it.
-/

namespace ScriptCompiler

/-- What unwinding does in a region. -/
inductive RegionKind where
  /-- Jump to the catch block. -/
  | catchBlock
  /-- Run the finally subroutine. -/
  | finallyClause
  /-- Close the iterator on the stack. -/
  | iterator
  deriving DecidableEq, Repr

/-- The name of a region kind in listings. -/
def RegionKind.text : RegionKind → String
  | catchBlock => "catch"
  | finallyClause => "finally"
  | iterator => "iter"

/-- A protected stretch of main code. -/
structure Region where
  /-- What unwinding does here. -/
  kind : RegionKind
  /-- Depth the operand stack is cut to first, below 2^16. -/
  depth : Nat
  /-- Offset of the first byte, counted from the start of main code, below 2^32. -/
  start : Nat
  /-- Number of bytes, below 2^32. -/
  length : Nat
  deriving DecidableEq, Repr

namespace Region

/-- Offset just past the region, as a 32-bit quantity. -/
def stop (r : Region) : Except Fault Nat :=
  if r.start + r.length < 4294967296 then .ok (r.start + r.length) else .error .overflow

/-- The region from `start` up to `stop`. The depth is checked first, then the order of the ends,
then their size. -/
def between (kind : RegionKind) (depth : Int) (start stop : Nat) : Except Error Region :=
  if depth < 0 ∨ 65536 ≤ depth then .error (.inconsistent .regionDepth)
  else if stop < start then .error (.inconsistent .regionInverted)
  else if 4294967296 ≤ stop then .error (.tooLarge none)
  else .ok ⟨kind, depth.toNat, start, stop - start⟩

end Region

end ScriptCompiler
