/-!
# The modelled operand stack

The emitter follows the depth of the operand stack along the emitted code and
keeps its high-water mark, which becomes the frame size. The depth is a signed
32-bit quantity that saturates. An instruction that pops more than there is
raises one underflow and the model goes on from an empty stack.
-/

namespace ScriptCompiler

/-- Depth of the operand stack and its high-water mark. -/
structure StackDepth where
  /-- Values on the stack now. -/
  depth : Int
  /-- Most slots needed so far. -/
  high : Nat
  deriving DecidableEq, Repr

namespace StackDepth

/-- An empty stack. -/
def empty : StackDepth := ⟨0, 0⟩

/-- Least signed 32-bit value. -/
def least : Int := -2147483648

/-- Greatest signed 32-bit value. -/
def greatest : Int := 2147483647

/-- Raise the high-water mark to `depth`; a negative depth needs no slot. -/
def raise (s : StackDepth) (depth : Int) : StackDepth := { s with high := max s.high depth.toNat }

/-- Override the depth where control flow joins. -/
def set (s : StackDepth) (depth : Int) : StackDepth := raise { s with depth } depth

/-- Depth right after popping `uses` values. -/
def popped (s : StackDepth) (uses : Nat) : Int := max (s.depth - uses) least

/-- The effect of one instruction: `scratch` slots above the present depth, then `uses` pops, then
`defs` pushes. A negative depth after the pops restarts from the empty stack. -/
def apply (s : StackDepth) (uses defs scratch : Nat) : StackDepth :=
  let s := if 0 < scratch then s.raise (min (s.depth + scratch) greatest) else s
  let depth := min (max (s.popped uses) 0 + defs) greatest
  raise { s with depth } depth

/-- The negative depth an instruction with `uses` pops would reach, if it does. -/
def underflow? (s : StackDepth) (uses : Nat) : Option Int :=
  if s.popped uses < 0 then some (s.popped uses) else none

end StackDepth

end ScriptCompiler
