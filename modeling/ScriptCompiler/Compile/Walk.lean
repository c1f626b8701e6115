import ScriptCompiler.Generator.Finish
import ScriptCompiler.Generator.Statements
import ScriptCompiler.Tree

/-!
# Walking a tree

Emitting a node emits its children first or in between. How a child is emitted
is a parameter here, so that each construct can be described on its own; the
recursion is closed over all constructs at once, one nesting level per node.
-/

namespace ScriptCompiler

/-- What emitting a node needs besides the generator. -/
structure Walk where
  /-- The tree the nodes belong to. -/
  tree : Tree
  /-- Whether the code belongs to a function, whose statements leave no value behind. -/
  inFunction : Bool
  /-- Emit a node as a child, in a function or not. -/
  visit : Bool → NodeId → Emit Unit

namespace Walk

/-- Emit a child node. -/
def child (w : Walk) (id : NodeId) : Emit Unit := w.visit w.inFunction id

/-- Emit child nodes in order. -/
def children (w : Walk) : List NodeId → Emit Unit
  | [] => pure ()
  | id :: ids => do
    w.child id
    w.children ids

/-- The node with a number. -/
def node (w : Walk) (id : NodeId) : Emit Node := Emit.lift (Error.inBounds (w.tree.get? id))

/-- Distance from `start` to `stop`, which has to be at or behind it. -/
def distance (start stop : Nat) : Emit Nat := do
  if stop < start then throw (.fault .overflow)
  return stop - start

/-- Emit an instruction without operands. -/
def op (code : Opcode) : Emit Unit := do
  let _ ← Emit.op code

/-- Emit an instruction whose operand is the index of a literal. -/
def literalOp (code : Opcode) (literal : Literal) : Emit Unit := do
  let _ ← Emit.opLiteral code literal

/-- Emit an instruction with a 16-bit operand. -/
def u16Op (code : Opcode) (operand : UInt16) : Emit Unit := do
  let _ ← Emit.opU16 code operand

/-- Run a step in the prolog and return to main code, whatever came of the step. -/
def inProlog (step : Emit Unit) : Emit Unit := fun g =>
  match step { g with current := .prolog } with
  | .ok a g => .ok a { g with current := .main }
  | .error e g => .error e { g with current := .main }

/-- The slot of a block-scoped name as an operand, if one is in scope. -/
def localSlot (name : String) : Emit (Option UInt16) := do
  match ← Emit.lookup name with
  | none => return none
  | some slot =>
    if 65536 ≤ slot then Emit.tooLarge
    return some (UInt16.ofNat slot)

/-- Store the top of the stack under a name and leave it there. -/
def storeName (name : String) : Emit Unit := do
  match ← localSlot name with
  | some slot => u16Op .setLocal slot
  | none => literalOp .setName (.string name)

/-- Hoist a declaration of a name. -/
def declare (name : String) : Emit Unit := inProlog (literalOp .defVar (.string name))

/-- Emit a function body as a whole unit. -/
def functionBody (w : Walk) (f : Function) : Emit Script := do
  children { w with inFunction := true } f.body
  op .stop
  Emit.finish

/-- Compile a function body as a unit of its own; answers its index. -/
def function (w : Walk) (f : Function) (line : UInt32) : Emit UInt16 := fun g =>
  match w.functionBody f (g.child line) with
  | .ok script _ => Emit.addFunction script g
  | .error e _ => .error e g

end Walk

end ScriptCompiler
