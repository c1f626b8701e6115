import ScriptCompiler.Compile.Walk

/-!
# Emitting expressions

The code of an expression leaves its value on the stack. Operands are emitted
from left to right. A chain of one short-circuit operator threads its jumps
through the code as it is emitted and lets all of them lead to its end.
-/

namespace ScriptCompiler

namespace Walk

/-- Emit a number in the shortest form that denotes it exactly: an immediate integer, or else an
entry of the literal table. -/
def number (value : Binary64) : Emit Unit := do
  match value.toInt32? with
  | none => literalOp .double (.number value)
  | some z =>
    if z = 0 then op .zero
    else if z = 1 then op .one
    else if -128 ≤ z ∧ z ≤ 127 then
      let _ ← Emit.opU8 .int8 (UInt8.ofNat (z % 256).toNat)
    else if 0 ≤ z ∧ z ≤ 65535 then u16Op .uint16 (UInt16.ofNat z.toNat)
    else
      let _ ← Emit.opI32 .int32 z

/-- Emit the value of a name, from its slot or by name. -/
def nameValue (name : String) : Emit Unit := do
  match ← localSlot name with
  | some slot => u16Op .getLocal slot
  | none => literalOp .name (.string name)

/-- Apply the operator of a compound assignment. -/
def compoundOp : Option BinaryOp → Emit Unit
  | none => pure ()
  | some binary => do
    let _ ← Emit.note .assignOp
    op binary.opcode

/-- Emit an assignment. Through an operator the object and the key of the target are evaluated
once and duplicated. -/
def assign (w : Walk) (binary : Option BinaryOp) (target value : NodeId) : Emit Unit := do
  match (← w.node target).kind with
  | .name name =>
    if binary.isSome then w.child target
    w.child value
    compoundOp binary
    storeName name
  | .member object property =>
    w.child object
    if binary.isSome then
      op .dup
      literalOp .getProp (.string property)
    w.child value
    compoundOp binary
    literalOp .setProp (.string property)
  | .index object key =>
    w.child object
    w.child key
    if binary.isSome then
      op .dup2
      op .getElem
    w.child value
    compoundOp binary
    op .setElem
  | _ => Emit.inconsistent .assignmentTarget

/-- Emit the middle operands of a short-circuit chain. The jump behind each of them is linked from
the jump before it, at `last`. -/
def middleOperands (w : Walk) (last : Nat) : List NodeId → Emit Unit
  | [] => pure ()
  | operand :: operands => do
    w.child operand
    let next ← Emit.jump .backpatchPop 0
    let delta ← Emit.spanBetween last next
    Emit.setLinkDelta last delta
    w.middleOperands next operands

/-- Let `count` linked jumps from `pc` on lead to `stop`. -/
def landChain (code : Opcode) (stop : Nat) (pc : Nat) : Nat → Emit Unit
  | 0 => pure ()
  | count + 1 => do
    let link ← Emit.jumpOffset pc
    let span ← Emit.spanBetween pc stop
    Emit.setJumpOffset pc span
    Emit.setOp pc code
    if (pc : Int) + link < 0 then Emit.inconsistent .brokenLogicalChain
    landChain code stop ((pc : Int) + link).toNat count

/-- Emit a short-circuit chain. -/
def logical (w : Walk) (operator : LogicalOp) (operands : List NodeId) : Emit Unit := do
  match operands with
  | first :: second :: rest =>
    let middle := (second :: rest).dropLast
    w.child first
    let top ← Emit.jump .backpatchPop 0
    w.middleOperands top middle
    w.child ((second :: rest).getLast (by simp))
    let stop ← Emit.offset
    landChain operator.opcode stop top (middle.length + 1)
  | _ => Emit.inconsistent .logicalOperands

/-- Emit a conditional expression. Only one arm leaves its value, so the depth is put back between
the arms. -/
def conditional (w : Walk) (test consequent alternative : NodeId) : Emit Unit := do
  w.child test
  let note ← Emit.note .conditional
  let branch ← Emit.beginJump .ifEq
  w.child consequent
  let skip ← Emit.beginJump .goto
  Emit.landHere branch
  Emit.setStackDepth ((← Emit.stackDepth) - 1)
  w.child alternative
  Emit.landHere skip
  Emit.setNote note 0 (← distance branch skip)

/-- Emit a call or a construction. -/
def call (w : Walk) (code : Opcode) (callee : NodeId) (args : List NodeId) : Emit Unit := do
  let start ← Emit.offset
  w.child callee
  w.children args
  if 65536 ≤ args.length then Emit.tooLarge
  let base ← distance start (← Emit.offset)
  let _ ← Emit.note1 .pcBase base
  u16Op code (UInt16.ofNat args.length)

/-- Emit the values of a comma list behind the first, each after dropping the one before it. The
drop carries a note with the distance to where the next value ends. -/
def commaRest (w : Walk) : List NodeId → Emit Unit
  | [] => pure ()
  | value :: values => do
    let here ← Emit.offset
    let note ← Emit.note1 .pcDelta 0
    op .pop
    w.child value
    Emit.setNote note 0 (← distance here (← Emit.offset))
    w.commaRest values

/-- Emit a comma list; an empty one has the undefined value. -/
def comma (w : Walk) : List NodeId → Emit Unit
  | [] => op .push
  | value :: values => do
    w.child value
    w.commaRest values

/-- Emit an expression node. -/
def expression (w : Walk) (node : Node) : Emit Unit := do
  match node.kind with
  | .undefined => op .push
  | .null => op .null
  | .bool true => op .pushTrue
  | .bool false => op .pushFalse
  | .number value => number value
  | .string value => literalOp .string (.string value)
  | .name name => nameValue name
  | .member object property =>
    w.child object
    literalOp .getProp (.string property)
  | .index object key =>
    w.child object
    w.child key
    op .getElem
  | .assign operator target value => w.assign operator target value
  | .unary operator operand =>
    w.child operand
    op operator.opcode
  | .binary operator left right =>
    w.child left
    w.child right
    op operator.opcode
  | .logical operator operands => w.logical operator operands
  | .conditional test consequent alternative => w.conditional test consequent alternative
  | .call callee args => w.call .call callee args
  | .new callee args => w.call .new callee args
  | .function f =>
    let index ← w.function f node.line
    u16Op .lambda index
  | .comma values => w.comma values
  | _ => Emit.inconsistent .statementAsExpression

end Walk

end ScriptCompiler
