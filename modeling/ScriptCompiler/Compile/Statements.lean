import ScriptCompiler.Compile.Expressions
import ScriptCompiler.Compile.Switch

/-!
# Emitting statements

The code of a statement leaves the stack as it found it. Loops test their
condition at the end and are entered by a jump to it. Leaving a try statement
with a finally clause calls that clause as a subroutine on every way out.
-/

namespace ScriptCompiler

namespace Walk

/-- Hoist each declared name and assign its initial value in place. -/
def var (w : Walk) : List Binding → Emit Unit
  | [] => pure ()
  | binding :: bindings => do
    declare binding.name
    match binding.init with
    | none => pure ()
    | some init =>
      w.child init
      storeName binding.name
      op .pop
    w.var bindings

/-- Emit an if statement. The jump over the else part is a break out of the statement. -/
def ifElse (w : Walk) (test consequent : NodeId) (alternative : Option NodeId) : Emit Unit := do
  let top ← Emit.offset
  w.child test
  let index ← Emit.pushStatement .ifBranch top
  let note ← Emit.note (if alternative.isSome then .ifElse else .ifThen)
  let branch ← Emit.beginJump .ifEq
  w.child consequent
  match alternative with
  | some alternative =>
    Emit.setKind index .elseBranch
    let skip ← Emit.leaveTo index .breaks none none
    Emit.landHere branch
    w.child alternative
    Emit.setNote note 0 (← distance branch skip)
  | none => Emit.landHere branch
  Emit.popStatement

/-- Emit a while loop: a jump to the condition, the body, the condition and a branch back. -/
def whileLoop (w : Walk) (test body : NodeId) : Emit Unit := do
  let top ← Emit.offset
  let _ ← Emit.pushStatement .whileLoop top
  let note ← Emit.note .whileLoop
  let entry ← Emit.beginJump .goto
  let loopTop ← Emit.offset
  w.child body
  Emit.landHere entry
  w.child test
  let back ← Emit.jumpTo .ifNe loopTop
  Emit.setNote note 0 (← distance entry back)
  Emit.popStatement

/-- Emit a do-while loop. -/
def doWhile (w : Walk) (body test : NodeId) : Emit Unit := do
  let note ← Emit.note .whileLoop
  op .nop
  let top ← Emit.offset
  let index ← Emit.pushStatement .doLoop top
  w.child body
  let update ← Emit.offset
  Emit.setLoopUpdate index update
  w.child test
  let _ ← Emit.jumpTo .ifNe top
  Emit.setNote note 0 (1 + (← distance top update))
  Emit.popStatement

/-- Emit the initial part of a for loop; answers the instruction that ends it, which drops the
value of an expression. -/
def forInit (w : Walk) : Option NodeId → Emit Opcode
  | none => return .nop
  | some init => do
    w.child init
    match (← w.node init).kind with
    | .var _ => return .nop
    | _ => return .pop

/-- Emit the jump to the condition of a for loop, if it has one. -/
def forEntry : Option NodeId → Emit (Option Nat)
  | none => return none
  | some _ => do
    let entry ← Emit.beginJump .goto
    return some entry

/-- Emit the update part of a for loop, if it has one. -/
def forUpdate (w : Walk) : Option NodeId → Emit Unit
  | none => pure ()
  | some update => do
    w.child update
    op .pop

/-- Emit the condition of a for loop, if it has one, and let the entry jump lead to it. -/
def forTest (w : Walk) : Option Nat → Option NodeId → Emit Unit
  | some entry, some test => do
    Emit.landHere entry
    w.child test
  | _, _ => pure ()

/-- Emit a for loop: the initial part, a jump to the condition, the body, the update, the condition
and a branch back. Without a condition there is no entry jump and the branch is unconditional. -/
def forLoop (w : Walk) (init test update : Option NodeId) (body : NodeId) : Emit Unit := do
  let start ← Emit.offset
  let index ← Emit.pushStatement .forLoop start
  let ending ← w.forInit init
  let note ← Emit.note .forLoop
  op ending
  let head ← Emit.offset
  let entry ← forEntry test
  let top ← Emit.offset
  Emit.setTop index top
  w.child body
  let updateStart ← Emit.offset
  Emit.setLoopUpdate index updateStart
  w.forUpdate update
  let testStart ← Emit.offset
  w.forTest entry test
  let stop ← Emit.offset
  Emit.setNote note 0 (← distance head testStart)
  Emit.setNote note 1 (← distance head updateStart)
  Emit.setNote note 2 (← distance head stop)
  let _ ← Emit.jumpTo (if test.isSome then .ifNe else .goto) top
  Emit.popStatement

/-- Emit a for-in loop. The iterator stays on the stack and is closed at the end, also when an
exception leaves the loop. -/
def forIn (w : Walk) (declared : Bool) (target object body : NodeId) : Emit Unit := do
  match (← w.node target).kind with
  | .name name =>
    let start ← Emit.offset
    let index ← Emit.pushStatement .forInLoop start
    if declared then declare name
    w.child object
    let _ ← Emit.opU8 .iter 1
    let note ← Emit.note .forIn
    let entry ← Emit.beginJump .goto
    let top ← Emit.offset
    Emit.setTop index top
    op .iterNext
    storeName name
    let assigned ← Emit.offset
    op .pop
    w.child body
    let update ← Emit.offset
    Emit.setLoopUpdate index update
    Emit.landHere entry
    op .moreIter
    let back ← Emit.jumpTo .ifNe top
    Emit.setNote note 1 (← distance entry back)
    Emit.setNote note 0 (← distance entry assigned)
    Emit.popStatement
    let stop ← Emit.offset
    Emit.region .iterator top stop
    op .endIter
  | _ => Emit.inconsistent .forInTarget

/-- Emit a labeled statement. -/
def labeled (w : Walk) (label : String) (body : NodeId) : Emit Unit := do
  let literal ← Emit.literalIndex (.string label)
  let _ ← Emit.note1 .label literal.toNat
  op .nop
  let top ← Emit.offset
  let index ← Emit.pushStatement .label top
  Emit.setLabel index label
  w.child body
  Emit.popStatement

/-- Emit a break, out of the labeled statement or out of the innermost loop or switch. -/
def breakTo : Option String → Emit Unit
  | some label => do
    match (← get).statements.labeled? label with
    | none => Emit.inconsistent .unknownLabel
    | some target =>
      let literal ← Emit.literalIndex (.string label)
      let _ ← Emit.leaveTo target .breaks (some literal) (some .breakLabel)
  | none => do
    match (← get).statements.breakTarget? with
    | none => Emit.inconsistent .breakOutside
    | some target =>
      let kind := (← Emit.statement target).kind
      let note : NoteKind := if kind = .switch then .switchBreak else .breakOut
      let _ ← Emit.leaveTo target .breaks none (some note)

/-- Emit a continue, of the loop inside the label or of the innermost one. -/
def continueTo : Option String → Emit Unit
  | some label => do
    match (← get).statements.labeledLoop? label with
    | none => Emit.inconsistent .continueWithoutLoop
    | some target =>
      let literal ← Emit.literalIndex (.string label)
      let _ ← Emit.leaveTo target .continues (some literal) (some .continueLabel)
  | none => do
    match (← get).statements.continueTarget? with
    | none => Emit.inconsistent .continueOutside
    | some target =>
      let _ ← Emit.leaveTo target .continues none (some .continueLoop)

/-- Emit the value of a return. -/
def returned (w : Walk) : Option NodeId → Emit Unit
  | some value => w.child value
  | none => op .push

/-- Emit a return. If leaving the open statements takes code, the value is saved first and returned
behind that code. -/
def returnValue (w : Walk) (value : Option NodeId) : Emit Unit := do
  w.returned value
  let top ← Emit.op .returnTop
  Emit.leaveUpTo none
  if (← Emit.offset) ≠ top + 1 then
    Emit.setOp top .setRval
    op .retRval

/-- Call the finally clause of the try statement at a position. -/
def callFinally (index : Nat) : Emit Unit := do
  let _ ← Emit.note .hidden
  let pc ← Emit.link .backpatch (← Emit.gosubs index)
  Emit.setGosubs index (some pc)

/-- Emit a catch clause. Its parameter lives in a block of one slot. -/
def catchClause (w : Walk) (clause : CatchClause) : Emit Unit := do
  let note ← Emit.note1 .catchBlock 0
  let start ← Emit.offset
  let index ← Emit.pushBlockScope .catchBlock start [clause.param]
  let count ← Emit.blockCount index
  let _ ← Emit.enterBlock count
  op .exception
  match ← localSlot clause.param with
  | none => Emit.inconsistent .catchParameter
  | some slot => u16Op .setLocalPop slot
  w.children clause.body
  let _ ← Emit.leaveBlock count
  Emit.popStatement
  Emit.setNote note 0 (← distance start (← Emit.offset))

/-- Emit the catch part of the try statement at a position, if there is one. Every part ends in a
jump to behind the whole statement, linked to `exits`. Answers the latest of these jumps. -/
def catchPart (w : Walk) (index : Nat) (finalized : Bool) (exits : Nat) :
    Option CatchClause → Emit Nat
  | none => return exits
  | some clause => do
    w.catchClause clause
    if finalized then callFinally index
    let _ ← Emit.note .hidden
    Emit.link .backpatch (some exits)

/-- Set the line of the first of some statements. -/
def firstLine (w : Walk) : List NodeId → Emit Unit
  | [] => pure ()
  | first :: _ => do Emit.updateLine (← w.node first).line

/-- Emit the finally clause of the try statement at a position, if there is one. Answers where it
starts, or `stop` without one. -/
def finallyPart (w : Walk) (index stop : Nat) : Option (List NodeId) → Emit Nat
  | none => return stop
  | some body => do
    let start ← Emit.offset
    Emit.resolveChain (← Emit.gosubs index) start .gosub
    Emit.setGosubs index none
    Emit.setKind index .subroutine
    w.firstLine body
    op .finallyMark
    w.children body
    op .retSub
    return start

/-- Emit a try statement. -/
def tryBlock (w : Walk) (body : List NodeId) (handler : Option CatchClause)
    (finalizer : Option (List NodeId)) : Emit Unit := do
  let top ← Emit.offset
  let index ← Emit.pushStatement (if finalizer.isSome then .finallyClause else .tryBlock) top
  let depth ← Emit.stackDepth
  op .tryMark
  let start ← Emit.offset
  w.children body
  if finalizer.isSome then callFinally index
  let _ ← Emit.note .hidden
  let exits ← Emit.link .backpatch none
  let stop ← Emit.offset
  let exits ← w.catchPart index finalizer.isSome exits handler
  let finallyStart ← w.finallyPart index stop finalizer
  Emit.popStatement
  let _ ← Emit.note .endBrace
  op .nop
  let here ← Emit.offset
  Emit.resolveChain (some exits) here .goto
  if handler.isSome then Emit.regionAtDepth .catchBlock depth start stop
  if finalizer.isSome then Emit.regionAtDepth .finallyClause depth start finallyStart

/-- Emit a with statement. -/
def withObject (w : Walk) (object body : NodeId) : Emit Unit := do
  w.child object
  let top ← Emit.offset
  let _ ← Emit.pushStatement .withObject top
  op .enterWith
  w.child body
  op .leaveWith
  Emit.popStatement

/-- Store the initial values of block-scoped names in their slots. -/
def letInits (w : Walk) : List Binding → Emit Unit
  | [] => pure ()
  | binding :: bindings => do
    match binding.init with
    | none => pure ()
    | some init =>
      w.child init
      match ← localSlot binding.name with
      | none => Emit.inconsistent .letBinding
      | some slot => u16Op .setLocalPop slot
    w.letInits bindings

/-- Emit a block with names of its own. -/
def letBlock (w : Walk) (bindings : List Binding) (body : List NodeId) : Emit Unit := do
  let top ← Emit.offset
  let index ← Emit.pushBlockScope .block top (bindings.map Binding.name)
  let count ← Emit.blockCount index
  let _ ← Emit.enterBlock count
  w.letInits bindings
  w.children body
  let _ ← Emit.leaveBlock count
  Emit.popStatement

/-- Hoist the definition of a declared function. -/
def functionDecl (w : Walk) (f : Function) (line : UInt32) : Emit Unit := do
  let index ← w.function f line
  inProlog do
    let _ ← Emit.note1 .funcDef index.toNat
    u16Op .defFun index

/-- Emit a statement or expression node. Statements other than function declarations set the
line. -/
def statement (w : Walk) (node : Node) : Emit Unit := do
  match node.kind with
  | .empty => pure ()
  | .block body =>
    let top ← Emit.offset
    let _ ← Emit.pushStatement .block top
    w.children body
    Emit.popStatement
  | .expression value =>
    w.child value
    op (if w.inFunction then .pop else .setRval)
  | .var bindings => w.var bindings
  | .ifElse test consequent alternative => w.ifElse test consequent alternative
  | .whileLoop test body => w.whileLoop test body
  | .doWhile body test => w.doWhile body test
  | .forLoop init test update body => w.forLoop init test update body
  | .forIn declared target object body => w.forIn declared target object body
  | .switch discriminant clauses => w.switch discriminant clauses
  | .labeled label body => w.labeled label body
  | .breakTo label => breakTo label
  | .continueTo label => continueTo label
  | .returnValue value => w.returnValue value
  | .throwValue value =>
    w.child value
    op .throwTop
  | .tryBlock body handler finalizer => w.tryBlock body handler finalizer
  | .withObject object body => w.withObject object body
  | .letBlock bindings body => w.letBlock bindings body
  | .functionDecl f => w.functionDecl f node.line
  | _ => w.expression node

/-- Whether a node sets the line. -/
def setsLine : NodeKind → Bool
  | .functionDecl _ => false
  | kind => kind.isStatement

/-- Emit a node. -/
def emitNode (w : Walk) (id : NodeId) : Emit Unit := do
  let node ← w.node id
  if setsLine node.kind then Emit.updateLine node.line
  w.statement node

end Walk

end ScriptCompiler
