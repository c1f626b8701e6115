import ScriptCompiler.Generator.Jumps
import ScriptCompiler.Generator.Notes

/-!
# Opening, closing and leaving statements

Closing a statement resolves its pending breaks to the code after it and its
pending continues to its update part. A jump out of several statements first
emits what each of them needs on the way out, innermost first, and then joins
a chain of the statement it leaves.
-/

namespace ScriptCompiler

namespace Emit

/-- Open a statement whose code starts at `top`; answers its position. -/
def pushStatement (kind : StatementKind) (top : Nat) : Emit Nat := do
  let index := (← get).statements.size
  modify fun g => { g with statements := g.statements.push kind top none }
  return index

/-- Open a statement that binds `names` to the slots from the current depth on. -/
def pushBlockScope (kind : StatementKind) (top : Nat) (names : List String) : Emit Nat := do
  let index := (← get).statements.size
  modify fun g =>
    { g with statements := g.statements.push kind top (some ⟨g.depth.depth.toNat, names⟩) }
  return index

/-- The open statement at a position. -/
def statement (index : Nat) : Emit OpenStatement := do
  lift (Error.inBounds (← get).statements.entries[index]?)

/-- Change the open statement at a position. -/
def modifyStatement (index : Nat) (f : OpenStatement → OpenStatement) : Emit Unit := do
  if (← get).statements.size ≤ index then outOfBounds
  modify fun g => { g with statements := g.statements.modify index f }

/-- Number of slots bound by the statement at a position. -/
def blockCount (index : Nat) : Emit UInt16 := do
  return ((← statement index).scope.map BlockScope.count).getD 0

/-- Close the innermost statement. -/
def popStatement : Emit Unit := do
  match (← get).statements.top? with
  | none => inconsistent .statementUnderflow
  | some top =>
    if !top.kind.isTrying then
      let here ← offset
      resolveChain top.breaks here .goto
      resolveChain top.continues top.update .goto
    modify fun g => { g with statements := g.statements.pop }

/-- Set where the continues of a statement go. -/
def setUpdate (index update : Nat) : Emit Unit := modifyStatement index ({ · with update := update })

/-- Move the start of a loop, which is also where its continues go for now. -/
def setTop (index top : Nat) : Emit Unit :=
  modifyStatement index ({ · with top := top, update := top })

/-- Set where the continues of a loop, and of the labels directly around it, go. -/
def setLoopUpdate (index update : Nat) : Emit Unit := do
  if (← get).statements.size ≤ index then outOfBounds
  modify fun g => { g with statements := g.statements.setLoopUpdate update index }

/-- Name a statement. -/
def setLabel (index : Nat) (label : String) : Emit Unit :=
  modifyStatement index ({ · with label := some label })

/-- Change the kind of a statement. -/
def setKind (index : Nat) (kind : StatementKind) : Emit Unit :=
  modifyStatement index ({ · with kind := kind })

/-- Latest pending finally call of a statement. -/
def gosubs (index : Nat) : Emit (Option Nat) := do return (← statement index).gosubs

/-- Replace the latest pending finally call of a statement. -/
def setGosubs (index : Nat) (last : Option Nat) : Emit Unit :=
  modifyStatement index ({ · with gosubs := last })

/-- The stack slot of a block-scoped name, if one is in scope. -/
def lookup (name : String) : Emit (Option Nat) := do
  liftFault ((← get).statements.lookup name)

/-- Emit the pops that have been put off, if there are any. -/
def flushPops (pops : Nat) : Emit Unit := do
  if 0 < pops then
    let _ ← note .hidden
    let _ ← popN (UInt16.ofNat pops)

/-- Emit one instruction that cleans up behind a jump. -/
def cleanup (step : Emit Nat) : Emit Unit := do
  let _ ← note .hidden
  let _ ← step

/-- What leaving the statement at `index` early needs because of its kind, after `pops` pops have
been put off. Answers the pops put off from then on. -/
def leaveKind (index pops : Nat) (kind : StatementKind) : Emit Nat := do
  match kind with
  | .finallyClause =>
    flushPops pops
    let _ ← note .hidden
    let pc ← link .backpatch (← gosubs index)
    setGosubs index (some pc)
    return 0
  | .withObject =>
    flushPops pops
    cleanup (op .leaveWith)
    return 0
  | .forInLoop =>
    flushPops pops
    cleanup (op .endIter)
    return 0
  | .subroutine =>
    if 65536 ≤ pops + 2 then throw (.fault .overflow)
    return pops + 2
  | _ => return pops

/-- What leaving the statement at `index` early needs because of the names it binds. -/
def leaveScope (index pops : Nat) : Emit Nat := do
  match (← statement index).scope with
  | none => return pops
  | some scope =>
    flushPops pops
    cleanup (leaveBlock scope.count)
    return 0

/-- Leave the statements from position `stop + count - 1` down to `stop`. -/
def leaveStatements (stop pops : Nat) : Nat → Emit Nat
  | 0 => return pops
  | count + 1 => do
    let index := stop + count
    let pops ← leaveKind index pops (← statement index).kind
    let pops ← leaveScope index pops
    leaveStatements stop pops count

/-- Emit what leaving every statement inside `target` needs, or every statement when there is no
target. The modelled depth is the same afterwards, as the normal way out runs the same code. -/
def leaveUpTo (target : Option Nat) : Emit Unit := do
  let depth ← stackDepth
  let stop := match target with
    | some index => index + 1
    | none => 0
  if 18446744073709551616 ≤ stop then throw (.fault .overflow)
  let pops ← leaveStatements stop 0 ((← get).statements.size - stop)
  flushPops pops
  setStackDepth depth

/-- Emit a jump out to the statement at `target`, joining one of its chains. A labeled jump carries
the literal index of its label in its note. -/
def leaveTo (target : Nat) (chain : Chain) (label : Option UInt16) (kind : Option NoteKind) :
    Emit Nat := do
  leaveUpTo (some target)
  match label, kind with
  | some label, some kind => let _ ← note1 kind label.toNat
  | none, some kind => let _ ← note kind
  | _, none => pure ()
  let last := (← statement target).link chain
  let pc ← link .backpatch last
  modifyStatement target (·.setLink (some pc) chain)
  return pc

end Emit

end ScriptCompiler
