import ScriptCompiler.Error
import ScriptCompiler.Statement.Kind

/-!
# The stack of open statements

Open statements are kept in nesting order, outermost first. A statement knows
where its continues go and holds the ends of its chains of pending jumps; each
link of a chain holds the distance back to the link before it. Statements that
bind names, or that hide the names around them, are also linked to one another
from the inside out, and name lookup follows these links only.
-/

namespace ScriptCompiler

/-- Names bound by a block, which live in consecutive stack slots. -/
structure BlockScope where
  /-- Stack depth when the block was entered; the slot of the first name. -/
  depth : Nat
  /-- The names in slot order. -/
  names : List String
  deriving DecidableEq, Repr

/-- Number of slots of a block, at most what a 16-bit operand holds. -/
def BlockScope.count (s : BlockScope) : UInt16 := UInt16.ofNat (min s.names.length 65535)

/-- Which chain of pending jumps of a statement. -/
inductive Chain where
  /-- Jumps past the statement. -/
  | breaks
  /-- Jumps to the next round of a loop. -/
  | continues
  /-- Calls of a finally subroutine. -/
  | gosubs
  deriving DecidableEq, Repr

/-- An open statement. -/
structure OpenStatement where
  /-- What kind of statement it is. -/
  kind : StatementKind
  /-- Offset of its first instruction. -/
  top : Nat
  /-- Where its continues go. -/
  update : Nat
  /-- Latest link of its pending breaks. -/
  breaks : Option Nat
  /-- Latest link of its pending continues. -/
  continues : Option Nat
  /-- Latest link of its pending finally calls. -/
  gosubs : Option Nat
  /-- Its name, for a labeled statement. -/
  label : Option String
  /-- Names it binds. -/
  scope : Option BlockScope
  /-- Position of the next statement outward that takes part in name lookup. -/
  outer : Option Nat
  deriving DecidableEq, Repr

namespace OpenStatement

/-- Whether the statement takes part in name lookup. -/
def linksScope (s : OpenStatement) : Bool :=
  s.kind = .withObject || s.kind = .catchBlock || s.scope.isSome

/-- Latest link of a chain. -/
def link (s : OpenStatement) : Chain → Option Nat
  | .breaks => s.breaks
  | .continues => s.continues
  | .gosubs => s.gosubs

/-- Replace the latest link of a chain. -/
def setLink (s : OpenStatement) (last : Option Nat) : Chain → OpenStatement
  | .breaks => { s with breaks := last }
  | .continues => { s with continues := last }
  | .gosubs => { s with gosubs := last }

end OpenStatement

/-- The open statements. -/
structure StatementStack where
  /-- The statements, outermost first. -/
  entries : Array OpenStatement
  /-- Position of the innermost statement that takes part in name lookup. -/
  innerScope : Option Nat
  deriving DecidableEq, Repr

namespace StatementStack

/-- No open statement. -/
def empty : StatementStack := ⟨#[], none⟩

/-- Number of open statements. -/
def size (s : StatementStack) : Nat := s.entries.size

/-- Open a statement. -/
def push (s : StatementStack) (kind : StatementKind) (top : Nat) (scope : Option BlockScope) :
    StatementStack :=
  let bare : OpenStatement := ⟨kind, top, top, none, none, none, none, scope, none⟩
  if bare.linksScope then
    ⟨s.entries.push { bare with outer := s.innerScope }, some s.entries.size⟩
  else ⟨s.entries.push bare, s.innerScope⟩

/-- Close the innermost statement. -/
def pop (s : StatementStack) : StatementStack :=
  match s.entries.back? with
  | none => s
  | some top =>
    ⟨s.entries.pop, if top.linksScope then top.outer else s.innerScope⟩

/-- The innermost statement. -/
def top? (s : StatementStack) : Option OpenStatement := s.entries.back?

/-- Position of the innermost statement. -/
def topIndex? (s : StatementStack) : Option Nat :=
  if s.entries.size = 0 then none else some (s.entries.size - 1)

/-- Change the statement at a position. -/
def modify (s : StatementStack) (index : Nat) (f : OpenStatement → OpenStatement) :
    StatementStack :=
  { s with entries := s.entries.modify index f }

/-- The innermost of the first `count` statements that satisfies `p`. -/
def findBelow? (s : StatementStack) (p : OpenStatement → Bool) : Nat → Option Nat
  | 0 => none
  | count + 1 =>
    match s.entries[count]? with
    | some statement => if p statement then some count else findBelow? s p count
    | none => findBelow? s p count

/-- The innermost statement that satisfies `p`. -/
def findInner? (s : StatementStack) (p : OpenStatement → Bool) : Option Nat :=
  s.findBelow? p s.entries.size

/-- The statement a `break` without a label leaves. -/
def breakTarget? (s : StatementStack) : Option Nat :=
  s.findInner? fun statement => statement.kind.isLoop || statement.kind = .switch

/-- The loop a `continue` without a label restarts. -/
def continueTarget? (s : StatementStack) : Option Nat :=
  s.findInner? fun statement => statement.kind.isLoop

/-- The innermost statement with a label. -/
def labeled? (s : StatementStack) (label : String) : Option Nat :=
  s.findInner? fun statement => statement.kind = .label && statement.label = some label

/-- The outermost loop among the `count` statements from `index` on. -/
def loopFrom? (s : StatementStack) (index : Nat) : Nat → Option Nat
  | 0 => none
  | count + 1 =>
    match s.entries[index]? with
    | some statement => if statement.kind.isLoop then some index else loopFrom? s (index + 1) count
    | none => none

/-- The loop that a `continue` with a label restarts: the outermost one inside the label. -/
def labeledLoop? (s : StatementStack) (label : String) : Option Nat := do
  let index ← s.labeled? label
  s.loopFrom? (index + 1) (s.entries.size - (index + 1))

/-- Set the continue target of the statement at `index` and of the labels directly around it. -/
def setLoopUpdate (s : StatementStack) (update : Nat) : Nat → StatementStack
  | 0 => s.modify 0 fun statement => { statement with update }
  | index + 1 =>
    let s := s.modify (index + 1) fun statement => { statement with update }
    if s.entries[index]?.map (·.kind) = some .label then setLoopUpdate s update index else s

/-- Follow the scope links from `cursor` to the first statement that binds `name`; answers the slot
of the name. A statement that hides outer names ends the search. `fuel` exceeds the number of
statements, so it only runs out on links that run in a circle. Slots are 32-bit words: a scope starts
below 2147483648, so a sum only leaves them behind as many names in one scope. -/
def lookupFrom (s : StatementStack) (name : String) : Nat → Option Nat → Except Fault (Option Nat)
  | _, none => .ok none
  | 0, some _ => .error .endless
  | fuel + 1, some index =>
    match s.entries[index]? with
    | none => .error .outOfBounds
    | some statement =>
      if statement.kind = .withObject then .ok none
      else
        match statement.scope with
        | none => lookupFrom s name fuel statement.outer
        | some scope =>
          match scope.names.idxOf? name with
          | some position => .ok (some (scope.depth + position))
          | none => lookupFrom s name fuel statement.outer

/-- The stack slot of a block-scoped name, if one is in scope. -/
def lookup (s : StatementStack) (name : String) : Except Fault (Option Nat) :=
  s.lookupFrom name (s.entries.size + 1) s.innerScope

end StatementStack

end ScriptCompiler
