import ScriptCompiler.Statement.Kind

/-!
# Why emission stops

Every operation that can fail answers with an `Error`. Size and depth limits
are ordinary answers. An `Inconsistency` reports a check of the emitter on its
own tables, or a tree whose parts are in the wrong places. A `Fault` is an
access outside a table or an arithmetic result outside its machine range; no
table is meaningful afterwards.
-/

namespace ScriptCompiler

/-- A consistency check that failed. -/
inductive Inconsistency where
  | jumpOutsideMain
  | negativeLink
  | unresolvedJump
  | unknownScannedOpcode
  | truncatedInstruction
  | unknownSwitchOpcode
  | unknownJumpOpcode
  | missingSpan
  | unknownSiteOpcode
  | narrowSpanOutOfRange
  | linkNotPositive
  | statementUnderflow
  | directFiller
  | operandOutOfRange
  | deltaTooLarge
  | unknownNoteKind
  | noteBeforeScript
  | noteDirection
  | regionDepth
  | regionInverted
  | forInTarget
  | unknownLabel
  | breakOutside
  | continueWithoutLoop
  | continueOutside
  | catchParameter
  | letBinding
  | tableBound
  | keyBelowTable
  | keyNotConstant
  | statementAsExpression
  | assignmentTarget
  | logicalOperands
  | brokenLogicalChain
  deriving DecidableEq, Repr

/-- The words for a failed check. -/
def Inconsistency.text : Inconsistency → String
  | jumpOutsideMain => "jumps are only emitted into main code"
  | negativeLink => "negative backpatch delta"
  | unresolvedJump => "unresolved jump"
  | unknownScannedOpcode => "unknown opcode in span-dependency scan"
  | truncatedInstruction => "truncated instruction in span-dependency scan"
  | unknownSwitchOpcode => "unknown switch opcode"
  | unknownJumpOpcode => "unknown jump opcode"
  | missingSpan => "no span dependency for jump"
  | unknownSiteOpcode => "span dependency on an unknown opcode"
  | narrowSpanOutOfRange => "narrow jump span out of range"
  | linkNotPositive => "backpatch chain link is not positive"
  | statementUnderflow => "statement stack underflow"
  | directFiller => "extended-delta notes are not created directly"
  | operandOutOfRange => "source note operand out of range"
  | deltaTooLarge => "source note delta adjustment too large"
  | unknownNoteKind => "unknown source note type"
  | noteBeforeScript => "source note spans before the script"
  | noteDirection => "source note span changed direction"
  | regionDepth => "try note stack depth out of range"
  | regionInverted => "try note ends before it starts"
  | forInTarget => "for-in target must be a name"
  | unknownLabel => "break to an unknown label"
  | breakOutside => "break outside a loop or switch"
  | continueWithoutLoop => "continue to a label without a loop"
  | continueOutside => "continue outside a loop"
  | catchParameter => "catch parameter out of scope"
  | letBinding => "let binding out of scope"
  | tableBound => "switch table bound out of range"
  | keyBelowTable => "switch key below table"
  | keyNotConstant => "lookup switch key is not constant"
  | statementAsExpression => "statement in expression position"
  | assignmentTarget => "invalid assignment target"
  | logicalOperands => "logical expression needs two operands"
  | brokenLogicalChain => "broken logical chain"

/-- A broken machine-level assumption. -/
inductive Fault where
  /-- An access outside the code, the notes, the tree or the statement stack. -/
  | outOfBounds
  /-- An arithmetic result outside its machine range. -/
  | overflow
  /-- A walk along links that lead back to where they started. -/
  | endless
  deriving DecidableEq, Repr

/-- Why emission of a unit stopped. -/
inductive Error where
  /-- A buffer would need more than the address space. -/
  | outOfMemory
  /-- A span or a note operand does not fit its widest encoding; names the
  innermost open statement, or the whole script when none is open. -/
  | tooLarge (construct : Option StatementKind)
  /-- The literal or function table would outgrow its 16-bit indexes. -/
  | tooManyLiterals
  /-- Entering level `depth` would exceed the nesting limit. -/
  | tooMuchRecursion (limit depth : Nat)
  /-- A consistency check failed. -/
  | inconsistent (cause : Inconsistency)
  /-- A broken machine-level assumption. -/
  | fault (cause : Fault)
  deriving DecidableEq, Repr

namespace Error

/-- The words for an error. -/
def message : Error → String
  | outOfMemory => "out of memory"
  | tooLarge construct => (construct.map StatementKind.text).getD "script" ++ " too large"
  | tooManyLiterals => "too many literals"
  | tooMuchRecursion limit depth => s!"too much recursion: depth {depth} exceeds limit {limit}"
  | inconsistent cause => "internal emitter error: " ++ cause.text
  | fault .outOfBounds => "access out of bounds"
  | fault .overflow => "arithmetic overflow"
  | fault .endless => "endless chain"

/-- A value that has to be there; its absence is an access out of bounds. -/
def inBounds {α : Type} : Option α → Except Error α
  | some a => .ok a
  | none => .error (.fault .outOfBounds)

/-- A value that has to be there; its absence is a failed check. -/
def orInconsistent {α : Type} (cause : Inconsistency) : Option α → Except Error α
  | some a => .ok a
  | none => .error (.inconsistent cause)

end Error

end ScriptCompiler
