import ScriptCompiler.Limits
import ScriptCompiler.Script.Basic
import ScriptCompiler.SpanTable
import ScriptCompiler.StackDepth
import ScriptCompiler.Statement.Stack

/-!
# The state of a generator

A generator holds everything one script or function body needs while its code
is emitted: two code sections with their notes, the stack model, the table of
spans, protected regions, open statements, literals and finished nested
functions. Emission is a state computation over the generator that may stop
with an error; the state reached by then is kept.
-/

namespace ScriptCompiler

/-- The two sections of a unit. -/
inductive SectionKind where
  /-- Declarations hoisted in front of the body. -/
  | prolog
  /-- The body. -/
  | main
  deriving DecidableEq, Repr

/-- Code and notes of one section. -/
structure CodeSection where
  /-- Code emitted so far. -/
  code : Bytes
  /-- Encoded notes, without a terminator. -/
  notes : Bytes
  /-- Offset annotated by the latest note. -/
  lastNoteOffset : Nat
  /-- Source line in force. -/
  line : UInt32
  deriving DecidableEq

/-- A section without code, starting on a line. -/
def CodeSection.empty (line : UInt32) : CodeSection := ⟨#[], #[], 0, line⟩

/-- State of the emission of one script or function body. -/
structure Generator where
  /-- File of the unit. -/
  filename : String
  /-- Line the unit starts on. -/
  firstLine : UInt32
  /-- Limits in force. -/
  limits : Limits
  /-- Hoisted declarations. -/
  prolog : CodeSection
  /-- The body. -/
  main : CodeSection
  /-- The section instructions are appended to. -/
  current : SectionKind
  /-- The modelled operand stack. -/
  depth : StackDepth
  /-- Jump offsets that may need widening. -/
  spans : SpanTable
  /-- Protected regions that are closed. -/
  regions : Array Region
  /-- Open statements. -/
  statements : StatementStack
  /-- Literals used so far. -/
  literals : LiteralTable
  /-- Finished nested functions. -/
  functions : Array Script
  /-- Nesting level within this unit. -/
  level : Nat
  /-- Nesting level of the enclosing unit when this one started. -/
  levelBase : Nat
  /-- Underflows found so far. -/
  warnings : Array Warning

namespace Generator

/-- The generator of a top-level unit. -/
def new (filename : String) (firstLine : UInt32) (limits : Limits) : Generator where
  filename := filename
  firstLine := firstLine
  limits := limits
  prolog := .empty firstLine
  main := .empty firstLine
  current := .main
  depth := .empty
  spans := .empty
  regions := #[]
  statements := .empty
  literals := .empty limits.maxLiterals
  functions := #[]
  level := 0
  levelBase := 0
  warnings := #[]

/-- Nesting level, enclosing units included. -/
def nestingLevel (g : Generator) : Nat := g.levelBase + g.level

/-- The generator of a function nested in this unit. It shares nothing but the file, the limits
and the nesting level. -/
def child (g : Generator) (firstLine : UInt32) : Generator :=
  { new g.filename firstLine g.limits with levelBase := g.nestingLevel }

/-- The section instructions are appended to. -/
def currentSection (g : Generator) : CodeSection :=
  match g.current with
  | .prolog => g.prolog
  | .main => g.main

/-- Change the current section. -/
def modifySection (g : Generator) (f : CodeSection → CodeSection) : Generator :=
  match g.current with
  | .prolog => { g with prolog := f g.prolog }
  | .main => { g with main := f g.main }

/-- Code of the current section. -/
def code (g : Generator) : Bytes := g.currentSection.code

/-- Offset of the next instruction in the current section. -/
def offset (g : Generator) : Nat := g.code.size

/-- The error that names the innermost open statement. -/
def tooLarge (g : Generator) : Error := .tooLarge (g.statements.top?.map OpenStatement.kind)

/-- The effect of the instruction at `pc` on the stack model, with a warning if it pops too much. -/
def applyEffect (g : Generator) (pc uses defs scratch : Nat) : Generator :=
  let warnings := match g.depth.underflow? uses with
    | some depth => g.warnings.push ⟨g.filename, g.currentSection.line, pc, depth⟩
    | none => g.warnings
  { g with depth := g.depth.apply uses defs scratch, warnings := warnings }

end Generator

/-- A step of emission: it changes the generator and answers a value or an error. -/
abbrev Emit := EStateM Error Generator

namespace Emit

/-- A computed answer that may be an error. -/
def lift {α : Type} : Except Error α → Emit α
  | .ok a => pure a
  | .error e => throw e

/-- A computed answer that may be a fault. -/
def liftFault {α : Type} : Except Fault α → Emit α
  | .ok a => pure a
  | .error e => throw (.fault e)

/-- Stop with a failed check. -/
def inconsistent {α : Type} (cause : Inconsistency) : Emit α := throw (.inconsistent cause)

/-- Stop with an access out of bounds. -/
def outOfBounds {α : Type} : Emit α := throw (.fault .outOfBounds)

/-- Stop because something does not fit its widest encoding. -/
def tooLarge {α : Type} : Emit α := do throw (← get).tooLarge

/-- Append instructions to a section. -/
def switchTo (kind : SectionKind) : Emit Unit := modify fun g => { g with current := kind }

/-- Override the modelled stack depth. -/
def setStackDepth (depth : Int) : Emit Unit := modify fun g => { g with depth := g.depth.set depth }

/-- The modelled stack depth. -/
def stackDepth : Emit Int := do return (← get).depth.depth

/-- Offset of the next instruction. -/
def offset : Emit Nat := do return (← get).offset

/-- Enter one nesting level, if the limit allows it. -/
def enterLevel : Emit Unit := do
  let g ← get
  lift (g.limits.checkDepth g.nestingLevel)
  modify fun g => { g with level := g.level + 1 }

/-- Leave one nesting level. -/
def exitLevel : Emit Unit := modify fun g => { g with level := g.level - 1 }

/-- Run a step one level deeper. The level is left again whether or not the step succeeds. -/
def nested {α : Type} (step : Emit α) : Emit α := fun g =>
  match enterLevel g with
  | .error e g => .error e g
  | .ok _ g =>
    match step g with
    | .ok a g => .ok a { g with level := g.level - 1 }
    | .error e g => .error e { g with level := g.level - 1 }

end Emit

end ScriptCompiler
