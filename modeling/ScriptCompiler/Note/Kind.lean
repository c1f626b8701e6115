/-!
# Kinds of source notes

A source note annotates a code offset with something the code itself does not
say: a line change, the construct an instruction belongs to, or the distance
to another part of that construct. The kind fixes how many operands a note has
and whether they are distances in the code, which move when the code grows.
-/

namespace ScriptCompiler

/-- Kind of a source note, in the order of the kind numbers. -/
inductive NoteKind where
  /-- Ends a note stream when written with delta zero. -/
  | null
  /-- Advances the line by one. -/
  | newline
  /-- Sets the line to the operand. -/
  | setLine
  /-- Marks an instruction inserted for cleanup before a jump. -/
  | hidden
  /-- Distance back from a call to the start of its callee. -/
  | pcBase
  | ifThen
  /-- Distance from the branch to the jump over the else part. -/
  | ifElse
  /-- Distances from just past the loop head to the condition, the update and the closing jump. -/
  | forLoop
  /-- Distance from the entry jump to the closing branch. -/
  | whileLoop
  /-- Distances from the entry jump to the end of the store and to the closing branch. -/
  | forIn
  | continueLoop
  | breakOut
  | switchBreak
  /-- Distance from one case of a conditional switch to the next. -/
  | pcDelta
  | assignOp
  /-- Distance from the branch to the jump over the second arm. -/
  | conditional
  | label
  | breakLabel
  | continueLabel
  /-- Length of the switch and, for a conditional switch, distance to its first case. -/
  | switch
  | funcDef
  /-- Length of the catch block. -/
  | catchBlock
  | endBrace
  /-- A filler that only carries delta. -/
  | filler
  deriving DecidableEq, Repr, Inhabited

/-- Which way the operands of a note measure the code. -/
inductive Direction where
  | forward
  | backward
  deriving DecidableEq, Repr

/-- Static description of a note kind. -/
structure NoteSpec where
  /-- Number of operands. -/
  arity : Nat
  /-- Added to the annotated offset before distances are measured. -/
  bias : Nat
  /-- Direction of the distances, if the operands are distances at all. -/
  measures : Option Direction
  deriving DecidableEq, Repr

namespace NoteKind

/-- The static description table. -/
def spec : NoteKind → NoteSpec
  | null | newline | hidden | ifThen | continueLoop | breakOut | switchBreak | assignOp | endBrace
  | filler => ⟨0, 0, none⟩
  | setLine | label | breakLabel | continueLabel | funcDef => ⟨1, 0, none⟩
  | pcBase => ⟨1, 0, some .backward⟩
  | ifElse | whileLoop | pcDelta | conditional | catchBlock => ⟨1, 0, some .forward⟩
  | forIn | switch => ⟨2, 0, some .forward⟩
  | forLoop => ⟨3, 1, some .forward⟩

/-- Number of operands of a note of this kind. -/
def arity (kind : NoteKind) : Nat := kind.spec.arity

/-- All kinds; the position of a kind is its number. -/
def all : Array NoteKind := #[
  null, newline, setLine, hidden, pcBase, ifThen, ifElse, forLoop, whileLoop, forIn, continueLoop,
  breakOut, switchBreak, pcDelta, assignOp, conditional, label, breakLabel, continueLabel, switch,
  funcDef, catchBlock, endBrace, filler]

/-- The number of a kind. -/
def number (kind : NoteKind) : Nat := kind.ctorIdx

/-- The kind with a given number. -/
def ofNumber? (n : Nat) : Option NoteKind := all[n]?

/-- Looking up the number of a kind gives that kind. -/
@[simp] theorem ofNumber?_number (kind : NoteKind) : ofNumber? kind.number = some kind := by
  cases kind <;> rfl

/-- The name of a note kind in listings. -/
def text : NoteKind → String
  | null => "null"
  | newline => "newline"
  | setLine => "setline"
  | hidden => "hidden"
  | pcBase => "pcbase"
  | ifThen => "if"
  | ifElse => "ifelse"
  | forLoop => "for"
  | whileLoop => "while"
  | forIn => "forin"
  | continueLoop => "continue"
  | breakOut => "break"
  | switchBreak => "switchbreak"
  | pcDelta => "pcdelta"
  | assignOp => "assignop"
  | conditional => "cond"
  | label => "label"
  | breakLabel => "break2label"
  | continueLabel => "cont2label"
  | switch => "switch"
  | funcDef => "funcdef"
  | catchBlock => "catch"
  | endBrace => "endbrace"
  | filler => "xdelta"

/-- The kind with a given listing name. -/
def ofText? (text : String) : Option NoteKind := all.find? (·.text == text)

end NoteKind

end ScriptCompiler
