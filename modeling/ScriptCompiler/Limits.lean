import ScriptCompiler.Error

/-!
# Limits on one compilation

Nested constructs and the literal table are bounded. The nesting limit counts
every open construct, those of enclosing functions included, so a tree that
refers to itself is refused after finitely many steps.
-/

namespace ScriptCompiler

/-- Limits applied while emitting one unit. -/
structure Limits where
  /-- Greatest nesting depth; `none` selects `Limits.defaultDepth`. -/
  maxRecursionDepth : Option Nat
  /-- Greatest number of distinct literals. -/
  maxLiterals : Nat
  deriving DecidableEq, Repr

namespace Limits

/-- Nesting depth allowed when none is chosen. -/
def defaultDepth : Nat := 200

/-- Literal indexes are 16-bit operands. -/
def literalIndexes : Nat := 65536

/-- The limits nothing else asks for: default depth and the full index range. -/
def standard : Limits := ⟨none, literalIndexes⟩

/-- Choose the nesting depth. -/
def withMaxRecursionDepth (l : Limits) (depth : Option Nat) : Limits :=
  { l with maxRecursionDepth := depth }

/-- Choose the number of literals, at most the index range. -/
def withMaxLiterals (l : Limits) (count : Nat) : Limits :=
  { l with maxLiterals := min count literalIndexes }

/-- The nesting depth in force. -/
def depthLimit (l : Limits) : Nat := l.maxRecursionDepth.getD defaultDepth

/-- Whether one more level may be entered from `depth`. -/
def checkDepth (l : Limits) (depth : Nat) : Except Error Unit :=
  if l.depthLimit ≤ depth then .error (.tooMuchRecursion l.depthLimit (depth + 1)) else .ok ()

end Limits

end ScriptCompiler
