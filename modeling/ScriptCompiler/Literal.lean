import ScriptCompiler.Binary64
import ScriptCompiler.Error
import ScriptCompiler.Limits
import Std.Data.HashMap

/-!
# Literals and the literal table

Instructions refer to names, strings, numbers and switch keys by a 16-bit
index into the literal table of their unit. A literal enters the table on its
first use and keeps its index; equal literals share one entry.
-/

namespace ScriptCompiler

/-- A constant referred to by index. -/
inductive Literal where
  /-- An identifier or a string constant. -/
  | string (text : String)
  /-- A number without an immediate encoding. -/
  | number (value : Binary64)
  /-- A truth value as a switch key. -/
  | bool (value : Bool)
  /-- The null value as a switch key. -/
  | null
  deriving DecidableEq, Hashable, Repr

namespace Literal

/-- The text of a string literal. -/
def text? : Literal → Option String
  | string text => some text
  | _ => none

/-- The value of a number literal. -/
def number? : Literal → Option Binary64
  | number value => some value
  | _ => none

end Literal

/-- Distinct literals in order of first use. -/
structure LiteralTable where
  /-- The literals; the position of a literal is its index. -/
  entries : Array Literal
  /-- Index of each entry. -/
  positions : Std.HashMap Literal Nat
  /-- Most entries the table may hold. -/
  limit : Nat

namespace LiteralTable

/-- The empty table for at most `limit` literals, and never more than there are indexes. -/
def empty (limit : Nat) : LiteralTable := ⟨#[], ∅, min limit Limits.literalIndexes⟩

/-- Number of entries. -/
def size (t : LiteralTable) : Nat := t.entries.size

/-- Append a literal that has no entry yet. -/
def push (t : LiteralTable) (l : Literal) : LiteralTable :=
  let index := t.entries.size
  { t with entries := t.entries.push l, positions := t.positions.insert l index }

/-- An index as a 16-bit operand. -/
def operand? (index : Nat) : Option UInt16 :=
  if index < 65536 then some (UInt16.ofNat index) else none

end LiteralTable

end ScriptCompiler
