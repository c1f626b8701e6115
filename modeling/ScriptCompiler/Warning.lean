/-!
# Warnings

A warning does not stop emission. The only one there is reports an instruction
that pops more values than the modelled stack holds.
-/

namespace ScriptCompiler

/-- An instruction popped more values than there were. -/
structure Warning where
  /-- File of the unit. -/
  filename : String
  /-- Line in force at the instruction. -/
  line : UInt32
  /-- Offset of the instruction in its section. -/
  offset : Nat
  /-- The negative depth it reached. -/
  depth : Int
  deriving DecidableEq, Repr

/-- The words for a warning. -/
def Warning.message (w : Warning) : String :=
  w.filename ++ ":" ++ toString w.line.toNat ++ ": stack underflow at bytecode offset "
    ++ toString w.offset ++ " (depth " ++ toString w.depth ++ ")"

end ScriptCompiler
