import ScriptCompiler.Script.Basic

/-!
# Listings

A listing shows a script with one instruction a line: its offset, its name and
its targets or its 16-bit operand. A line of its own marks where main code
starts behind hoisted declarations.
-/

namespace ScriptCompiler

namespace Script

/-- An offset in decimal, padded with zeros to five digits. -/
def offsetText (n : Nat) : String :=
  let digits := toString n
  String.ofList (List.replicate (5 - digits.length) '0') ++ digits

/-- The targets of a switch. -/
def switchText (targets : SwitchTargets) : String :=
  targets.arms.foldl (fun text arm => text ++ ", " ++ arm.key.text ++ ": " ++ toString arm.target)
    (" default " ++ toString targets.fallback)

/-- What follows the name of an instruction: the target of a jump, the targets of a switch, or the
operand of any other instruction of three bytes. -/
def operandText (code : Bytes) (i : Instruction) : Except Fault String := do
  if let some target ← jumpTarget code i.pc then return " " ++ toString target
  if let some targets ← switchTargets code i.pc then return switchText targets
  if i.length ≠ 3 then return ""
  match Bytes.u16? code (i.pc + 1) with
  | some operand => return " " ++ toString operand
  | none => throw .outOfBounds

/-- A listing with the line of one more instruction. -/
def addLine (s : Script) (text : String) (i : Instruction) : Except Fault String := do
  let operands ← operandText s.code i
  let text := if i.pc = s.mainOffset ∧ 0 < s.mainOffset then text ++ "main:\n" else text
  return text ++ offsetText i.pc ++ ": " ++ i.op.mnemonic ++ operands ++ "\n"

/-- The listing of a script. -/
def listing (s : Script) : Except Fault String := (instructions s.code).foldlM s.addLine ""

end Script

end ScriptCompiler
