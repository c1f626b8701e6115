import ScriptCompiler.Compile.Walk
import Std.Data.HashSet

/-!
# Emitting switches

A switch is lowered in one of three ways. When all keys are distinct small
integers in a range that is at least half full, a table indexed by the key
holds the offsets. When all keys are constants, pairs of literal and offset are
searched. Otherwise every test is evaluated in turn by a case instruction. The
bodies follow in all three, and the offsets are filled in behind them.
-/

namespace ScriptCompiler

/-- How a switch is lowered. -/
inductive SwitchPlan where
  /-- By a table for the keys from `low` to `high`. -/
  | table (low high : Int)
  /-- By a search for a literal. -/
  | lookup
  /-- By testing one case after the other. -/
  | conditional
  deriving DecidableEq, Repr

/-- The keys seen while looking for a table. -/
structure KeyRange where
  /-- Least key. -/
  low : Int
  /-- Greatest key. -/
  high : Int
  /-- All keys. -/
  seen : Std.HashSet Int
  /-- Whether the keys so far are distinct small integers. -/
  dense : Bool

namespace KeyRange

/-- No keys yet. -/
def empty : KeyRange := ⟨2147483647, -2147483648, ∅, true⟩

/-- Take one more key into account, which is no small integer if absent. -/
def add (r : KeyRange) : Option Int → KeyRange
  | none => { r with dense := false }
  | some key =>
    if r.dense && !r.seen.contains key then
      ⟨min r.low key, max r.high key, r.seen.insert key, true⟩
    else { r with dense := false }

/-- Number of keys in the range. -/
def length (r : KeyRange) : Int := r.high - r.low + 1

end KeyRange

namespace Walk

/-- The constant that a test denotes, if it is one. -/
def caseKey (w : Walk) (test : NodeId) : Emit (Option Literal) := do
  return match (← w.node test).kind with
    | .number value => some (.number value)
    | .string value => some (.string value)
    | .bool value => some (.bool value)
    | .null => some .null
    | _ => none

/-- The small integer that a test denotes, if it is one. -/
def tableKey (w : Walk) (test : NodeId) : Emit (Option Int) := do
  return match (← w.node test).kind with
    | .number value => value.toInt32?.filter Bytes.fits16
    | _ => none

/-- The range of the keys of the tests, or nothing once a test is no constant. -/
def keyRange (w : Walk) (range : KeyRange) : List NodeId → Emit (Option KeyRange)
  | [] => return some range
  | test :: tests => do
    if (← w.caseKey test).isNone then return none
    let key ← w.tableKey test
    w.keyRange (range.add key) tests

/-- Choose how to lower a switch with the given tests. -/
def planSwitch (w : Walk) (tests : List NodeId) : Emit SwitchPlan := do
  if tests.isEmpty then return .table 0 (-1)
  match ← w.keyRange .empty tests with
  | none => return .conditional
  | some range =>
    if range.dense ∧ range.length < 65536 ∧ range.length ≤ 2 * tests.length then
      return .table range.low range.high
    let literals := (← get).literals
    if literals.limit < tests.length + literals.size then return .conditional
    return .lookup

/-- The chain of case instructions of a conditional switch. -/
structure CaseChain where
  /-- Note of the latest case, which measures the distance to the next one. -/
  note : Option Nat
  /-- Offset of the latest case. -/
  last : Nat
  /-- The case jump of each clause so far, latest first; the default clause has none. -/
  jumps : List (Option Nat)

/-- Set the note of the latest case to the distance from it to here. -/
def closeCase (chain : CaseChain) : Emit Unit := do
  match chain.note with
  | none => pure ()
  | some note => Emit.setNote note 0 (← distance chain.last (← Emit.offset))

/-- Let the note of the switch at `top` lead to its first case, at `pc` with a note at `note`.
Growing the note of the switch moves the one of the case along; answers where it is then. -/
def noteFirst (top switchNote pc note : Nat) : Option Nat → Emit Nat
  | some _ => return note
  | none => do
    let before ← Emit.noteCount
    Emit.setNote switchNote 1 (← distance top pc)
    return note + ((← Emit.noteCount) - before)

/-- Emit the tests of a conditional switch at `top`, whose note is at `switchNote`. -/
def caseTests (w : Walk) (top switchNote : Nat) (chain : CaseChain) : List Case → Emit CaseChain
  | [] => return chain
  | clause :: clauses => do
    match clause.test with
    | none =>
      closeCase chain
      w.caseTests top switchNote { chain with jumps := none :: chain.jumps } clauses
    | some test =>
      w.child test
      closeCase chain
      let note ← Emit.note1 .pcDelta 0
      let pc ← Emit.jump .case 0
      let note ← noteFirst top switchNote pc note chain.note
      w.caseTests top switchNote ⟨some note, pc, some pc :: chain.jumps⟩ clauses

/-- The bodies of a switch as they have been emitted. -/
structure CaseBodies where
  /-- Offset of the body of each clause, latest first. -/
  offsets : List Nat
  /-- Offset of the body of the last default clause. -/
  fallback : Option Nat

/-- Emit the bodies of the clauses, letting the case jump of each lead to its body. -/
def caseBodies (w : Walk) (bodies : CaseBodies) : List (Case × Option Nat) → Emit CaseBodies
  | [] => return bodies
  | (clause, jump) :: clauses => do
    match jump with
    | none => pure ()
    | some pc => Emit.landHere pc
    let here ← Emit.offset
    w.children clause.body
    let fallback := if clause.test.isNone then some here else bodies.fallback
    w.caseBodies ⟨here :: bodies.offsets, fallback⟩ clauses

/-- Enter the body offsets of the clauses with a small integer test into a table that starts with
the key `low`. -/
def fillTable (w : Walk) (low : Int) (table : Array (Option Nat)) :
    List (Case × Nat) → Emit (Array (Option Nat))
  | [] => return table
  | (clause, offset) :: clauses => do
    match clause.test with
    | none => w.fillTable low table clauses
    | some test =>
      match ← w.tableKey test with
      | none => w.fillTable low table clauses
      | some key =>
        if key < low then Emit.inconsistent .keyBelowTable
        let slot := (key - low).toNat
        if table.size ≤ slot then Emit.outOfBounds
        w.fillTable low (table.setIfInBounds slot (some offset)) clauses

/-- Write the offsets of a table switch at `top`, the next one at `field`. A hole has offset
zero. -/
def writeTable (top : Nat) (field : Nat) : List (Option Nat) → Emit Unit
  | [] => pure ()
  | entry :: entries => do
    let span ← match entry with
      | some offset => Emit.spanBetween top offset
      | none => pure 0
    Emit.setOffsetAt field span
    writeTable top (field + 2) entries

/-- Write the pairs of a lookup switch at `top`, the next one at `position`. -/
def writePairs (w : Walk) (top : Nat) (position : Nat) : List (Case × Nat) → Emit Unit
  | [] => pure ()
  | (clause, offset) :: clauses => do
    match clause.test with
    | none => w.writePairs top position clauses
    | some test =>
      match ← w.caseKey test with
      | none => Emit.inconsistent .keyNotConstant
      | some key =>
        let index ← Emit.literalIndex key
        Emit.setU16 position index.toNat
        let span ← Emit.spanBetween top offset
        Emit.setOffsetAt (position + 2) span
        w.writePairs top (position + 4) clauses

/-- The instruction of a plan and the number of operand bytes to reserve. -/
def switchHead (plan : SwitchPlan) (cases : Nat) : Opcode × Nat :=
  match plan with
  | .table low high => (.tableSwitch, 2 * (3 + keyCount low high))
  | .lookup => (.lookupSwitch, 4 + 4 * cases)
  | .conditional => (.condSwitch, 0)

/-- Enter a switch into the table of spans if that is on. -/
def registerSwitch (top : Nat) : Emit Unit := do
  if (← get).spans.active then
    let _ ← Emit.addSwitch top

/-- What comes between a switch instruction and the bodies: bounds, pair count or tests. Answers
the case jumps of the clauses and the jump of the default case. -/
def switchOperands (w : Walk) (plan : SwitchPlan) (top note : Nat) (tests : Nat)
    (clauses : List Case) : Emit (List (Option Nat) × Option Nat) := do
  match plan with
  | .conditional =>
    let chain ← w.caseTests top note ⟨none, top, []⟩ clauses
    if tests = clauses.length then closeCase chain
    let fallback ← Emit.jump .default 0
    return (chain.jumps.reverse, some fallback)
  | .table low high =>
    if !Bytes.fits16 low then Emit.inconsistent .tableBound
    Emit.setI16 (top + 3) low
    if !Bytes.fits16 high then Emit.inconsistent .tableBound
    Emit.setI16 (top + 5) high
    registerSwitch top
    return (clauses.map fun _ => none, none)
  | .lookup =>
    if 65536 ≤ tests then Emit.tooLarge
    Emit.setU16 (top + 3) tests
    registerSwitch top
    return (clauses.map fun _ => none, none)

/-- Write the arms of a switch once the bodies are in place. -/
def switchArms (w : Walk) (plan : SwitchPlan) (top : Nat) (placed : List (Case × Nat)) :
    Emit Unit := do
  match plan with
  | .table low high =>
    let table ← w.fillTable low (Array.replicate (keyCount low high) none) placed
    writeTable top (top + 7) table.toList
  | .lookup => w.writePairs top (top + 5) placed
  | .conditional => pure ()

/-- Emit a switch. -/
def switch (w : Walk) (discriminant : NodeId) (clauses : List Case) : Emit Unit := do
  w.child discriminant
  let top ← Emit.offset
  let _ ← Emit.pushStatement .switch top
  let tests := clauses.filterMap Case.test
  let plan ← w.planSwitch tests
  let (code, size) := switchHead plan tests.length
  let note ← Emit.note2 .switch 0 0
  let _ ← Emit.opZeroed code size
  let (jumps, fallbackJump) ← w.switchOperands plan top note tests.length clauses
  let bodies ← w.caseBodies ⟨[], none⟩ (clauses.zip jumps)
  let here ← Emit.offset
  let jump := fallbackJump.getD top
  let span ← Emit.spanBetween jump (bodies.fallback.getD here)
  Emit.setJumpOffset jump span
  Emit.setNote note 0 (← distance top here)
  w.switchArms plan top (clauses.zip bodies.offsets.reverse)
  Emit.popStatement

end Walk

end ScriptCompiler
