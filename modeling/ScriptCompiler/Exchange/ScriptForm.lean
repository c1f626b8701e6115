import ScriptCompiler.Exchange.Datum
import ScriptCompiler.Script.Basic

/-!
# Scripts as plain data

A script is written as a record of its fields, bytes as lists of integers,
number literals by their bits, and nested functions in the same form. Reading
takes back what writing produces.
-/

namespace ScriptCompiler

/-- The names of the region kinds. -/
def RegionKind.variants : List (String × RegionKind) := [
  ("Catch", .catchBlock), ("Finally", .finallyClause), ("Iter", .iterator)]

/-- The name of a region kind. -/
def RegionKind.variantName : RegionKind → String
  | catchBlock => "Catch"
  | finallyClause => "Finally"
  | iterator => "Iter"

/-- Write a natural number. -/
def Datum.ofNat (n : Nat) : Datum := .integer n

/-- Write bytes. -/
def Datum.ofBytes (bytes : Bytes) : Datum := .list (bytes.toList.map fun byte => .ofNat byte.toNat)

/-- Read bytes. -/
def Datum.toBytes? (d : Datum) : Option Bytes := do
  let bytes ← d.toList? fun item => (item.toNat? 256).map UInt8.ofNat
  return bytes.toArray

/-- Write a region. -/
def Region.toDatum (r : Region) : Datum := .record [
  ("kind", .text r.kind.variantName), ("stack_depth", .ofNat r.depth), ("start", .ofNat r.start),
  ("length", .ofNat r.length)]

/-- Read a region. -/
def Region.ofDatum? (d : Datum) : Option Region := do
  let [kind, depth, start, length] ← d.components? ["kind", "stack_depth", "start", "length"]
    | none
  return ⟨← kind.toVariant? RegionKind.variants, ← depth.toNat? 65536, ← start.toNat? 4294967296,
    ← length.toNat? 4294967296⟩

/-- Write a literal. -/
def Literal.toDatum : Literal → Datum
  | string text => .record [("String", .text text)]
  | number value => .record [("Number", .ofNat value.bits.toNat)]
  | bool value => .record [("Bool", .bool value)]
  | null => .text "Null"

/-- Read a literal. -/
def Literal.ofDatum? (d : Datum) : Option Literal := do
  match ← d.variant? with
  | ("String", content) => return .string (← content.toText?)
  | ("Number", content) =>
    return .number ⟨UInt64.ofNat (← content.toNat? 18446744073709551616)⟩
  | ("Bool", content) => return .bool (← content.toBool?)
  | ("Null", .null) => return .null
  | _ => none

/-- Write a warning. -/
def Warning.toDatum (w : Warning) : Datum := .record [
  ("StackUnderflow", .record [
    ("filename", .text w.filename), ("line", .ofNat w.line.toNat), ("offset", .ofNat w.offset),
    ("depth", .integer w.depth)])]

/-- Read a warning. -/
def Warning.ofDatum? (d : Datum) : Option Warning := do
  let ("StackUnderflow", content) ← d.variant? | none
  let [filename, line, offset, depth] ← content.fields? ["filename", "line", "offset", "depth"]
    | none
  return ⟨← filename.toText?, ← line.toLine?, ← offset.toNat? 18446744073709551616,
    ← depth.toInt?⟩

namespace Script

/-- The fields of a script in order. -/
def fieldNames : List String := [
  "filename", "code", "main_offset", "notes", "try_notes", "atoms", "functions",
  "max_stack_depth", "first_line", "warnings"]

/-- Write a script. -/
def toDatum : Script → Datum
  | ⟨filename, code, mainOffset, notes, regions, literals, functions, depth, line, warnings⟩ =>
    .record (fieldNames.zip [
      .text filename, .ofBytes code, .ofNat mainOffset, .ofBytes notes,
      .list (regions.toList.map Region.toDatum), .list (literals.toList.map Literal.toDatum),
      .list (functions.attach.map fun ⟨f, _⟩ => f.toDatum).toList, .ofNat depth,
      .ofNat line.toNat, .list (warnings.toList.map Warning.toDatum)])
  termination_by s => sizeOf s

/-- Read a script. -/
def ofDatum? (d : Datum) : Option Script :=
  match _h : d.components? fieldNames with
  | some [filename, code, mainOffset, notes, regions, literals, functions, depth, line,
      warnings] =>
    match _hf : functions.items? with
    | none => none
    | some items => do
      let filename ← filename.toText?
      let code ← code.toBytes?
      let mainOffset ← mainOffset.toNat? 18446744073709551616
      let notes ← notes.toBytes?
      let regions ← regions.toList? Region.ofDatum?
      let literals ← literals.toList? Literal.ofDatum?
      let functions ← items.attach.mapM fun ⟨item, _⟩ => ofDatum? item
      let depth ← depth.toNat? 4294967296
      let line ← line.toLine?
      let warnings ← warnings.toList? Warning.ofDatum?
      return ⟨filename, code, mainOffset, notes, regions.toArray, literals.toArray,
        functions.toArray, depth, line, warnings.toArray⟩
  | _ => none
  termination_by sizeOf d
  decreasing_by
    have := Datum.sizeOf_components?_lt _h (x := functions) (by simp)
    have := Datum.sizeOf_items?_lt _hf ‹_›
    omega

/-- Whether two scripts agree in every field, nested functions included. -/
def beq : Script → Script → Bool
  | ⟨filename, code, mainOffset, notes, regions, literals, functions, depth, line, warnings⟩, s =>
    filename == s.filename && code == s.code && mainOffset == s.mainOffset && notes == s.notes
      && regions == s.regions && literals == s.literals && depth == s.maxStackDepth
      && line == s.firstLine && warnings == s.warnings && functions.size == s.functions.size
      && (functions.attach.zip s.functions).all fun (⟨f, _⟩, g) => f.beq g
  termination_by s => sizeOf s

instance : BEq Script := ⟨beq⟩

end Script

end ScriptCompiler
