import ScriptCompiler.Error
import ScriptCompiler.Instruction
import ScriptCompiler.SpanTable

/-!
# Which jumps become wide

The spans of one opcode form a site. A narrow site one of whose spans does not
fit 16 bits is promoted to its wide twin: each of its fields grows by two bytes
and everything behind the field moves. That may push the span of another site
out of range, before or behind it, so passes over the sites repeat until one of
them promotes nothing. Promotion is never undone, hence there is at most one
pass more than there are sites.
-/

namespace ScriptCompiler

/-- One span of a site. -/
structure Arm where
  /-- Offset of the field before any widening. -/
  field : Nat
  /-- Offset of the field with the widening done so far. -/
  place : Nat
  /-- Where the jump goes. -/
  destination : Destination
  deriving DecidableEq, Repr

/-- How far the field of an arm has moved. -/
def Arm.moved (a : Arm) : Nat := a.place - a.field

/-- A jump or switch with its spans. -/
structure Site where
  /-- Offset of the opcode before any widening. -/
  top : Nat
  /-- The opcode, or its wide twin once promoted. -/
  op : Opcode
  /-- The spans in order. -/
  arms : List Arm
  deriving DecidableEq, Repr

/-- What widening has led to. -/
structure Layout where
  /-- The sites with their final opcodes and field offsets. -/
  sites : List Site
  /-- Final offsets of the targets. -/
  targets : TargetIndex
  /-- Bytes by which the code grows. -/
  growth : Nat
  /-- Number of passes it took. -/
  passes : Nat
  deriving DecidableEq, Repr

namespace Site

/-- Offset of the opcode with the widening done so far. -/
def pivot (s : Site) : Nat :=
  match s.arms with
  | first :: _ => first.place - (first.field - s.top)
  | [] => s.top

/-- Move all fields by a distance. -/
def moveBy (s : Site) (distance : Nat) : Site :=
  { s with arms := s.arms.map fun arm => { arm with place := arm.place + distance } }

end Site

namespace Layout

/-- Put a span in front of the groups of the spans behind it, into the first one if it has the
same opcode. -/
def group (span : Span) (groups : List (Nat × List Arm)) : List (Nat × List Arm) :=
  let arm : Arm := ⟨span.field, span.field, span.destination⟩
  match groups with
  | (top, arms) :: rest =>
    if span.top = top then (top, arm :: arms) :: rest else (span.top, [arm]) :: groups
  | [] => [(span.top, [arm])]

/-- The site of a group, with the opcode that stands in the code. -/
def siteOf (code : Bytes) (group : Nat × List Arm) : Except Error Site := do
  let byte ← Error.inBounds code[group.1]?
  let op ← Error.orInconsistent .unknownSiteOpcode (Opcode.ofByte? byte)
  return ⟨group.1, op, group.2⟩

/-- The sites of all spans of a table. -/
def sitesOf (code : Bytes) (spans : Array Span) : Except Error (List Site) :=
  (spans.foldr group []).mapM (siteOf code)

/-- The span of an arm, measured from the opcode at `pivot`. -/
def armSpan (targets : TargetIndex) (pivot : Nat) (arm : Arm) : Except Error Int :=
  match arm.destination with
  | .unset => .ok 0
  | .target entry => .ok ((targets.offset entry : Int) - pivot)
  | .link _ => .error (.inconsistent .unresolvedJump)

/-- Whether one of the arms does not fit 16 bits; the arms behind it are not looked at. -/
def overflows (targets : TargetIndex) (pivot : Nat) : List Arm → Except Error Bool
  | [] => .ok false
  | arm :: arms =>
    match armSpan targets pivot arm with
    | .ok span => if Bytes.fits16 span then overflows targets pivot arms else .ok true
    | .error e => .error e

/-- Widen arms one after the other, `widened` of the same site being wide already, latest first.
Each moves by what the ones before it have grown and moves the targets behind it. -/
def widenArms (widened : List Arm) (count : Nat) (targets : TargetIndex) :
    List Arm → List Arm × TargetIndex
  | [] => (widened.reverse, targets)
  | arm :: arms =>
    let arm := { arm with place := arm.place + 2 * count }
    widenArms (arm :: widened) (count + 1) (targets.shiftAbove arm.place 2) arms

/-- A pass in progress. -/
structure Pass where
  /-- Sites visited so far, latest first. -/
  visited : List Site
  /-- Offsets of the targets now. -/
  targets : TargetIndex
  /-- Bytes the visited sites have grown by in this pass. -/
  growth : Nat
  /-- Whether a site has been promoted in this pass. -/
  promoted : Bool

/-- Visit one site: move it by the growth before it and promote it if it is narrow and does not
fit. An opcode without a wide twin is too large. -/
def visit (tooLarge : Error) (pass : Pass) (site : Site) : Except Error Pass := do
  let ⟨visited, targets, growth, promoted⟩ := pass
  let site := site.moveBy growth
  if site.op.isWide then return ⟨site :: visited, targets, growth, promoted⟩
  if ← overflows targets site.pivot site.arms then
    match site.op.widened with
    | none => throw tooLarge
    | some twin =>
      let (arms, targets) := widenArms [] 0 targets site.arms
      return ⟨⟨site.top, twin, arms⟩ :: visited, targets, growth + 2 * arms.length, true⟩
  else return ⟨site :: visited, targets, growth, promoted⟩

/-- One pass over all sites. -/
def pass (tooLarge : Error) (sites : List Site) (targets : TargetIndex) : Except Error Pass :=
  sites.foldlM (visit tooLarge) ⟨[], targets, 0, false⟩

/-- Repeat passes until one promotes nothing. Every other pass turns a narrow site wide, so more
passes than sites are never needed before the last one. -/
def settle (tooLarge : Error) (sites : List Site) (targets : TargetIndex) (growth passes : Nat) :
    Nat → Except Error Layout
  | 0 => .error (.fault .endless)
  | fuel + 1 => do
    let ⟨visited, targets, added, promoted⟩ ← pass tooLarge sites targets
    if promoted then
      settle tooLarge visited.reverse targets (growth + added) (passes + 1) fuel
    else return ⟨visited.reverse, targets, growth + added, passes + 1⟩

/-- Promote sites until every narrow span fits. -/
def widen (tooLarge : Error) (sites : List Site) (targets : TargetIndex) : Except Error Layout :=
  settle tooLarge sites targets 0 0 (sites.length + 1)

/-- The arms of all sites in order. -/
def arms (l : Layout) : Array Arm := l.sites.foldl (fun arms site => arms.appendList site.arms) #[]

end Layout

end ScriptCompiler
