import ScriptCompiler.Compile.Unit
import ScriptCompiler.Proofs.Cell

/-!
# Actions

What a construct becomes is a list of actions. Most of them stand for one
instruction; others emit a child, name the place reached by a label, hoist a
declaration or protect a region. Labels are numbers that mean something in one
list of actions only, and what they stand for is a place in the code together
with the stack there.
-/

namespace ScriptCompiler

namespace StackDepth

/-- The depth after `uses` pops and `defs` pushes. -/
def after (depth : Int) (uses defs : Nat) : Int :=
  min (max (max (depth - uses) least) 0 + defs) greatest

theorem apply_depth (s : StackDepth) (uses defs scratch : Nat) :
    (s.apply uses defs scratch).depth = after s.depth uses defs := by
  simp only [apply, raise, popped, after]
  split <;> rfl

/-- No high-water mark lies below the depth it belongs to. -/
theorem apply_high (s : StackDepth) (uses defs scratch : Nat) :
    (s.apply uses defs scratch).depth.toNat ≤ (s.apply uses defs scratch).high := by
  simp only [apply, raise]
  exact Nat.le_max_right _ _

theorem high_le_apply (s : StackDepth) (uses defs scratch : Nat) :
    s.high ≤ (s.apply uses defs scratch).high := by
  simp only [apply, raise]
  split
  · exact Nat.le_trans (Nat.le_max_left _ _) (Nat.le_max_left _ _)
  · exact Nat.le_max_left _ _

end StackDepth

/-- Whether control may go on to the instruction behind one with this opcode. -/
def Opcode.fallsThrough : Opcode → Bool
  | goto | gotoX | returnTop | retRval | throwTop | retSub | stop => false
  | _ => true

/-- The stack behind a cell. -/
def Cell.out {δ : Type} (c : Cell δ) : Frame := ⟨StackDepth.after c.frame.depth c.uses c.defs⟩

/-- A place in the code, the stack there and how far the table of regions has come. -/
structure Mark where
  /-- Index of the next cell. -/
  pos : Nat
  /-- The stack in front of it. -/
  frame : Frame
  /-- Number of regions closed so far. -/
  closed : Nat
  /-- No instruction has popped more than there was. -/
  quiet : Prop

/-- A protected stretch of cells. -/
structure Extent where
  /-- What unwinding does here. -/
  kind : RegionKind
  /-- Depth the operand stack is cut to. -/
  depth : Nat
  /-- Index of the first cell. -/
  start : Nat
  /-- Index behind the last cell. -/
  stop : Nat

/-- A unit as cells with resolved destinations. -/
structure Program where
  /-- The body. -/
  main : List (Cell Nat)
  /-- Hoisted declarations. -/
  prolog : List (Cell Nat)
  /-- Literals by index. -/
  literals : List Literal
  /-- Nested functions by index. -/
  functions : List Script
  /-- Protected stretches in the order in which they close. -/
  regions : List Extent
  /-- Stack slots a frame needs. -/
  high : Nat

/-- A cell stands at an index of the body, in its narrow or in its wide form. -/
def Program.At (P : Program) (k : Nat) (c : Cell Nat) : Prop :=
  ∃ wide, P.main[k]? = some { c with wide }

/-! ## Open statements -/

/-- Statements that a jump may leave to their end. -/
def StatementKind.takesBreaks : StatementKind → Bool
  | label | ifBranch | elseBranch | switch | doLoop | forLoop | forInLoop | whileLoop => true
  | _ => false

/-- A statement around a node, with the places that jumps out of the node may lead to. -/
structure Open where
  /-- What kind of statement it is. -/
  kind : StatementKind
  /-- Its name, for a labeled statement. -/
  label : Option String
  /-- Names it binds. -/
  scope : Option BlockScope
  /-- Where its breaks go, zero if it takes none. -/
  breakTo : Nat
  /-- Where its continues go, zero if it takes none. -/
  continueTo : Nat
  /-- Where its finally clause starts, zero if it has none ahead. -/
  finallyAt : Nat
  deriving DecidableEq

/-- A statement opened by a construct, with labels for places. -/
structure Opening where
  /-- What kind of statement it is. -/
  kind : StatementKind
  /-- Its name, for a labeled statement. -/
  label : Option String := none
  /-- Names it binds. -/
  names : Option (List String) := none
  /-- Where it is opened, which says where the slots of its names are. -/
  top : Nat := 0
  /-- Where its breaks go. -/
  breaks : Nat := 0
  /-- Where its continues go. -/
  continues : Nat := 0
  /-- Where its finally clause starts. -/
  gosubs : Nat := 0

/-- An opened statement with places for its labels. -/
def Opening.place (lab : Nat → Mark) (o : Opening) : Open where
  kind := o.kind
  label := o.label
  scope := o.names.map fun names => ⟨(lab o.top).frame.depth.toNat, names⟩
  breakTo := if o.kind.takesBreaks then (lab o.breaks).pos else 0
  continueTo := if o.kind.isLoop then (lab o.continues).pos else 0
  finallyAt := if o.kind = .finallyClause then (lab o.gosubs).pos else 0

/-- What a node is lowered in. -/
structure Ctx where
  /-- Whether the code belongs to a function. -/
  inFunction : Bool
  /-- The statements around the node, outermost first. -/
  opens : List Open

namespace Ctx

/-- Inside further statements. -/
def enter (ctx : Ctx) (lab : Nat → Mark) (openings : List Opening) : Ctx :=
  { ctx with opens := ctx.opens ++ openings.map (Opening.place lab) }

/-- The innermost of the first `count` statements that satisfies `p`. -/
def findBelow? (ctx : Ctx) (p : Open → Bool) : Nat → Option Nat
  | 0 => none
  | count + 1 =>
    match ctx.opens[count]? with
    | some o => if p o then some count else ctx.findBelow? p count
    | none => ctx.findBelow? p count

/-- The outermost loop among the `count` statements from `index` on. -/
def loopFrom? (ctx : Ctx) (index : Nat) : Nat → Option Nat
  | 0 => none
  | count + 1 =>
    match ctx.opens[index]? with
    | some o => if o.kind.isLoop then some index else ctx.loopFrom? (index + 1) count
    | none => none

/-- Position of the statement that a break leaves. -/
def breakTarget? (ctx : Ctx) : Option String → Option Nat
  | none => ctx.findBelow? (fun o => o.kind.isLoop || o.kind = .switch) ctx.opens.length
  | some label => ctx.findBelow? (fun o => o.kind = .label && o.label = some label) ctx.opens.length

/-- Position of the loop that a continue restarts. -/
def continueTarget? (ctx : Ctx) : Option String → Option Nat
  | none => ctx.findBelow? (fun o => o.kind.isLoop) ctx.opens.length
  | some label => do
    let index ← ctx.breakTarget? (some label)
    ctx.loopFrom? (index + 1) (ctx.opens.length - (index + 1))

/-- The slot of a name in the innermost of some statements that binds it, innermost first. A with
statement hides all names around it. -/
def slotIn? (name : String) : List Open → Option Nat
  | [] => none
  | o :: outer =>
    if o.kind = .withObject then none
    else
      match o.scope with
      | none => slotIn? name outer
      | some scope =>
        match scope.names.idxOf? name with
        | some index => some (scope.depth + index)
        | none => slotIn? name outer

/-- The slot that a name stands for, if it is bound by a statement around. -/
def slot? (ctx : Ctx) (name : String) : Option Nat := slotIn? name ctx.opens.reverse

end Ctx

/-! ## Actions -/

/-- How the model of the stack goes on behind an instruction. -/
inductive Next where
  /-- With what the instruction leaves. -/
  | flow
  /-- With the stack at a label. -/
  | back (label : Nat)
  /-- With one value less than the instruction leaves. -/
  | drop
  deriving DecidableEq

/-- One step of what a construct becomes. -/
inductive Action where
  /-- An instruction with its operand bytes. -/
  | op (op : Opcode) (bytes : List UInt8) (next : Next)
  /-- An instruction whose operand is a literal. -/
  | literal (op : Opcode) (literal : Literal)
  /-- An access to a name: by `slot` if it is bound around, in statements opened here included, or
  else by `named`. -/
  | access (openings : List Opening) (slot : Opcode) (named : Option Opcode) (name : String)
  /-- A jump to a label. -/
  | jump (op : Opcode) (label : Nat) (next : Next)
  /-- A jump out to a known cell. -/
  | exit (op : Opcode) (target : Nat) (next : Next)
  /-- A switch over the keys from `low` to `high`. -/
  | table (low high : Int) (fallback : Nat) (arms : List (Option Nat))
  /-- A switch over literals. -/
  | lookup (fallback : Nat) (pairs : List (Literal × Nat))
  /-- A function as a value. -/
  | lambda (f : Function) (line : UInt32)
  /-- A child, within statements opened here. -/
  | child (openings : List Opening) (id : NodeId)
  /-- A label. -/
  | here (label : Nat)
  /-- A hoisted variable. -/
  | declare (name : String)
  /-- A hoisted function. -/
  | define (f : Function) (line : UInt32)
  /-- A protected region whose depth is that at the label `depth`. -/
  | region (kind : RegionKind) (depth start stop : Nat)

end ScriptCompiler
