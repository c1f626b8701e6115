import ScriptCompiler.Proofs.Lowering.Constructs

/-!
# Code that is what its tree says

A run of actions goes through the cells of a program: each action finds its
cell in the next place, and a child is the run of its own actions. The labels
of a list of actions stand for marks, the same ones wherever they are used, so
a jump leads to where its label is passed. How nodes are visited and what
nested functions become is left to a parameter, which is closed by the nesting
depth at the end.
-/

namespace ScriptCompiler

open Bytes

variable {acts more : List Action} {x z : Mark}

/-- What is known of the parts of a unit that are emitted by themselves. -/
structure Parts where
  /-- A function on a line has become a script. -/
  function : Function → UInt32 → Script → Prop
  /-- A visit of a node, in a function or not, has led from one mark to another. -/
  node : Bool → NodeId → Mark → Mark → Prop

/-- The stack with which the model goes on, after an instruction that leaves `out`. -/
def Next.frame (lab : Nat → Mark) (out : Frame) : Next → Frame
  | flow => out
  | back label => ⟨StackDepth.after (lab label).frame.depth 0 0⟩
  | drop => ⟨out.depth - 1⟩

/-- The model goes on behind a cell at a mark. -/
structure Step (P : Program) (lab : Nat → Mark) (x : Mark) (c : Cell Nat) (next : Next)
    (y : Mark) : Prop where
  /-- The cell is in place. -/
  stands : P.At x.pos c
  /-- The next cell follows. -/
  pos : y.pos = x.pos + 1
  /-- No region is closed. -/
  closed : y.closed = x.closed
  /-- The stack there. -/
  frame : y.frame = next.frame lab c.out
  /-- The model goes on elsewhere only where control does not go on. -/
  flows : next = .flow ∨ c.op.fallsThrough = false
  /-- The cell finds what it pops. -/
  quiet : x.quiet → c.uses ≤ x.frame.depth →
    (∀ label, next = .back label → c.uses ≤ (lab label).frame.depth) → y.quiet
  /-- The frame is large enough in front of the cell. -/
  before : x.frame.depth.toNat ≤ P.high
  /-- The frame is large enough behind the cell. -/
  behind : y.frame.depth.toNat ≤ P.high

/-- A literal index as an operand. -/
def Program.Literal (P : Program) (index : Nat) (literal : Literal) : Prop :=
  index < 65536 ∧ P.literals[index]? = some literal

/-- The instructions that an action may stand for at a mark. -/
def Action.Is (P : Program) (ps : Parts) (ctx : Ctx) (lab : Nat → Mark) (x : Mark) :
    Action → Cell Nat → Next → Prop
  | .op code bytes next, c, n => n = next ∧ c = .plain code bytes x.frame
  | .literal code value, c, n => n = .flow ∧
      ∃ i, P.Literal i value ∧ c = .plain code (le16 i).toList x.frame
  | .access openings slot named name, c, n => n = .flow ∧
      match (ctx.enter lab openings).slot? name with
      | some i => i < 65536 ∧ c = .plain slot (le16 i).toList x.frame
      | none => ∃ code i, named = some code ∧ P.Literal i (.string name) ∧
          c = .plain code (le16 i).toList x.frame
  | .jump code label next, c, n => n = next ∧ c = .jump code (lab label).pos x.frame
  | .exit code target next, c, n => n = next ∧ c = .jump code target x.frame
  | .table low high fallback arms, c, n => n = .flow ∧
      c = .table low high ((lab fallback).pos ::
        arms.map fun arm => (arm.map fun label => (lab label).pos).getD x.pos) x.frame
  | .lookup fallback pairs, c, n => n = .flow ∧
      ∃ literals, List.Forall₂ (fun i (pair : Literal × Nat) => P.Literal i pair.1) literals pairs ∧
        c = .lookup literals ((lab fallback).pos :: pairs.map fun pair => (lab pair.2).pos) x.frame
  | .lambda f line, c, n => n = .flow ∧
      ∃ i script, i < 65536 ∧ P.functions[i]? = some script ∧ ps.function f line script ∧
        c = .plain .lambda (le16 i).toList x.frame
  | _, _, _ => False

/-- Whether an action stands for one instruction. -/
def Action.instructs : Action → Bool
  | .child .. | .here _ | .declare _ | .define .. | .region .. => false
  | _ => true

/-- A mark after a hoisted declaration: the model counts it as an instruction without effect. -/
def Mark.hoisted (x : Mark) : Mark :=
  { x with frame := ⟨StackDepth.after x.frame.depth 0 0⟩, quiet := x.quiet ∧ 0 ≤ x.frame.depth }

/-- A mark after one more region has been closed. -/
def Mark.guarded (x : Mark) : Mark := { x with closed := x.closed + 1 }

/-- A run of actions from one mark to another. -/
inductive Run (t : Tree) (P : Program) (ps : Parts) :
    Ctx → (Nat → Mark) → List Action → Mark → Mark → Prop
  | nil {ctx : Ctx} {lab : Nat → Mark} (x : Mark) : Run t P ps ctx lab [] x x
  /-- An instruction. -/
  | emit {ctx : Ctx} {lab : Nat → Mark} {act : Action} {acts : List Action} {x y z : Mark}
      {c : Cell Nat} {next : Next} (his : act.Is P ps ctx lab x c next)
      (hstep : Step P lab x c next y) (hrest : Run t P ps ctx lab acts y z) :
      Run t P ps ctx lab (act :: acts) x z
  /-- A child with actions and labels of its own. -/
  | child {ctx : Ctx} {lab lab' : Nat → Mark} {openings : List Opening} {id : NodeId} {node : Node}
      {plan : SwitchPlan} {inner acts : List Action} {x y z : Mark} (hnode : t.get? id = some node)
      (hvisit : ps.node ctx.inFunction id x y)
      (hinner : Lowering.node t (ctx.enter lab openings) plan node = some inner)
      (hrun : Run t P ps (ctx.enter lab openings) lab' inner x y)
      (hrest : Run t P ps ctx lab acts y z) :
      Run t P ps ctx lab (.child openings id :: acts) x z
  /-- A label is passed. -/
  | here {ctx : Ctx} {lab : Nat → Mark} {label : Nat} {acts : List Action} {x z : Mark}
      (hlabel : lab label = x) (hrest : Run t P ps ctx lab acts x z) :
      Run t P ps ctx lab (.here label :: acts) x z
  /-- A hoisted variable. -/
  | declare {ctx : Ctx} {lab : Nat → Mark} {name : String} {acts : List Action} {x z : Mark}
      {i : Nat} (hliteral : P.Literal i (.string name))
      (hmem : .plain .defVar (le16 i).toList ⟨0⟩ ∈ P.prolog)
      (hrest : Run t P ps ctx lab acts x.hoisted z) :
      Run t P ps ctx lab (.declare name :: acts) x z
  /-- A hoisted function. -/
  | define {ctx : Ctx} {lab : Nat → Mark} {f : Function} {line : UInt32} {acts : List Action}
      {x z : Mark} {i : Nat} {script : Script} (hi : i < 65536)
      (hfunction : P.functions[i]? = some script) (hscript : ps.function f line script)
      (hmem : .plain .defFun (le16 i).toList ⟨0⟩ ∈ P.prolog)
      (hrest : Run t P ps ctx lab acts x.hoisted z) :
      Run t P ps ctx lab (.define f line :: acts) x z
  /-- A protected region. -/
  | region {ctx : Ctx} {lab : Nat → Mark} {kind : RegionKind} {depth start stop : Nat}
      {acts : List Action} {x z : Mark} {n : Nat} (hdepth : (lab depth).frame.depth = n)
      (hregion : P.regions[x.closed]? = some ⟨kind, n, (lab start).pos, (lab stop).pos⟩)
      (hrest : Run t P ps ctx lab acts x.guarded z) :
      Run t P ps ctx lab (.region kind depth start stop :: acts) x z

namespace Run

variable {t : Tree} {P : Program} {ps : Parts} {ctx : Ctx} {lab : Nat → Mark}

theorem append {y : Mark} (h : Run t P ps ctx lab acts x y) (hmore : Run t P ps ctx lab more y z) :
    Run t P ps ctx lab (acts ++ more) x z := by
  induction h with
  | nil x => exact hmore
  | emit his hstep _ ih => exact .emit his hstep (ih hmore)
  | child hnode hvisit hinner hrun _ _ ih => exact .child hnode hvisit hinner hrun (ih hmore)
  | here hlabel _ ih => exact .here hlabel (ih hmore)
  | declare hliteral hmem _ ih => exact .declare hliteral hmem (ih hmore)
  | define hi hfunction hscript hmem _ ih => exact .define hi hfunction hscript hmem (ih hmore)
  | region hdepth hregion _ ih => exact .region hdepth hregion (ih hmore)

/-- A run of two lists of actions has a mark between them. -/
theorem of_append (h : Run t P ps ctx lab (acts ++ more) x z) :
    ∃ y, Run t P ps ctx lab acts x y ∧ Run t P ps ctx lab more y z := by
  induction acts generalizing x with
  | nil => exact ⟨x, .nil x, h⟩
  | cons act acts ih =>
    rw [List.cons_append] at h
    cases h with
    | emit his hstep hrest =>
      obtain ⟨y, hacts, hmore⟩ := ih hrest
      exact ⟨y, .emit his hstep hacts, hmore⟩
    | child hnode hvisit hinner hrun hrest =>
      obtain ⟨y, hacts, hmore⟩ := ih hrest
      exact ⟨y, .child hnode hvisit hinner hrun hacts, hmore⟩
    | here hlabel hrest =>
      obtain ⟨y, hacts, hmore⟩ := ih hrest
      exact ⟨y, .here hlabel hacts, hmore⟩
    | declare hliteral hmem hrest =>
      obtain ⟨y, hacts, hmore⟩ := ih hrest
      exact ⟨y, .declare hliteral hmem hacts, hmore⟩
    | define hi hfunction hscript hmem hrest =>
      obtain ⟨y, hacts, hmore⟩ := ih hrest
      exact ⟨y, .define hi hfunction hscript hmem hacts, hmore⟩
    | region hdepth hregion hrest =>
      obtain ⟨y, hacts, hmore⟩ := ih hrest
      exact ⟨y, .region hdepth hregion hacts, hmore⟩

theorem eq_of_nil (h : Run t P ps ctx lab [] x z) : x = z := by
  cases h
  rfl

/-- Instructions take one cell each. -/
theorem length (h : Run t P ps ctx lab acts x z) (hacts : ∀ act ∈ acts, act.instructs) :
    z.pos = x.pos + acts.length := by
  induction h with
  | nil x => rfl
  | emit his hstep _ ih =>
    rw [ih fun act hmem => hacts act (List.mem_cons_of_mem _ hmem), hstep.pos, List.length_cons]
    omega
  | child | here | declare | define | region =>
    exact absurd (hacts _ (List.mem_cons_self ..)) (by simp [Action.instructs])

/-- Instructions close no regions. -/
theorem closed_eq (h : Run t P ps ctx lab acts x z) (hacts : ∀ act ∈ acts, act.instructs) :
    z.closed = x.closed := by
  induction h with
  | nil x => rfl
  | emit his hstep _ ih =>
    exact (ih fun act hmem => hacts act (List.mem_cons_of_mem _ hmem)).trans hstep.closed
  | child | here | declare | define | region =>
    exact absurd (hacts _ (List.mem_cons_self ..)) (by simp [Action.instructs])

end Run

end ScriptCompiler
