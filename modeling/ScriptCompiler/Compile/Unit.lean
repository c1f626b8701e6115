import ScriptCompiler.Compile.Statements

/-!
# Compiling a script

Every visit of a node takes one nesting level, so the levels left bound the
recursion whether or not the nodes form a tree. The spans of a script are
resolved behind each top-level statement, those of a function when it ends.
-/

namespace ScriptCompiler

/-- Emit a node with `levels` nesting levels left. -/
def visit (tree : Tree) : Nat → Bool → NodeId → Emit Unit
  | 0, _, _ => do
    Emit.enterLevel
    throw (.fault .endless)
  | levels + 1, inFunction, id =>
    Emit.nested (Walk.emitNode ⟨tree, inFunction, visit tree levels⟩ id)

/-- Emit a node with all nesting levels the limits leave. -/
def emitTree (tree : Tree) (inFunction : Bool) (id : NodeId) : Emit Unit := do
  let g ← get
  visit tree (g.limits.depthLimit - g.nestingLevel) inFunction id

/-- Emit top-level statements, resolving the spans behind each of them. -/
def emitBody (tree : Tree) : List NodeId → Emit Unit
  | [] => pure ()
  | id :: ids => do
    emitTree tree false id
    Emit.resolveSpans
    emitBody tree ids

/-- Emit a whole script. -/
def emitScript (tree : Tree) : Emit Script := do
  emitBody tree tree.body
  let _ ← Emit.op .stop
  Emit.finish

/-- Compile the top-level statements of a tree. -/
def compileScript (tree : Tree) (filename : String) (limits : Limits) : Except Error Script :=
  match emitScript tree (Generator.new filename 1 limits) with
  | .ok script _ => .ok script
  | .error e _ => .error e

end ScriptCompiler
