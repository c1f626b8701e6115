import ScriptCompiler.Proofs.Walk.Blocks
import ScriptCompiler.Proofs.Walk.Exits
import ScriptCompiler.Proofs.Walk.Expressions
import ScriptCompiler.Proofs.Walk.Functions
import ScriptCompiler.Proofs.Walk.Loops
import ScriptCompiler.Proofs.Walk.Statements
import ScriptCompiler.Proofs.Walk.Switch
import ScriptCompiler.Proofs.Walk.Trying

/-!
# Nodes emit what they are lowered to

All constructs are put together here: a node of any kind emits what its lowering
describes, provided that its children do. The nesting levels left bound the
recursion, so the same holds of visits.
-/

namespace ScriptCompiler

open Bytes Emit

variable {w : Walk} {ps : Parts} {g g' : Generator} {a : Draft}
  {id : NodeId} {node : Node}

section

variable (hvisits : Visits w.tree ps w.visit) (hnests : Nests w ps)

include hvisits hnests

/-- An expression node. -/
theorem Visits.expression (h : Drafted g a) (hnested : a.nested = nestedIn ps)
    (hget : w.tree.get? id = some node) (hok : w.expression node g = .ok () g') :
    Lowers w ps node a g' := by
  rw [Walk.expression] at hok
  have hnode : ∀ {acts : List Action} {kind : NodeKind}, node.kind = kind →
      (∀ ctx : Ctx, Lowering.node w.tree ctx .conditional { node with kind } = some acts) →
      ∀ ctx : Ctx, ctx.inFunction = w.inFunction →
        Lowering.node w.tree ctx .conditional node = some acts := by
    rintro acts kind rfl hacts ctx -
    exact hacts ctx
  cases hkind : node.kind with rw [hkind] at hok
  | undefined =>
    exact (h.op hok (by decide)).lowers (hnode hkind fun _ => rfl)
  | null =>
    exact (h.op hok (by decide)).lowers (hnode hkind fun _ => rfl)
  | bool value =>
    cases value with
    | true => exact (h.op hok (by decide)).lowers (hnode hkind fun _ => rfl)
    | false => exact (h.op hok (by decide)).lowers (hnode hkind fun _ => rfl)
  | number value =>
    exact (h.number hok).lowers (hnode hkind fun _ => rfl)
  | string value =>
    exact (h.emits_literalOp hok rfl rfl rfl).lowers (hnode hkind fun _ => rfl)
  | name name =>
    exact (h.nameValue hok).lowers (hnode hkind fun _ => rfl)
  | member object property =>
    simp only [bind_ok] at hok
    obtain ⟨_, g₁, hobject, hproperty⟩ := hok
    obtain ⟨a₁, h₁, hleads₁⟩ := hvisits.child [] h hnested hobject
    obtain ⟨a₂, h₂, hleads₂⟩ := h₁.emits_literalOp (r := w.setting ps []) hproperty rfl rfl rfl
    exact Reaches.lowers ⟨a₂, h₂, hleads₁.append hleads₂⟩ (hnode hkind fun _ => rfl)
  | index object key =>
    simp only [bind_ok] at hok
    obtain ⟨_, g₁, hobject, _, g₂, hkey, hop⟩ := hok
    obtain ⟨a₁, h₁, hleads₁⟩ := hvisits.child [] h hnested hobject
    obtain ⟨a₂, h₂, hleads₂⟩ := hvisits.child [] h₁ (hleads₁.grown.nested.trans hnested) hkey
    obtain ⟨a₃, h₃, hleads₃⟩ := h₂.op (r := w.setting ps []) hop (by decide)
    exact Reaches.lowers ⟨a₃, h₃, (hleads₁.append hleads₂).append hleads₃⟩ (hnode hkind fun _ => rfl)
  | assign binary target value =>
    obtain ⟨acts, hacts, hreaches⟩ := hvisits.assign h hnested hok
    exact hreaches.lowers (hnode hkind fun _ => hacts)
  | unary operator operand =>
    simp only [bind_ok] at hok
    obtain ⟨_, g₁, hoperand, hop⟩ := hok
    obtain ⟨a₁, h₁, hleads₁⟩ := hvisits.child [] h hnested hoperand
    obtain ⟨a₂, h₂, hleads₂⟩ := h₁.op (r := w.setting ps []) hop operator.simple
    exact Reaches.lowers ⟨a₂, h₂, hleads₁.append hleads₂⟩ (hnode hkind fun _ => rfl)
  | binary operator left right =>
    simp only [bind_ok] at hok
    obtain ⟨_, g₁, hleft, _, g₂, hright, hop⟩ := hok
    obtain ⟨a₁, h₁, hleads₁⟩ := hvisits.child [] h hnested hleft
    obtain ⟨a₂, h₂, hleads₂⟩ := hvisits.child [] h₁ (hleads₁.grown.nested.trans hnested) hright
    obtain ⟨a₃, h₃, hleads₃⟩ := h₂.op (r := w.setting ps []) hop operator.simple
    exact Reaches.lowers ⟨a₃, h₃, (hleads₁.append hleads₂).append hleads₃⟩ (hnode hkind fun _ => rfl)
  | logical operator operands =>
    exact hvisits.logical h hnested hkind hok
  | conditional test consequent alternative =>
    exact hvisits.conditional h hnested hkind hok
  | call callee args =>
    obtain ⟨hlength, hreaches⟩ := hvisits.call h hnested (by decide) hok
    exact hreaches.lowers (hnode hkind fun _ => if_pos hlength)
  | new callee args =>
    obtain ⟨hlength, hreaches⟩ := hvisits.call h hnested (by decide) hok
    exact hreaches.lowers (hnode hkind fun _ => if_pos hlength)
  | function f =>
    simp only [bind_ok] at hok
    obtain ⟨i, g₁, hfunction, hop⟩ := hok
    exact (hnests.lambda h hnested ⟨_, _, hget, .inr hkind⟩ hfunction hop).lowers (hnode hkind fun _ => rfl)
  | comma values =>
    exact (hvisits.comma h hnested hok).lowers (hnode hkind fun _ => rfl)
  | _ =>
    cases hok

/-- A node of any kind. -/
theorem Visits.statement (h : Drafted g a) (hnested : a.nested = nestedIn ps)
    (hget : w.tree.get? id = some node) (hok : w.statement node g = .ok () g') :
    Lowers w ps node a g' := by
  rw [Walk.statement] at hok
  cases hkind : node.kind with rw [hkind] at hok
  | empty =>
    obtain ⟨-, rfl⟩ := pure_ok.mp hok
    refine Reaches.lowers ⟨a, h, .nil a⟩ fun ctx _ => ?_
    rw [Lowering.node, hkind]
  | block body =>
    simp only [bind_ok] at hok
    obtain ⟨top, g₁, htop, i, g₂, hpush, _, g₃, hbody, hpop⟩ := hok
    exact hvisits.block h hnested hkind htop hpush hbody hpop
  | expression value =>
    simp only [bind_ok] at hok
    obtain ⟨_, g₁, hvalue, hop⟩ := hok
    have hsimple : (if w.inFunction then Opcode.pop else .setRval).Simple 0 := by
      cases w.inFunction <;> decide
    refine (hvisits.expressionStatement h hnested hvalue hop hsimple).lowers fun ctx hin => ?_
    rw [Lowering.node, hkind, hin]
  | var bindings =>
    refine (hvisits.var h hnested hok).lowers fun ctx _ => ?_
    rw [Lowering.node, hkind]
  | ifElse test consequent alternative =>
    exact hvisits.ifElse h hnested hkind hok
  | whileLoop test body =>
    exact hvisits.whileLoop h hnested hkind hok
  | doWhile body test =>
    exact hvisits.doWhile h hnested hkind hok
  | forLoop init test update body =>
    exact hvisits.forLoop h hnested hkind hok
  | forIn declared target object body =>
    exact hvisits.forIn h hnested hkind hok
  | switch discriminant clauses =>
    exact hvisits.switch h hnested hkind hok
  | labeled label body =>
    exact hvisits.labeled h hnested hkind hok
  | breakTo label =>
    exact h.breakTo hkind hok
  | continueTo label =>
    exact h.continueTo hkind hok
  | returnValue value =>
    exact hvisits.returnValue h hnested hkind hok
  | throwValue value =>
    simp only [bind_ok] at hok
    obtain ⟨_, g₁, hvalue, hop⟩ := hok
    refine (hvisits.expressionStatement h hnested hvalue hop (by decide)).lowers fun ctx _ => ?_
    rw [Lowering.node, hkind]
  | tryBlock body handler finalizer =>
    exact hvisits.tryBlock h hnested hkind hok
  | withObject object body =>
    exact hvisits.withObject h hnested hkind hok
  | letBlock bindings body =>
    exact hvisits.letBlock h hnested hkind hok
  | functionDecl f =>
    refine (hnests.functionDecl h hnested ⟨_, _, hget, .inl hkind⟩ hok).lowers fun ctx _ => ?_
    rw [Lowering.node, hkind]
  | _ =>
    exact hvisits.expression hnests h hnested hget hok

/-- A node by its number. -/
theorem Visits.emitNode (h : Drafted g a) (hnested : a.nested = nestedIn ps)
    (hok : w.emitNode id g = .ok () g') :
    ∃ node, w.tree.get? id = some node ∧ Lowers w ps node a g' := by
  simp only [Walk.emitNode, bind_ok] at hok
  obtain ⟨node, _, hnode, hok⟩ := hok
  obtain ⟨hget, rfl⟩ := node_ok hnode
  obtain ⟨g₁, h₁, hstatement⟩ : ∃ g₁, Drafted g₁ a ∧ w.statement node g₁ = .ok () g' := by
    split at hok
    · simp only [bind_ok] at hok
      obtain ⟨_, g₁, hline, hstatement⟩ := hok
      exact ⟨g₁, h.noted (updateLine_noted hline), hstatement⟩
    · exact ⟨_, h, hok⟩
  exact ⟨node, hget, hvisits.statement hnests h₁ hnested hget hstatement⟩

end

theorem nested_ok {α : Type} {step : Emit α} {x : α} (hok : Emit.nested step g = .ok x g') :
    ∃ g₁, step { g with level := g.level + 1 } = .ok x g₁ ∧
      g' = { g₁ with level := g₁.level - 1 } := by
  rw [Emit.nested] at hok
  split at hok
  · cases hok
  · rename_i g₀ henter
    have hg₀ : g₀ = { g with level := g.level + 1 } := by
      simp only [enterLevel, get_bind, lift_bind_ok, modify_ok] at henter
      obtain ⟨_, -, h⟩ := henter
      exact h.symm
    rw [hg₀] at hok
    split at hok
    · rename_i y g₁ hstep
      cases hok
      exact ⟨g₁, hstep, rfl⟩
    · cases hok

/-- Visits with any number of nesting levels left, once nested functions are what they are known to
be. -/
theorem visits_visit {tree : Tree} (hnests : ∀ {levels : Nat} {inFunction : Bool},
    Visits tree ps (visit tree levels) → Nests ⟨tree, inFunction, visit tree levels⟩ ps)
    (hnodes : ∀ {levels : Nat} {inFunction : Bool} {id : NodeId} {g g' : Generator} {a a' : Draft},
      Drafted g a → Drafted g' a' → visit tree levels inFunction id g = .ok () g' →
      ps.node inFunction id a.mark a'.mark) (levels : Nat) : Visits tree ps (visit tree levels) := by
  induction levels with
  | zero =>
    intro inFunction id g g' a openings h hnested hok
    simp only [visit, bind_ok] at hok
    obtain ⟨_, _, -, hthrow⟩ := hok
    cases hthrow
  | succ levels ih =>
    intro inFunction id g g' a openings h hnested hok
    obtain ⟨g₁, hstep, hg'⟩ := nested_ok hok
    obtain ⟨node, hget, a', h', hfollows, hopens, hrun⟩ := Visits.emitNode
      (w := ⟨tree, inFunction, visit tree levels⟩) ih (hnests ih) (h.withLevel _) hnested hstep
    have h' : Drafted g' a' := hg' ▸ h'.withLevel _
    refine ⟨a', h', hfollows, hopens, fun {fill P n ctx lab} hn hfills hin hplaced => ?_⟩
    obtain ⟨plan, acts, lab', hacts, hrun⟩ : ∃ plan acts lab',
        Lowering.node tree (ctx.enter lab openings) plan node = some acts ∧
          Run tree P ps (ctx.enter lab openings) lab' acts a.mark a'.mark :=
      hrun hn hfills hin hplaced
    exact .child hget (hin ▸ hnodes h h' hok) hacts hrun (.nil _)

end ScriptCompiler
