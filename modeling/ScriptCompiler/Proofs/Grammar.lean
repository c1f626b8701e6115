import ScriptCompiler.Tree

/-!
# Trees that follow the grammar

The numbers of its nodes alone do not make a tree a script: a loop may be given
a statement for its test. A tree is well formed if each position of each of its
nodes holds what the grammar has there. Numbers that stand for no node are not
looked at, since no code comes out for them.
-/

namespace ScriptCompiler

namespace NodeKind

/-- Whether a node is an expression. -/
def isExpression (kind : NodeKind) : Bool := !kind.isStatement

/-- Whether a node may be the initial part of a for loop. -/
def isInit : NodeKind → Bool
  | var _ => true
  | kind => kind.isExpression

/-- Whether a node may be the target of a for-in loop. -/
def isName : NodeKind → Bool
  | name _ => true
  | _ => false

/-- Whether a node may be assigned to. -/
def isTarget : NodeKind → Bool
  | name _ | member .. | index .. => true
  | _ => false

/-- The children in the positions of statements. -/
def statements : NodeKind → List NodeId
  | block body | letBlock _ body => body
  | ifElse _ consequent alternative => consequent :: alternative.toList
  | whileLoop _ body | doWhile body _ | forLoop _ _ _ body | forIn _ _ _ body => [body]
  | switch _ clauses => clauses.flatMap Case.body
  | labeled _ body | withObject _ body => [body]
  | tryBlock body handler finalizer =>
    body ++ (handler.map CatchClause.body).getD [] ++ finalizer.getD []
  | functionDecl f | function f => f.body
  | _ => []

/-- The children in the positions of expressions. -/
def expressions : NodeKind → List NodeId
  | expression value | throwValue value | unary _ value => [value]
  | var bindings | letBlock bindings _ => bindings.filterMap Binding.init
  | ifElse test _ _ | whileLoop test _ | doWhile _ test => [test]
  | forLoop _ test update _ => test.toList ++ update.toList
  | forIn _ _ object _ | withObject object _ | member object _ => [object]
  | switch discriminant clauses => discriminant :: clauses.filterMap Case.test
  | returnValue value => value.toList
  | index object key => [object, key]
  | assign _ _ value => [value]
  | binary _ left right => [left, right]
  | conditional test consequent alternative => [test, consequent, alternative]
  | call callee args | new callee args => callee :: args
  | logical _ values | comma values => values
  | _ => []

end NodeKind

namespace Tree

/-- What a number stands for, if it stands for a node, satisfies `p`. -/
def holds (t : Tree) (p : NodeKind → Bool) (id : NodeId) : Bool :=
  (t.get? id).all fun node => p node.kind

/-- Whether the positions of a node hold what the grammar has there. -/
def fits (t : Tree) (kind : NodeKind) : Bool :=
  kind.statements.all (t.holds NodeKind.isStatement) &&
    kind.expressions.all (t.holds NodeKind.isExpression) &&
    match kind with
    | .forLoop init _ _ _ => init.all (t.holds NodeKind.isInit)
    | .forIn _ target _ _ => t.holds NodeKind.isName target
    | .assign _ target _ => t.holds NodeKind.isTarget target
    | _ => true

/-- Whether all positions of a tree hold what the grammar has there. -/
def wellFormed (t : Tree) : Bool :=
  t.body.all (t.holds NodeKind.isStatement) && t.nodes.all fun node => t.fits node.kind

variable {t : Tree} {id : NodeId} {node : Node}

variable (h : t.wellFormed) (hnode : t.get? id = some node)

include h hnode

theorem wellFormed_fits : t.fits node.kind := by
  rw [wellFormed, Bool.and_eq_true, Array.all_eq_true_iff_forall_mem] at h
  exact h.2 node (Array.mem_of_getElem? hnode)

/-- What stands in the position of a statement is one. -/
theorem isStatement_of_mem {child : NodeId} (hmem : child ∈ node.kind.statements) :
    t.holds NodeKind.isStatement child := by
  have hfits := wellFormed_fits h hnode
  simp only [fits, Bool.and_eq_true, List.all_eq_true] at hfits
  exact hfits.1.1 child hmem

/-- What stands in the position of an expression is one. -/
theorem isExpression_of_mem {child : NodeId} (hmem : child ∈ node.kind.expressions) :
    t.holds NodeKind.isExpression child := by
  have hfits := wellFormed_fits h hnode
  simp only [fits, Bool.and_eq_true, List.all_eq_true] at hfits
  exact hfits.1.2 child hmem

end Tree

end ScriptCompiler
