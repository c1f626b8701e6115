/-!
# Kinds of open statements

While a statement is being emitted it stays open, so that jumps out of it can
find it. The kind of an open statement decides which jumps may name it, what
leaving it early has to clean up, and how errors refer to it.
-/

namespace ScriptCompiler

/-- Kind of an open statement. -/
inductive StatementKind where
  | label
  | ifBranch
  | elseBranch
  | switch
  | block
  | withObject
  | catchBlock
  | tryBlock
  /-- A try statement whose finally clause has not been reached yet. -/
  | finallyClause
  /-- The body of a finally clause, running as a subroutine. -/
  | subroutine
  | doLoop
  | forLoop
  | forInLoop
  | whileLoop
  deriving DecidableEq, Repr

namespace StatementKind

/-- The words an error uses for a statement of this kind. -/
def text : StatementKind → String
  | label => "label statement"
  | ifBranch => "if statement"
  | elseBranch => "else statement"
  | switch => "switch statement"
  | block => "block"
  | withObject => "with statement"
  | catchBlock => "catch block"
  | tryBlock => "try block"
  | finallyClause | subroutine => "finally block"
  | doLoop => "do loop"
  | forLoop => "for loop"
  | forInLoop => "for/in loop"
  | whileLoop => "while loop"

/-- Statements a `continue` can restart. -/
def isLoop : StatementKind → Bool
  | doLoop | forLoop | forInLoop | whileLoop => true
  | _ => false

/-- Statements whose pending jumps belong to a finally clause, so that closing
the statement leaves them alone. -/
def isTrying : StatementKind → Bool
  | tryBlock | finallyClause | subroutine => true
  | _ => false

end StatementKind

end ScriptCompiler
