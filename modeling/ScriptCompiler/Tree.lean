import ScriptCompiler.Binary64
import ScriptCompiler.Opcode

/-!
# Syntax trees

The nodes of a tree live in one array and refer to one another by number, so a
node may be shared and may even contain itself. Every node records the source
line it starts on. Statements and expressions are nodes alike; a tree is not
required to have each of them only where the language would allow it.
-/

namespace ScriptCompiler

/-- The number of a node. -/
structure NodeId where
  /-- Position in the node array. -/
  index : Nat
  deriving DecidableEq, Repr

/-- Operators that evaluate both operands. -/
inductive BinaryOp where
  | add
  | sub
  | mul
  | div
  | mod
  | bitOr
  | bitXor
  | bitAnd
  | lsh
  | rsh
  | ursh
  | eq
  | ne
  | strictEq
  | strictNe
  | lt
  | le
  | gt
  | ge
  | inObject
  | instanceOf
  deriving DecidableEq, Repr

namespace BinaryOp

/-- The operator as written in source text. -/
def text : BinaryOp → String
  | add => "+"
  | sub => "-"
  | mul => "*"
  | div => "/"
  | mod => "%"
  | bitOr => "|"
  | bitXor => "^"
  | bitAnd => "&"
  | lsh => "<<"
  | rsh => ">>"
  | ursh => ">>>"
  | eq => "=="
  | ne => "!="
  | strictEq => "==="
  | strictNe => "!=="
  | lt => "<"
  | le => "<="
  | gt => ">"
  | ge => ">="
  | inObject => "in"
  | instanceOf => "instanceof"

/-- The instruction that applies the operator. -/
def opcode : BinaryOp → Opcode
  | add => .add
  | sub => .sub
  | mul => .mul
  | div => .div
  | mod => .mod
  | bitOr => .bitOr
  | bitXor => .bitXor
  | bitAnd => .bitAnd
  | lsh => .lsh
  | rsh => .rsh
  | ursh => .ursh
  | eq => .eq
  | ne => .ne
  | strictEq => .strictEq
  | strictNe => .strictNe
  | lt => .lt
  | le => .le
  | gt => .gt
  | ge => .ge
  | inObject => .inObject
  | instanceOf => .instanceOf

end BinaryOp

/-- Operators with one operand. -/
inductive UnaryOp where
  | not
  | bitNot
  | neg
  | pos
  | typeOf
  | void
  deriving DecidableEq, Repr

namespace UnaryOp

/-- The operator as written in source text. -/
def text : UnaryOp → String
  | not => "!"
  | bitNot => "~"
  | neg => "-"
  | pos => "+"
  | typeOf => "typeof"
  | void => "void"

/-- The instruction that applies the operator. -/
def opcode : UnaryOp → Opcode
  | not => .not
  | bitNot => .bitNot
  | neg => .neg
  | pos => .pos
  | typeOf => .typeOf
  | void => .void

end UnaryOp

/-- Operators that may leave their later operands unevaluated. -/
inductive LogicalOp where
  | and
  | or
  deriving DecidableEq, Repr

namespace LogicalOp

/-- The operator as written in source text. -/
def text : LogicalOp → String
  | and => "&&"
  | or => "||"

/-- The jump that skips the later operands. -/
def opcode : LogicalOp → Opcode
  | and => .and
  | or => .or

end LogicalOp

/-- A declared name with its initial value. -/
structure Binding where
  /-- The name. -/
  name : String
  /-- Its initial value. -/
  init : Option NodeId
  deriving DecidableEq, Repr

/-- A clause of a switch. -/
structure Case where
  /-- What selects the clause; absent for the default clause. -/
  test : Option NodeId
  /-- Its statements. -/
  body : List NodeId
  deriving DecidableEq, Repr

/-- The catch part of a try statement. -/
structure CatchClause where
  /-- Name of the caught value. -/
  param : String
  /-- Its statements. -/
  body : List NodeId
  deriving DecidableEq, Repr

/-- A function, declared or as a value. -/
structure Function where
  /-- Its name, if it has one. -/
  name : Option String
  /-- Names of the parameters, bound by the caller. -/
  params : List String
  /-- Its statements. -/
  body : List NodeId
  deriving DecidableEq, Repr

/-- What a node is. Statements come first, then expressions. -/
inductive NodeKind where
  | empty
  | block (body : List NodeId)
  | expression (value : NodeId)
  | var (bindings : List Binding)
  | ifElse (test consequent : NodeId) (alternative : Option NodeId)
  | whileLoop (test body : NodeId)
  | doWhile (body test : NodeId)
  | forLoop (init test update : Option NodeId) (body : NodeId)
  /-- A loop over the keys of an object; `declare` hoists a declaration of the target. -/
  | forIn (declare : Bool) (target object body : NodeId)
  | switch (discriminant : NodeId) (cases : List Case)
  | labeled (label : String) (body : NodeId)
  | breakTo (label : Option String)
  | continueTo (label : Option String)
  | returnValue (value : Option NodeId)
  | throwValue (value : NodeId)
  | tryBlock (body : List NodeId) (handler : Option CatchClause) (finalizer : Option (List NodeId))
  | withObject (object body : NodeId)
  /-- A block whose names live in stack slots. -/
  | letBlock (bindings : List Binding) (body : List NodeId)
  | functionDecl (function : Function)
  | undefined
  | null
  | bool (value : Bool)
  | number (value : Binary64)
  | string (value : String)
  | name (name : String)
  | member (object : NodeId) (property : String)
  | index (object key : NodeId)
  /-- An assignment, through an operator if there is one. -/
  | assign (op : Option BinaryOp) (target value : NodeId)
  | unary (op : UnaryOp) (operand : NodeId)
  | binary (op : BinaryOp) (left right : NodeId)
  /-- A flat chain of one short-circuit operator. -/
  | logical (op : LogicalOp) (operands : List NodeId)
  | conditional (test consequent alternative : NodeId)
  | call (callee : NodeId) (args : List NodeId)
  | new (callee : NodeId) (args : List NodeId)
  | function (function : Function)
  | comma (values : List NodeId)
  deriving DecidableEq, Repr

namespace NodeKind

/-- Whether a node is a statement. -/
def isStatement : NodeKind → Bool
  | empty | block _ | expression _ | var _ | ifElse .. | whileLoop .. | doWhile .. | forLoop ..
  | forIn .. | switch .. | labeled .. | breakTo _ | continueTo _ | returnValue _ | throwValue _
  | tryBlock .. | withObject .. | letBlock .. | functionDecl _ => true
  | _ => false

end NodeKind

/-- A node with the line it starts on. -/
structure Node where
  /-- What it is. -/
  kind : NodeKind
  /-- Source line it starts on. -/
  line : UInt32
  deriving DecidableEq, Repr

/-- The nodes of a script with its top-level statements. -/
structure Tree where
  /-- All nodes. -/
  nodes : Array Node
  /-- The top-level statements. -/
  body : List NodeId
  deriving DecidableEq, Repr

namespace Tree

/-- The tree without nodes. -/
def empty : Tree := ⟨#[], []⟩

/-- The node with a number. -/
def get? (t : Tree) (id : NodeId) : Option Node := t.nodes[id.index]?

/-- Add a node; answers its number. -/
def add (t : Tree) (kind : NodeKind) (line : UInt32) : Tree × NodeId :=
  let id : NodeId := ⟨t.nodes.size⟩
  ({ t with nodes := t.nodes.push ⟨kind, line⟩ }, id)

end Tree

end ScriptCompiler
