import ScriptCompiler.Exchange.Datum
import ScriptCompiler.Tree

/-!
# Trees as plain data

A tree is given as its array of nodes and the numbers of its top-level
statements, with the line a builder would stamp on the next node. A node kind
is a variant: a bare name, a name with one value, or a name with a record.
Node numbers are not checked here, so a tree may refer to nodes it does not
have.
-/

namespace ScriptCompiler

/-- The names of the binary operators. -/
def BinaryOp.variants : List (String × BinaryOp) := [
  ("Add", .add), ("Sub", .sub), ("Mul", .mul), ("Div", .div), ("Mod", .mod), ("BitOr", .bitOr),
  ("BitXor", .bitXor), ("BitAnd", .bitAnd), ("Lsh", .lsh), ("Rsh", .rsh), ("Ursh", .ursh),
  ("Eq", .eq), ("Ne", .ne), ("StrictEq", .strictEq), ("StrictNe", .strictNe), ("Lt", .lt),
  ("Le", .le), ("Gt", .gt), ("Ge", .ge), ("In", .inObject), ("InstanceOf", .instanceOf)]

/-- The names of the unary operators. -/
def UnaryOp.variants : List (String × UnaryOp) := [
  ("Not", .not), ("BitNot", .bitNot), ("Neg", .neg), ("Pos", .pos), ("TypeOf", .typeOf),
  ("Void", .void)]

/-- The names of the short-circuit operators. -/
def LogicalOp.variants : List (String × LogicalOp) := [("And", .and), ("Or", .or)]

/-- Read a node number. -/
def NodeId.ofDatum? (d : Datum) : Option NodeId := (d.toNat? 4294967296).map NodeId.mk

/-- Read node numbers. -/
def NodeId.listOfDatum? (d : Datum) : Option (List NodeId) := d.toList? NodeId.ofDatum?

/-- Read a node number that may be missing. -/
def NodeId.optionOfDatum? (d : Datum) : Option (Option NodeId) := d.toOption? NodeId.ofDatum?

/-- Read a binding. -/
def Binding.ofDatum? (d : Datum) : Option Binding := do
  let [name, init] ← d.components? ["name", "init"] | none
  return ⟨← name.toText?, ← NodeId.optionOfDatum? init⟩

/-- Read a switch clause. -/
def Case.ofDatum? (d : Datum) : Option Case := do
  let [test, body] ← d.components? ["test", "body"] | none
  return ⟨← NodeId.optionOfDatum? test, ← NodeId.listOfDatum? body⟩

/-- Read a catch clause. -/
def CatchClause.ofDatum? (d : Datum) : Option CatchClause := do
  let [param, body] ← d.components? ["param", "body"] | none
  return ⟨← param.toText?, ← NodeId.listOfDatum? body⟩

/-- Read a function. -/
def Function.ofDatum? (d : Datum) : Option Function := do
  let [name, params, body] ← d.components? ["name", "params", "body"] | none
  return ⟨← name.toOption? Datum.toText?, ← params.toList? Datum.toText?,
    ← NodeId.listOfDatum? body⟩

namespace NodeKind

/-- The kinds without content. -/
def bareVariants : List (String × NodeKind) := [
  ("Empty", .empty), ("Undefined", .undefined), ("Null", .null)]

/-- Read a statement kind that has content. -/
def statementOfDatum? (tag : String) (d : Datum) : Option NodeKind := do
  match tag with
  | "Block" => return .block (← NodeId.listOfDatum? d)
  | "Expr" => return .expression (← NodeId.ofDatum? d)
  | "Var" => return .var (← d.toList? Binding.ofDatum?)
  | "If" =>
    let [test, consequent, alternative] ← d.fields? ["cond", "then", "otherwise"] | none
    return .ifElse (← NodeId.ofDatum? test) (← NodeId.ofDatum? consequent)
      (← NodeId.optionOfDatum? alternative)
  | "While" =>
    let [test, body] ← d.fields? ["cond", "body"] | none
    return .whileLoop (← NodeId.ofDatum? test) (← NodeId.ofDatum? body)
  | "DoWhile" =>
    let [body, test] ← d.fields? ["body", "cond"] | none
    return .doWhile (← NodeId.ofDatum? body) (← NodeId.ofDatum? test)
  | "For" =>
    let [init, test, update, body] ← d.fields? ["init", "cond", "update", "body"] | none
    return .forLoop (← NodeId.optionOfDatum? init) (← NodeId.optionOfDatum? test)
      (← NodeId.optionOfDatum? update) (← NodeId.ofDatum? body)
  | "ForIn" =>
    let [declare, target, object, body] ← d.fields? ["declare", "target", "object", "body"] | none
    return .forIn (← declare.toBool?) (← NodeId.ofDatum? target) (← NodeId.ofDatum? object)
      (← NodeId.ofDatum? body)
  | "Switch" =>
    let [discriminant, cases] ← d.fields? ["discriminant", "cases"] | none
    return .switch (← NodeId.ofDatum? discriminant) (← cases.toList? Case.ofDatum?)
  | "Labeled" =>
    let [label, body] ← d.fields? ["label", "body"] | none
    return .labeled (← label.toText?) (← NodeId.ofDatum? body)
  | "Break" => return .breakTo (← d.toOption? Datum.toText?)
  | "Continue" => return .continueTo (← d.toOption? Datum.toText?)
  | "Return" => return .returnValue (← NodeId.optionOfDatum? d)
  | "Throw" => return .throwValue (← NodeId.ofDatum? d)
  | "Try" =>
    let [body, handler, finalizer] ← d.fields? ["block", "catch", "finally"] | none
    return .tryBlock (← NodeId.listOfDatum? body) (← handler.toOption? CatchClause.ofDatum?)
      (← finalizer.toOption? NodeId.listOfDatum?)
  | "With" =>
    let [object, body] ← d.fields? ["object", "body"] | none
    return .withObject (← NodeId.ofDatum? object) (← NodeId.ofDatum? body)
  | "Let" =>
    let [bindings, body] ← d.fields? ["bindings", "body"] | none
    return .letBlock (← bindings.toList? Binding.ofDatum?) (← NodeId.listOfDatum? body)
  | "FunctionDecl" => return .functionDecl (← Function.ofDatum? d)
  | _ => none

/-- Read an expression kind that has content. -/
def expressionOfDatum? (tag : String) (d : Datum) : Option NodeKind := do
  match tag with
  | "Bool" => return .bool (← d.toBool?)
  | "Number" => return .number (← d.toNumber?)
  | "Str" => return .string (← d.toText?)
  | "Name" => return .name (← d.toText?)
  | "Member" =>
    let [object, property] ← d.fields? ["object", "property"] | none
    return .member (← NodeId.ofDatum? object) (← property.toText?)
  | "Index" =>
    let [object, key] ← d.fields? ["object", "index"] | none
    return .index (← NodeId.ofDatum? object) (← NodeId.ofDatum? key)
  | "Assign" =>
    let [op, target, value] ← d.fields? ["op", "target", "value"] | none
    return .assign (← op.toOption? (Datum.toVariant? BinaryOp.variants)) (← NodeId.ofDatum? target)
      (← NodeId.ofDatum? value)
  | "Unary" =>
    let [op, operand] ← d.fields? ["op", "operand"] | none
    return .unary (← op.toVariant? UnaryOp.variants) (← NodeId.ofDatum? operand)
  | "Binary" =>
    let [op, left, right] ← d.fields? ["op", "left", "right"] | none
    return .binary (← op.toVariant? BinaryOp.variants) (← NodeId.ofDatum? left)
      (← NodeId.ofDatum? right)
  | "Logical" =>
    let [op, operands] ← d.fields? ["op", "operands"] | none
    return .logical (← op.toVariant? LogicalOp.variants) (← NodeId.listOfDatum? operands)
  | "Conditional" =>
    let [test, consequent, alternative] ← d.fields? ["test", "then", "otherwise"] | none
    return .conditional (← NodeId.ofDatum? test) (← NodeId.ofDatum? consequent)
      (← NodeId.ofDatum? alternative)
  | "Call" =>
    let [callee, args] ← d.fields? ["callee", "args"] | none
    return .call (← NodeId.ofDatum? callee) (← NodeId.listOfDatum? args)
  | "New" =>
    let [callee, args] ← d.fields? ["callee", "args"] | none
    return .new (← NodeId.ofDatum? callee) (← NodeId.listOfDatum? args)
  | "Function" => return .function (← Function.ofDatum? d)
  | "Comma" => return .comma (← NodeId.listOfDatum? d)
  | _ => none

/-- Read a node kind. Only a kind without content may be given as its bare name. -/
def ofDatum? (d : Datum) : Option NodeKind :=
  match d.toVariant? bareVariants with
  | some kind => some kind
  | none =>
    match d with
    | .record [(tag, content)] =>
      (statementOfDatum? tag content).or (expressionOfDatum? tag content)
    | _ => none

end NodeKind

/-- Read a node. -/
def Node.ofDatum? (d : Datum) : Option Node := do
  let [kind, line] ← d.components? ["kind", "line"] | none
  return ⟨← NodeKind.ofDatum? kind, ← line.toLine?⟩

/-- Read a tree. The line for the next node must be there, but nothing depends on it. -/
def Tree.ofDatum? (d : Datum) : Option Tree := do
  let [nodes, body, line] ← d.components? ["nodes", "body", "line"] | none
  let nodes ← nodes.toList? Node.ofDatum?
  let body ← NodeId.listOfDatum? body
  let _ ← line.toLine?
  return ⟨nodes.toArray, body⟩

end ScriptCompiler
