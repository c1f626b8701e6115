import ScriptCompiler.Proofs.Lowering.Action

/-!
# What each construct becomes

One list of actions for each kind of node. The lists only say what the code
looks like: in which order the parts come, where jumps lead and what has been
opened around each child. How the code comes about does not show in them.
-/

namespace ScriptCompiler

namespace Lowering

/-- An instruction without operands. -/
def plain (op : Opcode) : Action := .op op [] .flow

/-- An instruction with a 16-bit operand. -/
def counted (op : Opcode) (n : Nat) : Action := .op op (Bytes.le16 n).toList .flow

/-- A child outside of any statement opened here. -/
def part (id : NodeId) : Action := .child [] id

/-! ## Expressions -/

/-- A number, as an immediate integer if it is one. -/
def number (value : Binary64) : Action :=
  match value.toInt32? with
  | none => .literal .double (.number value)
  | some z =>
    if z = 0 then plain .zero
    else if z = 1 then plain .one
    else if -128 ≤ z ∧ z ≤ 127 then .op .int8 [UInt8.ofNat (z % 256).toNat] .flow
    else if 0 ≤ z ∧ z ≤ 65535 then counted .uint16 z.toNat
    else .op .int32 (Bytes.le32 (Bytes.image32 z)).toList .flow

/-- Storing under a name. -/
def store (openings : List Opening) (name : String) : Action :=
  .access openings .setLocal (some .setName) name

/-- The operator of a compound assignment. -/
def compound (binary : Option BinaryOp) : List Action :=
  (binary.map fun operator => plain operator.opcode).toList

/-- An assignment. -/
def assign (t : Tree) (binary : Option BinaryOp) (target value : NodeId) : Option (List Action) :=
  match (t.get? target).map Node.kind with
  | some (.name name) => some <|
      (if binary.isSome then [part target] else []) ++ part value :: compound binary ++
        [store [] name]
  | some (.member object property) => some <|
      part object ::
        (if binary.isSome then [plain .dup, .literal .getProp (.string property)] else []) ++
        part value :: compound binary ++ [.literal .setProp (.string property)]
  | some (.index object key) => some <|
      part object :: part key :: (if binary.isSome then [plain .dup2, plain .getElem] else []) ++
        part value :: compound binary ++ [plain .setElem]
  | _ => none

/-- The operands of a short-circuit chain but the last, each with its jump to the end. -/
def guarded (op : Opcode) (operands : List NodeId) : List Action :=
  operands.flatMap fun id => [part id, .jump op 0 .flow]

/-- A short-circuit chain. -/
def logical (op : Opcode) : List NodeId → Option (List Action)
  | first :: second :: rest => some <|
      guarded op (first :: (second :: rest).dropLast) ++
        [part ((second :: rest).getLast (List.cons_ne_nil _ _)), .here 0]
  | _ => none

/-- A conditional expression. -/
def conditional (test consequent alternative : NodeId) : List Action :=
  [part test, .jump .ifEq 0 .flow, part consequent, .jump .goto 1 .drop, .here 0,
    part alternative, .here 1]

/-- A call or a construction. -/
def call (op : Opcode) (callee : NodeId) (args : List NodeId) : List Action :=
  part callee :: args.map part ++ [counted op args.length]

/-- A comma list. -/
def comma : List NodeId → List Action
  | [] => [plain .push]
  | value :: values => part value :: values.flatMap fun value => [plain .pop, part value]

/-! ## Ways out -/

/-- The pops that have been put off. -/
def flush (pops : Nat) : List Action := if 0 < pops then [counted .popN pops] else []

/-- What leaving a statement takes because of its kind, and the pops put off from then on. -/
def leavingKind (pops : Nat) (o : Open) : List Action × Nat :=
  match o.kind with
  | .finallyClause => (flush pops ++ [.exit .gosub o.finallyAt .flow], 0)
  | .withObject => (flush pops ++ [plain .leaveWith], 0)
  | .forInLoop => (flush pops ++ [plain .endIter], 0)
  | .subroutine => ([], pops + 2)
  | _ => ([], pops)

/-- What leaving a statement takes because of the names it binds. -/
def leavingScope (pops : Nat) (o : Open) : List Action × Nat :=
  match o.scope with
  | none => ([], pops)
  | some scope => (flush pops ++ [counted .leaveBlock scope.count.toNat], 0)

/-- What leaving some statements takes, innermost first, after `pops` pops have been put off. -/
def leaving (pops : Nat) : List Open → List Action
  | [] => flush pops
  | o :: outer =>
    let kind := leavingKind pops o
    let scope := leavingScope kind.2 o
    kind.1 ++ scope.1 ++ leaving scope.2 outer

/-- Whether all pops that are put off on the way out fit an operand. -/
def leavable (pops : Nat) : List Open → Bool
  | [] => true
  | o :: outer =>
    let kind := leavingKind pops o
    decide (kind.2 < 65536) && leavable (leavingScope kind.2 o).2 outer

/-- A jump out to a statement, to one of its places. -/
def leaveTo (ctx : Ctx) (index : Nat) (place : Open → Nat) : Option (List Action) := do
  let o ← ctx.opens[index]?
  if leavable 0 (ctx.opens.drop (index + 1)).reverse then
    some <| .here 0 :: leaving 0 (ctx.opens.drop (index + 1)).reverse ++
      [.exit .goto (place o) (.back 0)]
  else none

/-- What a jump out becomes, if it becomes anything. -/
theorem leaveTo_eq_some {ctx : Ctx} {index : Nat} {place : Open → Nat} {acts : List Action}
    (h : leaveTo ctx index place = some acts) :
    ∃ o, ctx.opens[index]? = some o ∧ leavable 0 (ctx.opens.drop (index + 1)).reverse ∧
      acts = .here 0 :: leaving 0 (ctx.opens.drop (index + 1)).reverse ++
        [.exit .goto (place o) (.back 0)] := by
  rw [leaveTo, Option.bind_eq_bind, Option.bind_eq_some_iff] at h
  obtain ⟨o, ho, h⟩ := h
  split at h
  · rename_i hleavable
    cases h
    exact ⟨o, ho, hleavable, rfl⟩
  · cases h

/-- A return. Its value is saved if leaving the statements around takes code. -/
def returnValue (ctx : Ctx) (value : Option NodeId) : List Action :=
  (value.map part).getD (plain .push) ::
    if (leaving 0 ctx.opens.reverse).isEmpty then [plain .returnTop]
    else plain .setRval :: .here 0 :: leaving 0 ctx.opens.reverse ++ [.op .retRval [] (.back 0)]

/-! ## Statements -/

/-- Hoisted names with their initial values. -/
def var (bindings : List Binding) : List Action :=
  bindings.flatMap fun binding => .declare binding.name ::
    (binding.init.map fun init => [part init, store [] binding.name, plain .pop]).getD []

/-- A block without names. -/
def block (body : List NodeId) : List Action := body.map (.child [{ kind := .block }])

/-- An if statement. -/
def ifElse (test consequent : NodeId) : Option NodeId → List Action
  | none =>
    [part test, .jump .ifEq 1 .flow, .child [{ kind := .ifBranch, breaks := 1 }] consequent,
      .here 1]
  | some alternative =>
    [part test, .jump .ifEq 1 .flow, .child [{ kind := .ifBranch, breaks := 2 }] consequent,
      .jump .goto 2 .flow, .here 1, .child [{ kind := .elseBranch, breaks := 2 }] alternative,
      .here 2]

/-- A while loop. -/
def whileLoop (test body : NodeId) : List Action :=
  let loop : Opening := { kind := .whileLoop, breaks := 3, continues := 0 }
  [.here 0, .jump .goto 2 .flow, .here 1, .child [loop] body, .here 2, .child [loop] test,
    .jump .ifNe 1 .flow, .here 3]

/-- A do-while loop. -/
def doWhile (body test : NodeId) : List Action :=
  let loop : Opening := { kind := .doLoop, breaks := 2, continues := 1 }
  [plain .nop, .here 0, .child [loop] body, .here 1, .child [loop] test, .jump .ifNe 0 .flow,
    .here 2]

/-- The instruction behind the initial part of a for loop. -/
def forEnding (t : Tree) : Option NodeId → Option Opcode
  | none => some .nop
  | some init =>
    (t.get? init).map fun node =>
      match node.kind with
      | .var _ => .nop
      | _ => .pop

/-- A for loop whose initial part ends in `ending`. -/
def forLoop (ending : Opcode) (init test update : Option NodeId) (body : NodeId) : List Action :=
  let loop : Opening := { kind := .forLoop, breaks := 4, continues := 2 }
  (init.map (.child [loop])).toList ++ [plain ending] ++
    (if test.isSome then [.jump .goto 3 .flow] else []) ++
    [.here 1, .child [loop] body, .here 2] ++
    (update.map fun update => [.child [loop] update, plain .pop]).getD [] ++ [.here 3] ++
    (test.map (.child [loop])).toList ++
    [.jump (if test.isSome then .ifNe else .goto) 1 .flow, .here 4]

/-- A for-in loop over `name`. -/
def forIn (declared : Bool) (name : String) (object body : NodeId) : List Action :=
  let loop : Opening := { kind := .forInLoop, breaks := 3, continues := 2 }
  (if declared then [.declare name] else []) ++
    [.child [loop] object, .op .iter [1] .flow, .jump .goto 2 .flow, .here 1, plain .iterNext,
      store [loop] name, plain .pop, .child [loop] body, .here 2, plain .moreIter,
      .jump .ifNe 1 .flow, .here 3, .region .iterator 3 1 3, plain .endIter]

/-- A labeled statement. -/
def labeled (label : String) (body : NodeId) : List Action :=
  [plain .nop, .child [{ kind := .label, label := some label, breaks := 1 }] body, .here 1]

/-- A catch clause in a try statement. -/
def catchClause (around : Opening) (clause : CatchClause) : List Action :=
  let caught : Opening := { kind := .catchBlock, names := some [clause.param], top := 2 }
  [counted .enterBlock 1, plain .exception,
      .access [around, caught] .setLocalPop none clause.param] ++
    clause.body.map (.child [around, caught]) ++ [counted .leaveBlock 1]

/-- The call of a finally clause, if there is one. -/
def callFinally (finalized : Bool) : List Action :=
  if finalized then [.jump .gosub 4 .flow] else []

/-- The finally clause itself. -/
def finallyClause (body : List NodeId) : List Action :=
  [.here 4, plain .finallyMark] ++ body.map (.child [{ kind := .subroutine }]) ++ [plain .retSub]

/-- A try statement. -/
def tryBlock (body : List NodeId) (handler : Option CatchClause)
    (finalizer : Option (List NodeId)) : List Action :=
  let around : Opening :=
    { kind := if finalizer.isSome then .finallyClause else .tryBlock, gosubs := 4 }
  [.here 0, plain .tryMark, .here 1] ++ body.map (.child [around]) ++
    callFinally finalizer.isSome ++ [.jump .goto 5 .flow, .here 2] ++
    (handler.map fun clause =>
      catchClause around clause ++ callFinally finalizer.isSome ++ [.jump .goto 5 .flow]).getD [] ++
    (finalizer.map finallyClause).getD [] ++ [plain .nop, .here 5] ++
    (if handler.isSome then [.region .catchBlock 0 1 2] else []) ++
    (if finalizer.isSome then [.region .finallyClause 0 1 4] else [])

/-- A with statement. -/
def withObject (object body : NodeId) : List Action :=
  [part object, plain .enterWith, .child [{ kind := .withObject }] body, plain .leaveWith]

/-- A block with names of its own. -/
def letBlock (bindings : List Binding) (body : List NodeId) : List Action :=
  let block : Opening := { kind := .block, names := some (bindings.map Binding.name) }
  let count := min bindings.length 65535
  [.here 0, counted .enterBlock count] ++
    (bindings.flatMap fun binding =>
      (binding.init.map fun init =>
        [.child [block] init, .access [block] .setLocalPop none binding.name]).getD []) ++
    body.map (.child [block]) ++ [counted .leaveBlock count]

/-! ## Switches -/

/-- The constant that a test denotes, if it is one. -/
def caseKey? (t : Tree) (test : NodeId) : Option Literal :=
  (t.get? test).bind fun node =>
    match node.kind with
    | .number value => some (.number value)
    | .string value => some (.string value)
    | .bool value => some (.bool value)
    | .null => some .null
    | _ => none

/-- The small integer that a test denotes, if it is one. -/
def tableKey? (t : Tree) (test : NodeId) : Option Int :=
  (t.get? test).bind fun node =>
    match node.kind with
    | .number value => value.toInt32?.filter Bytes.fits16
    | _ => none

/-- A switch as an opened statement; label 1 stands behind it. -/
def opened : Opening := { kind := .switch, breaks := 1 }

/-- The label of the body of a clause. -/
def bodyLabel (index : Nat) : Nat := index + 2

/-- The label of the last default clause from the clause at `index` on, or `label` without one. -/
def fallbackLabel (label : Nat) (index : Nat) : List Case → Nat
  | [] => label
  | clause :: clauses =>
    fallbackLabel (if clause.test.isNone then bodyLabel index else label) (index + 1) clauses

/-- The bodies of the clauses from the clause at `index` on. -/
def bodies (index : Nat) : List Case → List Action
  | [] => []
  | clause :: clauses =>
    .here (bodyLabel index) :: clause.body.map (.child [opened]) ++ bodies (index + 1) clauses

/-- The labels of a table that starts with the key `low`, with those of the clauses from the clause
at `index` on entered. -/
def tableArms (t : Tree) (low : Int) (arms : Array (Option Nat)) (index : Nat) :
    List Case → Array (Option Nat)
  | [] => arms
  | clause :: clauses =>
    match clause.test.bind (tableKey? t) with
    | none => tableArms t low arms (index + 1) clauses
    | some key =>
      tableArms t low (arms.setIfInBounds (key - low).toNat (some (bodyLabel index))) (index + 1)
        clauses

/-- The pairs of a lookup switch. -/
def casePairs (t : Tree) (index : Nat) : List Case → Option (List (Literal × Nat))
  | [] => some []
  | clause :: clauses =>
    match clause.test with
    | none => casePairs t (index + 1) clauses
    | some test => do
      let key ← caseKey? t test
      let pairs ← casePairs t (index + 1) clauses
      return (key, bodyLabel index) :: pairs

/-- The tests of a conditional switch, each with its jump to its body. -/
def caseTests (index : Nat) : List Case → List Action
  | [] => []
  | clause :: clauses =>
    (clause.test.map fun test =>
      [Action.child [opened] test, .jump .case (bodyLabel index) .flow]).getD [] ++
      caseTests (index + 1) clauses

/-- The small integers that the tests of some clauses denote. -/
def tableKeys (t : Tree) (clauses : List Case) : List (Option Int) :=
  (clauses.filterMap Case.test).map (tableKey? t)

/-- Whether the tests of some clauses are distinct integers from `low` to `high`. -/
def tableFits (t : Tree) (low high : Int) (clauses : List Case) : Bool :=
  ((tableKeys t clauses).all fun key => key.any fun z => low ≤ z && z ≤ high) &&
    decide (tableKeys t clauses).Nodup

/-- What stands between the discriminant and the bodies of a switch. -/
def switchHead (t : Tree) (clauses : List Case) : SwitchPlan → Option (List Action)
  | .table low high =>
    let arms := tableArms t low (Array.replicate (keyCount low high) none) 0 clauses
    if tableFits t low high clauses then
      some [.table low high (fallbackLabel 1 0 clauses) arms.toList]
    else none
  | .lookup => do
    let pairs ← casePairs t 0 clauses
    return [.lookup (fallbackLabel 1 0 clauses) pairs]
  | .conditional => some <|
      plain .condSwitch :: caseTests 0 clauses ++ [.jump .default (fallbackLabel 1 0 clauses) .flow]

/-- A switch. -/
def switch (t : Tree) (plan : SwitchPlan) (discriminant : NodeId) (clauses : List Case) :
    Option (List Action) := do
  let head ← switchHead t clauses plan
  return part discriminant :: head ++ bodies 0 clauses ++ [.here 1]

/-! ## Nodes -/

/-- What a node becomes, for a plan in case it is a switch. -/
def node (t : Tree) (ctx : Ctx) (plan : SwitchPlan) (node : Node) : Option (List Action) :=
  match node.kind with
  | .empty => some []
  | .block body => some (block body)
  | .expression value => some [part value, plain (if ctx.inFunction then .pop else .setRval)]
  | .var bindings => some (var bindings)
  | .ifElse test consequent alternative => some (ifElse test consequent alternative)
  | .whileLoop test body => some (whileLoop test body)
  | .doWhile body test => some (doWhile body test)
  | .forLoop init test update body => do
    let ending ← forEnding t init
    return forLoop ending init test update body
  | .forIn declared target object body =>
    match (t.get? target).map Node.kind with
    | some (.name name) => some (forIn declared name object body)
    | _ => none
  | .switch discriminant clauses => switch t plan discriminant clauses
  | .labeled label body => some (labeled label body)
  | .breakTo label => do leaveTo ctx (← ctx.breakTarget? label) Open.breakTo
  | .continueTo label => do leaveTo ctx (← ctx.continueTarget? label) Open.continueTo
  | .returnValue value =>
    if leavable 0 ctx.opens.reverse then some (returnValue ctx value) else none
  | .throwValue value => some [part value, plain .throwTop]
  | .tryBlock body handler finalizer => some (tryBlock body handler finalizer)
  | .withObject object body => some (withObject object body)
  | .letBlock bindings body => some (letBlock bindings body)
  | .functionDecl f => some [.define f node.line]
  | .undefined => some [plain .push]
  | .null => some [plain .null]
  | .bool true => some [plain .pushTrue]
  | .bool false => some [plain .pushFalse]
  | .number value => some [number value]
  | .string value => some [.literal .string (.string value)]
  | .name name => some [.access [] .getLocal (some .name) name]
  | .member object property => some [part object, .literal .getProp (.string property)]
  | .index object key => some [part object, part key, plain .getElem]
  | .assign binary target value => assign t binary target value
  | .unary operator operand => some [part operand, plain operator.opcode]
  | .binary operator left right => some [part left, part right, plain operator.opcode]
  | .logical operator operands => logical operator.opcode operands
  | .conditional test consequent alternative => some (conditional test consequent alternative)
  | .call callee args => if args.length < 65536 then some (call .call callee args) else none
  | .new callee args => if args.length < 65536 then some (call .new callee args) else none
  | .function f => some [.lambda f node.line]
  | .comma values => some (comma values)

/-- What the statements of a unit become. -/
def unit (body : List NodeId) : List Action := body.map part ++ [plain .stop]

end Lowering

end ScriptCompiler
