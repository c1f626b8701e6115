import ScriptCompiler.Proofs.Grammar
import ScriptCompiler.Proofs.Unit.Occurrences

/-!
# The statements around an occurrence

The loops, switches and labels that are open at a statement are those on the
path to it. So a search through the open statements, which is how a break or a
continue finds where it leads, is a search along the path.
-/

namespace ScriptCompiler

open NodeKind

variable {ids operands : List NodeId} {α : Type} {clauses : List Case} {index : Nat} {op : Opcode}

/-- Whether a break or a continue may be directed at a statement. -/
def StatementKind.directs (kind : StatementKind) : Bool :=
  kind.isLoop || kind = .switch || kind = .label

namespace NodeKind

/-- Whether a node is a loop. -/
def isLoop : NodeKind → Bool
  | whileLoop .. | doWhile .. | forLoop .. | forIn .. => true
  | _ => false

/-- Whether a node is a loop or a switch. -/
def isBreakable : NodeKind → Bool
  | switch .. => true
  | kind => kind.isLoop

/-- Whether a node is a statement with a given label. -/
def isLabeled (label : String) : NodeKind → Bool
  | labeled other _ => other = label
  | _ => false

/-- Whether a node closes regions behind its code. -/
def closesRegions : NodeKind → Bool
  | forIn .. | tryBlock .. => true
  | _ => false

/-- The loop, switch or label that a node opens around its parts. -/
def opening? : NodeKind → Option Opening
  | whileLoop .. => some { kind := .whileLoop, breaks := 3, continues := 0 }
  | doWhile .. => some { kind := .doLoop, breaks := 2, continues := 1 }
  | forLoop .. => some { kind := .forLoop, breaks := 4, continues := 2 }
  | forIn .. => some { kind := .forInLoop, breaks := 3, continues := 2 }
  | switch .. => some Lowering.opened
  | labeled label _ => some { kind := .label, label := some label, breaks := 1 }
  | _ => none

end NodeKind

/-! ## What is opened around a child -/

/-- What holds of the child that an action may stand for, and if it closes a region. -/
def Action.Child (p : List Opening → NodeId → Prop) (r : Prop) : Action → Prop
  | .child openings id => p openings id
  | .region .. => r
  | _ => True

/-- Around a child, the loop, switch or label that a node opens is opened and no other. The
discriminant of a switch stands outside of the switch. -/
def NodeKind.OpensAround (kind : NodeKind) (openings : List Opening) (id : NodeId) : Prop :=
  openings.filter (fun o => o.kind.directs) = kind.opening?.toList ∨
    openings = [] ∧ ∃ clauses, kind = .switch id clauses

namespace Lowering

/-- What holds of all children among some actions, and if they close a region. -/
def Children (p : List Opening → NodeId → Prop) (r : Prop) (acts : List Action) : Prop :=
  ∀ act ∈ acts, act.Child p r

variable {t : Tree} {ctx : Ctx} {plan : SwitchPlan} {nd : Node} {acts : List Action}
  {p : List Opening → NodeId → Prop} {r : Prop}

@[simp] theorem children_nil : Children p r [] := by simp [Children]

@[simp] theorem children_cons {act : Action} :
    Children p r (act :: acts) ↔ act.Child p r ∧ Children p r acts := by
  simp [Children]

@[simp] theorem children_append {more : List Action} :
    Children p r (acts ++ more) ↔ Children p r acts ∧ Children p r more :=
  List.forall_mem_append

@[simp] theorem children_map {openings : List Opening} :
    Children p r (ids.map (.child openings)) ↔ ∀ id ∈ ids, p openings id :=
  List.forall_mem_map

@[simp] theorem children_parts : Children p r (ids.map part) ↔ ∀ id ∈ ids, p [] id :=
  List.forall_mem_map

@[simp] theorem children_flatMap {l : List α} {f : α → List Action} :
    Children p r (l.flatMap f) ↔ ∀ x ∈ l, Children p r (f x) := by
  simp only [Children, List.mem_flatMap]
  exact ⟨fun h x hx act hact => h act ⟨x, hx, hact⟩, fun h act ⟨x, hx, hact⟩ => h x hx act hact⟩

@[simp] theorem children_getD {o : Option α} {f : α → List Action} :
    Children p r ((o.map f).getD []) ↔ ∀ x ∈ o, Children p r (f x) := by
  cases o <;> simp

@[simp] theorem children_toList {o : Option α} {f : α → Action} :
    Children p r (o.map f).toList ↔ ∀ x ∈ o, (f x).Child p r := by
  cases o <;> simp

theorem children_of_instructs (h : ∀ act ∈ acts, act.instructs) : Children p r acts := by
  intro act hmem
  have hact := h act hmem
  cases act with
  | child | region => cases hact
  | _ => trivial

theorem children_bodies :
    Children p r (bodies index clauses) ↔ ∀ id ∈ clauses.flatMap Case.body, p [opened] id := by
  induction clauses generalizing index with
  | nil => simp [bodies]
  | cons clause clauses ih => simp [bodies, Action.Child, ih, or_imp, forall_and]

theorem children_caseTests :
    Children p r (caseTests index clauses) ↔ ∀ id ∈ clauses.filterMap Case.test, p [opened] id := by
  induction clauses generalizing index with
  | nil => simp [caseTests]
  | cons clause clauses ih => cases htest : clause.test <;> simp [caseTests, htest, Action.Child, ih]

theorem children_switchHead (hhead : switchHead t clauses plan = some acts)
    (h : ∀ id ∈ clauses.filterMap Case.test, p [opened] id) : Children p r acts := by
  cases plan with
  | table low high =>
    simp only [switchHead] at hhead
    split at hhead <;> cases hhead
    simp [Action.Child]
  | lookup =>
    simp only [switchHead, Option.bind_eq_bind, Option.bind_eq_some_iff, Option.pure_def,
      Option.some.injEq] at hhead
    obtain ⟨pairs, -, rfl⟩ := hhead
    simp [Action.Child]
  | conditional =>
    cases hhead
    simpa [plain, Action.Child] using children_caseTests.mpr h

theorem children_leaveTo {place : Open → Nat} (h : leaveTo ctx index place = some acts) :
    Children p r acts := by
  obtain ⟨o, -, -, rfl⟩ := leaveTo_eq_some h
  simpa [Action.Child] using children_of_instructs (leaving_instructs _ _)

theorem children_returnValue {value : Option NodeId} (h : ∀ id ∈ value, p [] id) :
    Children p r (returnValue ctx value) := by
  have hleaving : Children p r (leaving 0 ctx.opens.reverse) :=
    children_of_instructs (leaving_instructs _ _)
  rw [returnValue]
  cases value with
  | none => split <;> simp [plain, Action.Child, hleaving]
  | some value => split <;> simp [plain, part, Action.Child, hleaving, h]

theorem children_guarded : Children p r (guarded op operands) ↔ ∀ id ∈ operands, p [] id := by
  simp [guarded, part, Action.Child]

theorem children_logical (hacts : logical op operands = some acts) (h : ∀ id ∈ operands, p [] id) :
    Children p r acts := by
  rcases operands with _ | ⟨first, _ | ⟨second, rest⟩⟩
  · cases hacts
  · cases hacts
  · cases hacts
    have hlast := h _ (List.mem_cons_of_mem _ (List.getLast_mem (List.cons_ne_nil second rest)))
    have hfront : ∀ id ∈ first :: (second :: rest).dropLast, p [] id := by
      intro id hid
      refine h id ?_
      rw [List.mem_cons] at hid ⊢
      exact hid.imp_right fun hid => (List.dropLast_sublist _).mem hid
    simpa [part, Action.Child, children_guarded, hlast] using hfront

theorem children_number {value : Binary64} : (number value).Child p r := by
  rw [number]
  cases value.toInt32? with
  | none => trivial
  | some z => dsimp only; (repeat' split) <;> trivial

/-- What a node opens around each of its children, and whether it closes regions. -/
theorem opensAround_child (h : node t ctx plan nd = some acts) :
    Children nd.kind.OpensAround (nd.kind.closesRegions) acts := by
  rw [node] at h
  cases hkind : nd.kind with
  | «switch» discriminant clauses =>
    simp only [hkind, switch, Option.bind_eq_bind, Option.bind_eq_some_iff, Option.pure_def,
      Option.some.injEq] at h
    obtain ⟨head, hhead, rfl⟩ := h
    have hopened : ∀ id, (NodeKind.switch discriminant clauses).OpensAround [opened] id :=
      fun _ => .inl rfl
    simp only [children_cons, children_append, List.cons_append]
    exact ⟨.inr ⟨rfl, clauses, rfl⟩, ⟨children_switchHead hhead fun id _ => hopened id,
      children_bodies.mpr fun id _ => hopened id⟩, trivial, children_nil⟩
  | breakTo label =>
    simp only [hkind, Option.bind_eq_bind, Option.bind_eq_some_iff] at h
    obtain ⟨index, -, h⟩ := h
    exact children_leaveTo h
  | continueTo label =>
    simp only [hkind, Option.bind_eq_bind, Option.bind_eq_some_iff] at h
    obtain ⟨index, -, h⟩ := h
    exact children_leaveTo h
  | returnValue value =>
    simp only [hkind] at h
    split at h <;> cases h
    exact children_returnValue fun _ _ => .inl rfl
  | call callee args | new callee args =>
    simp only [hkind] at h
    split at h <;> cases h
    simp [call, counted, part, Action.Child, NodeKind.OpensAround, NodeKind.opening?]
  | forLoop init test update body =>
    simp only [hkind, Option.bind_eq_bind, Option.bind_eq_some_iff, Option.pure_def,
      Option.some.injEq] at h
    obtain ⟨ending, -, rfl⟩ := h
    cases test <;>
      simp [forLoop, plain, Action.Child, NodeKind.OpensAround, NodeKind.opening?,
        StatementKind.directs, StatementKind.isLoop]
  | forIn declared target object body =>
    simp only [hkind] at h
    split at h <;> cases h
    cases declared <;>
      simp [forIn, plain, store, Action.Child, NodeKind.OpensAround, NodeKind.opening?,
        NodeKind.closesRegions, StatementKind.directs, StatementKind.isLoop]
  | tryBlock body handler finalizer =>
    rw [hkind] at h
    cases h
    cases handler <;> cases finalizer <;>
      simp [tryBlock, catchClause, finallyClause, callFinally, plain, counted, Action.Child,
        NodeKind.OpensAround, NodeKind.opening?, NodeKind.closesRegions, StatementKind.directs,
        StatementKind.isLoop]
  | ifElse test consequent alternative =>
    rw [hkind] at h
    cases h
    cases alternative <;> simp [ifElse, part, Action.Child, NodeKind.OpensAround, NodeKind.opening?,
        StatementKind.directs, StatementKind.isLoop]
  | assign binary target value =>
    simp only [hkind, assign] at h
    split at h <;> cases h <;> cases binary <;>
      simp [compound, store, part, plain, Action.Child, NodeKind.OpensAround, NodeKind.opening?]
  | logical operator operands =>
    rw [hkind] at h
    exact children_logical h fun _ _ => .inl rfl
  | comma values =>
    rw [hkind] at h
    cases h
    cases values <;>
      simp [comma, part, plain, Action.Child, NodeKind.OpensAround, NodeKind.opening?]
  | bool value =>
    cases value <;> (rw [hkind] at h; cases h; simp [plain, Action.Child])
  | number value =>
    rw [hkind] at h
    cases h
    exact children_cons.mpr ⟨children_number, children_nil⟩
  | _ =>
    rw [hkind] at h
    cases h
    simp [block, var, whileLoop, doWhile, labeled, withObject, letBlock, conditional, store, plain,
      counted, part, Action.Child, NodeKind.OpensAround, NodeKind.opening?,
      StatementKind.directs, StatementKind.isLoop]

/-- The children of an expression are expressions. -/
theorem isExpression_of_child (hwf : t.wellFormed) {id : NodeId}
    (hid : t.get? id = some nd) (hexpr : nd.kind.isExpression)
    (h : node t ctx plan nd = some acts) :
    Children (fun _ child => t.holds isExpression child) False acts := by
  have hmem : ∀ child ∈ nd.kind.expressions, t.holds isExpression child :=
    fun child => Tree.isExpression_of_mem hwf hid
  rw [node] at h
  cases hkind : nd.kind with
  | assign binary target value =>
    have hvalue : t.holds isExpression value :=
      hmem value (by rw [hkind]; exact List.mem_singleton_self value)
    simp only [hkind, assign] at h
    cases htarget : t.get? target with
    | none => simp [htarget] at h
    | some node =>
      have hparts : ∀ child ∈ node.kind.expressions, t.holds isExpression child :=
        fun child => Tree.isExpression_of_mem hwf htarget
      rw [htarget, Option.map_some] at h
      cases hnode : node.kind with
      | name name =>
        have hname : t.holds isExpression target := by
          simp [Tree.holds, htarget, hnode, isExpression, isStatement]
        rw [hnode] at h
        cases h
        cases binary <;> simp [compound, store, part, plain, Action.Child, hvalue, hname]
      | member object property =>
        rw [hnode] at h hparts
        cases h
        have hobject := hparts object (List.mem_singleton_self object)
        cases binary <;> simp [compound, part, plain, Action.Child, hvalue, hobject]
      | index object key =>
        rw [hnode] at h hparts
        cases h
        have hobject := hparts object (by simp [expressions])
        have hkey := hparts key (by simp [expressions])
        cases binary <;> simp [compound, part, plain, Action.Child, hvalue, hobject, hkey]
      | _ => simp [hnode] at h
  | logical operator operands =>
    rw [hkind] at h hmem
    exact children_logical h hmem
  | comma values =>
    rw [hkind] at h hmem
    cases h
    cases values with
    | nil => simp [comma, plain, Action.Child]
    | cons value values => simpa [comma, part, plain, Action.Child, expressions] using hmem
  | bool value => cases value <;> (rw [hkind] at h; cases h; simp [plain, Action.Child])
  | number value =>
    rw [hkind] at h
    cases h
    exact children_cons.mpr ⟨children_number, children_nil⟩
  | call | new =>
    simp only [hkind] at h hmem
    split at h <;> cases h
    simpa [call, part, counted, Action.Child, expressions] using hmem
  | member | index | unary | binary | conditional =>
    rw [hkind] at h hmem
    cases h
    simpa [conditional, part, plain, Action.Child, expressions] using hmem
  | undefined | null | string | name | function =>
    rw [hkind] at h
    cases h
    simp [plain, Action.Child]
  | _ =>
    rw [hkind] at hexpr
    cases hexpr

end Lowering

/-! ## What is open at a statement -/

/-- The loop, switch or label that an occurrence opens around its parts. -/
def Occurrence.open? (occ : Occurrence) : Option Open :=
  occ.node.kind.opening?.map (Opening.place occ.lab)

section Path

variable {tree : Tree} {P : Program} {s : Stretch} {occ : Occurrence} {path : List Occurrence}

/-- The loops, switches and labels that are open at a statement are those on the path to it, behind
what is open around the first child on the way. -/
theorem Path.opens (hwf : tree.wellFormed) (h : Path tree P s path occ)
    (hstatement : occ.node.kind.isStatement) :
    ∃ openings id node, .child openings id ∈ s.acts ∧ tree.get? id = some node ∧
      node.kind.isStatement ∧
      occ.ctx.opens.filter (fun o => o.kind.directs) =
        (s.ctx.enter s.lab openings).opens.filter (fun o => o.kind.directs) ++
          path.filterMap Occurrence.open? := by
  induction h with
  | @child s openings occ hchild =>
    obtain ⟨⟨front, back, hacts, hnode, -, -⟩, hctx, -, -, -⟩ := hchild
    refine ⟨openings, occ.id, occ.node, by simp [hacts], hnode, hstatement, ?_⟩
    rw [hctx, List.filterMap_nil, List.append_nil]
  | @inner s openings outer occ path hchild hpath ih =>
    obtain ⟨⟨front, back, hacts, hnode, -, -⟩, hctx, hlowered, -, -⟩ := hchild
    obtain ⟨openings', id', node', hmem, hnode', hstatement', hopens⟩ := ih hstatement
    have hnot : ¬ tree.holds isExpression id' := by
      simp [Tree.holds, hnode', isExpression, hstatement']
    refine ⟨openings, outer.id, outer.node, by simp [hacts], hnode, ?_, ?_⟩
    · cases hkind : outer.node.kind.isStatement with
      | true => rfl
      | false =>
        have hexpr : outer.node.kind.isExpression := by rw [isExpression, hkind]; rfl
        exact absurd (Lowering.isExpression_of_child hwf hnode hexpr hlowered _ hmem) hnot
    · have hown : (openings'.map (Opening.place outer.lab)).filter (fun o => o.kind.directs) =
          outer.open?.toList := by
        rcases Lowering.opensAround_child hlowered _ hmem with hfilter | ⟨-, clauses, hswitch⟩
        · rw [List.filter_map]
          exact (congrArg _ hfilter).trans (Option.toList_map ..).symm
        · refine absurd (Tree.isExpression_of_mem hwf hnode ?_) hnot
          rw [hswitch]
          exact List.mem_cons_self ..
      rw [hopens, Ctx.enter, List.filter_append, hown, hctx, List.append_assoc, List.filterMap_cons]
      cases outer.open? <;> rfl

/-- In a unit, the loops, switches and labels that are open at a statement are those on the path to
it. -/
theorem Laid.opens {inFunction : Bool} {body : List NodeId} {script : Script}
    (hwf : tree.wellFormed) (hlaid : Laid tree P inFunction body script s) (h : Path tree P s path occ) (hstatement : occ.node.kind.isStatement) :
    occ.ctx.opens.filter (fun o => o.kind.directs) = path.filterMap Occurrence.open? := by
  obtain ⟨openings, id, node, hmem, -, -, hopens⟩ := h.opens hwf hstatement
  have hnil : openings = [] := by
    simp only [hlaid.acts, Lowering.unit, Lowering.part, Lowering.plain, List.mem_append, List.mem_map,
      Action.child.injEq, List.mem_singleton, reduceCtorEq, or_false] at hmem
    obtain ⟨_, _, rfl, _⟩ := hmem
    rfl
  rw [hopens, hnil, hlaid.ctx]
  rfl

end Path

end ScriptCompiler
