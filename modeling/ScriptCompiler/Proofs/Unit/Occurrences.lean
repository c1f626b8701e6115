import ScriptCompiler.Proofs.Unit.Compilation

/-!
# Where nodes stand

The code of a node is a stretch of the code of the node around it. A node with
its stretch is an occurrence, and a path leads from the statements of a unit to
an occurrence through those around it. Every child in a stretch occurs there.
-/

namespace ScriptCompiler

variable {back : List Action} {openings : List Opening} {path : List Occurrence}

/-- Some actions with the code that they have become. -/
structure Stretch where
  /-- What the actions stand in. -/
  ctx : Ctx
  /-- What their labels stand for. -/
  lab : Nat → Mark
  /-- The actions. -/
  acts : List Action
  /-- Where their code starts. -/
  first : Mark
  /-- Where their code ends. -/
  last : Mark

/-- A node with the code that it has become. -/
structure Occurrence extends Stretch where
  /-- The number of the node. -/
  id : NodeId
  /-- The node. -/
  node : Node
  /-- How it has been lowered, in case it is a switch. -/
  plan : SwitchPlan

/-- The children of a node that have code of their own in the same unit. The statements of a function
are a unit, the constant tests of a switch are no code, and of a target its parts are. -/
def Tree.children (t : Tree) : NodeKind → List NodeId
  | .functionDecl _ | .function _ => []
  | .switch discriminant clauses => discriminant :: clauses.flatMap Case.body ++
      (clauses.filterMap Case.test).filter fun test => (Lowering.caseKey? t test).isNone
  | .forLoop init test update body => init.toList ++ test.toList ++ update.toList ++ [body]
  | .assign _ target value => value :: ((t.get? target).map fun nd => nd.kind.expressions).getD []
  | kind => kind.statements ++ kind.expressions

/-- A node is one of some statements, or inside of them. -/
inductive Tree.Below (t : Tree) (body : List NodeId) : NodeId → Prop
  | statement {id : NodeId} (hmem : id ∈ body) : Below t body id
  | child {outer id : NodeId} {nd : Node} (houter : Below t body outer)
      (hnode : t.get? outer = some nd) (hmem : id ∈ t.children nd.kind) : Below t body id

section Stretches

variable (tree : Tree) (P : Program)

/-- The code of a stretch is what its actions say. -/
def Stretch.Runs (s : Stretch) : Prop :=
  Run tree P tree.parts s.ctx s.lab s.acts s.first s.last

/-- The code of the actions `front` ends, and that of the actions `back` starts, at a mark. -/
structure Stretch.Splits (s : Stretch) (front back : List Action) (y : Mark) : Prop where
  acts : s.acts = front ++ back
  front : Run tree P tree.parts s.ctx s.lab front s.first y
  back : Run tree P tree.parts s.ctx s.lab back y s.last

/-- An occurrence is that of a child in a stretch. -/
structure Stretch.Child (s : Stretch) (openings : List Opening) (occ : Occurrence) : Prop where
  /-- The child is one of the actions, and the code around it is that of the other actions. -/
  place : ∃ front back, s.acts = front ++ .child openings occ.id :: back ∧
    tree.get? occ.id = some occ.node ∧
    Run tree P tree.parts s.ctx s.lab front s.first occ.first ∧
    Run tree P tree.parts s.ctx s.lab back occ.last s.last
  ctx : occ.ctx = s.ctx.enter s.lab openings
  lowered : Lowering.node tree occ.ctx occ.plan occ.node = some occ.acts
  runs : occ.Runs tree P
  /-- The code comes from a visit of the child. -/
  visited : Visited tree s.ctx.inFunction occ.id occ.first occ.last

/-- An occurrence somewhere in a stretch, with those around it, outermost first. -/
inductive Path : Stretch → List Occurrence → Occurrence → Prop
  | child {s : Stretch} {openings : List Opening} {occ : Occurrence}
      (h : s.Child tree P openings occ) : Path s [] occ
  | inner {s : Stretch} {openings : List Opening} {outer occ : Occurrence} {path : List Occurrence}
      (h : s.Child tree P openings outer) (hpath : Path outer.toStretch path occ) :
      Path s (outer :: path) occ

/-- The statements of a unit with their code, which is all the code of a script. -/
structure Laid (inFunction : Bool) (body : List NodeId) (s : Script) (root : Stretch) : Prop where
  encodes : Encodes s P
  ctx : root.ctx = ⟨inFunction, []⟩
  acts : root.acts = Lowering.unit body
  first : root.first = .start
  pos : root.last.pos = P.main.length
  closed : root.last.closed = P.regions.length
  runs : root.Runs tree P
  /-- Every node below the statements has code. -/
  occurs : ∀ id, tree.Below body id → ∃ path occ, Path tree P root path occ ∧ occ.id = id

end Stretches

variable {tree : Tree} {P : Program} {s : Stretch} {occ : Occurrence}

/-! ## Children in actions -/

/-- The number of the node that an action visits. -/
def Action.childId? : Action → Option NodeId
  | child _ id => some id
  | _ => none

/-- The numbers of the nodes that some actions visit. -/
def childIds (acts : List Action) : List NodeId := acts.filterMap Action.childId?

theorem mem_childIds {acts : List Action} {id : NodeId} :
    id ∈ childIds acts ↔ ∃ openings, Action.child openings id ∈ acts := by
  rw [childIds, List.mem_filterMap]
  constructor
  · rintro ⟨act, hmem, hid⟩
    cases act with
    | child openings id' => exact ⟨openings, Option.some.inj hid ▸ hmem⟩
    | _ => cases hid
  · rintro ⟨openings, hmem⟩
    exact ⟨_, hmem, rfl⟩

namespace Lowering

variable {t : Tree}

attribute [local simp] part plain counted store Action.childId?

@[local simp] theorem childIds_cons (act : Action) (acts : List Action) :
    childIds (act :: acts) = act.childId?.toList ++ childIds acts := by
  cases hact : act.childId? with
  | none => exact List.filterMap_cons_none hact
  | some id => exact List.filterMap_cons_some hact

@[local simp] theorem childIds_nil : childIds [] = [] := rfl

@[local simp] theorem childIds_append (acts acts' : List Action) :
    childIds (acts ++ acts') = childIds acts ++ childIds acts' := List.filterMap_append

@[local simp] theorem childIds_map (openings : List Opening) (ids : List NodeId) :
    childIds (ids.map (.child openings)) = ids := by
  rw [childIds, List.filterMap_map]
  exact List.filterMap_some

@[local simp] theorem childIds_map_part (ids : List NodeId) : childIds (ids.map part) = ids :=
  childIds_map [] ids

@[local simp] theorem childIds_flatMap {α : Type} (xs : List α) (f : α → List Action) :
    childIds (xs.flatMap f) = xs.flatMap fun x => childIds (f x) := List.filterMap_flatMap

theorem childIds_bodies (index : Nat) (clauses : List Case) :
    childIds (bodies index clauses) = clauses.flatMap Case.body := by
  induction clauses generalizing index with
  | nil => rfl
  | cons clause clauses ih => simp [bodies, ih]

theorem childIds_caseTests (index : Nat) (clauses : List Case) :
    childIds (caseTests index clauses) = clauses.filterMap Case.test := by
  induction clauses generalizing index with
  | nil => rfl
  | cons clause clauses ih =>
    cases htest : clause.test <;> simp [caseTests, ih, htest]

theorem caseKey?_isSome_of_casePairs {index : Nat} {clauses : List Case}
    {pairs : List (Literal × Nat)} (h : casePairs t index clauses = some pairs) {test : NodeId}
    (hmem : test ∈ clauses.filterMap Case.test) : (caseKey? t test).isSome := by
  induction clauses generalizing index pairs with
  | nil => cases hmem
  | cons clause clauses ih =>
    cases htest : clause.test with
    | none =>
      rw [casePairs, htest] at h
      rw [List.filterMap_cons_none htest] at hmem
      exact ih h hmem
    | some test' =>
      simp only [casePairs, htest, Option.bind_eq_bind, Option.bind_eq_some_iff] at h
      obtain ⟨key, hkey, pairs', hpairs, -⟩ := h
      rw [List.filterMap_cons_some htest, List.mem_cons] at hmem
      rcases hmem with rfl | hmem
      · rw [hkey]
        rfl
      · exact ih hpairs hmem

theorem caseKey?_isSome_of_tableKey? {test : NodeId} {key : Int} (h : tableKey? t test = some key) :
    (caseKey? t test).isSome := by
  simp only [tableKey?, Option.bind_eq_some_iff] at h
  obtain ⟨nd, hnode, h⟩ := h
  split at h
  · rename_i hkind
    simp [caseKey?, hnode, hkind]
  · cases h

/-- A test that a switch does not visit is a constant. -/
theorem mem_childIds_of_switchHead {clauses : List Case} {plan : SwitchPlan} {acts : List Action}
    (h : switchHead t clauses plan = some acts) {test : NodeId}
    (hmem : test ∈ clauses.filterMap Case.test) (hkey : (caseKey? t test).isNone) :
    test ∈ childIds acts := by
  have hconstant : (caseKey? t test).isSome → test ∈ childIds acts := fun hsome => by
    rw [Option.isNone_iff_eq_none.mp hkey] at hsome
    cases hsome
  cases plan with
  | table low high =>
    rw [switchHead] at h
    split at h
    · rename_i hfits
      rw [tableFits, tableKeys, Bool.and_eq_true, List.all_map, List.all_eq_true] at hfits
      cases hkey : tableKey? t test with
      | none =>
        have hany := hfits.1 test hmem
        rw [Function.comp_apply, hkey] at hany
        cases hany
      | some key => exact hconstant (caseKey?_isSome_of_tableKey? hkey)
    · cases h
  | lookup =>
    simp only [switchHead, Option.bind_eq_bind, Option.bind_eq_some_iff] at h
    obtain ⟨pairs, hpairs, -⟩ := h
    exact hconstant (caseKey?_isSome_of_casePairs hpairs hmem)
  | conditional =>
    cases h
    simpa [childIds_caseTests] using hmem

/-- An assignment visits its value and the parts of its target. -/
theorem mem_childIds_of_assign {binary : Option BinaryOp} {target value : NodeId}
    {acts : List Action} (h : assign t binary target value = some acts) {id : NodeId}
    (hmem : id ∈ t.children (.assign binary target value)) : id ∈ childIds acts := by
  rw [assign] at h
  cases hnode : t.get? target with
  | none =>
    rw [hnode] at h
    cases h
  | some nd =>
    simp only [hnode, Option.map_some] at h
    split at h <;> cases h
    all_goals
      rename_i hkind
      simp only [Tree.children, hnode, Option.map_some, Option.some.inj hkind,
        NodeKind.expressions, Option.getD_some, List.mem_cons, List.not_mem_nil] at hmem
      simp only [childIds_append, childIds_cons, List.cons_append, List.mem_append]
      simp
      grind

/-- A short-circuit chain visits all its operands. -/
theorem childIds_logical {op : Opcode} {operands : List NodeId} {acts : List Action}
    (h : logical op operands = some acts) : childIds acts = operands := by
  rw [logical.eq_def] at h
  split at h
  · cases h
    rename_i first second rest
    simp [guarded, List.dropLast_append_getLast]
  · cases h

/-- A node visits all its children. -/
theorem mem_childIds_of_node {ctx : Ctx} {plan : SwitchPlan} {nd : Node} {acts : List Action}
    (h : Lowering.node t ctx plan nd = some acts) {id : NodeId} (hmem : id ∈ t.children nd.kind) :
    id ∈ childIds acts := by
  cases hkind : nd.kind <;> simp only [Lowering.node, hkind, Option.bind_eq_bind] at h hmem
  case switch discriminant clauses =>
    simp only [switch, Option.bind_eq_bind, Option.bind_eq_some_iff] at h
    obtain ⟨head, hhead, h⟩ := h
    cases h
    simp only [Tree.children, List.cons_append, List.mem_cons, List.mem_append, List.mem_filter]
      at hmem
    rcases hmem with rfl | hmem | ⟨hmem, hkey⟩
    · simp
    · simp [childIds_bodies, hmem]
    · simp [mem_childIds_of_switchHead hhead hmem hkey]
  case forLoop init test update body =>
    obtain ⟨ending, -, h⟩ := Option.bind_eq_some_iff.mp h
    cases h
    simp only [Tree.children, List.mem_append, Option.mem_toList, List.mem_singleton] at hmem
    cases init <;> cases test <;> cases update <;> simp [forLoop] <;> grind
  case assign => exact mem_childIds_of_assign h hmem
  case logical => exact (childIds_logical h).symm ▸ hmem
  all_goals simp only [Tree.children, NodeKind.statements, NodeKind.expressions] at hmem
  case empty | breakTo | continueTo | functionDecl | undefined | null | bool | number | string | name
      | function => cases hmem
  case forIn declared target object body =>
    split at h <;> cases h
    cases declared <;> simp [forIn] <;> grind
  case call | new =>
    split at h <;> cases h
    simpa [call] using hmem
  case returnValue value =>
    split at h <;> cases h
    cases value <;> simp_all [returnValue]
  case ifElse test consequent alternative =>
    cases h
    cases alternative <;> simp [ifElse] <;> grind
  case comma values =>
    cases h
    cases values <;> simp_all [comma]
  case tryBlock body handler finalizer =>
    cases h
    cases handler <;> cases finalizer <;>
      simp [tryBlock, catchClause, callFinally, finallyClause] <;> grind
  case letBlock bindings body =>
    cases h
    rcases List.mem_append.mp hmem with hmem | hmem
    · simp [letBlock, hmem]
    · obtain ⟨binding, hbinding, hinit⟩ := List.mem_filterMap.mp hmem
      simp only [letBlock, childIds_append, childIds_flatMap, List.mem_append, List.mem_flatMap]
      exact .inl (.inl (.inr ⟨binding, hbinding, by simp [hinit]⟩))
  case var bindings =>
    cases h
    obtain ⟨binding, hbinding, hinit⟩ := List.mem_filterMap.mp hmem
    simp only [var, childIds_flatMap, List.mem_flatMap]
    exact ⟨binding, hbinding, by simp [hinit]⟩
  all_goals
    cases h
    simp_all [block, whileLoop, doWhile, labeled, withObject, conditional, or_comm]

end Lowering

/-! ## Parts of a stretch -/

namespace Stretch

theorem Runs.of_eq (h : s.Runs tree P) {acts : List Action} (hacts : s.acts = acts) :
    Run tree P tree.parts s.ctx s.lab acts s.first s.last := hacts ▸ h

/-- A stretch splits wherever its actions do. -/
theorem Runs.splits (h : s.Runs tree P) {front : List Action} (hacts : s.acts = front ++ back) :
    ∃ y, s.Splits tree P front back y := by
  obtain ⟨y, hfront, hback⟩ := (h.of_eq hacts).of_append
  exact ⟨y, hacts, hfront, hback⟩

/-- Every child in a stretch occurs there. -/
theorem Runs.child (h : s.Runs tree P) {front : List Action} {id : NodeId}
    (hacts : s.acts = front ++ .child openings id :: back) :
    ∃ occ, s.Child tree P openings occ ∧ occ.id = id := by
  obtain ⟨x, -, hfront, hback⟩ := h.splits hacts
  cases hback with
  | emit his _ _ => cases his
  | @child _ _ lab' _ _ node plan inner _ _ y _ hnode hvisit hinner hrun hrest =>
    exact ⟨⟨⟨_, lab', inner, x, y⟩, id, node, plan⟩, ⟨⟨front, back, hacts, hnode, hfront, hrest⟩, rfl,
      hinner, hrun, hvisit⟩, rfl⟩

/-- A child whose number is among those of a stretch occurs there. -/
theorem Runs.occurs (h : s.Runs tree P) {id : NodeId} (hmem : id ∈ childIds s.acts) :
    ∃ openings occ, s.Child tree P openings occ ∧ occ.id = id := by
  obtain ⟨openings, hmem⟩ := mem_childIds.mp hmem
  obtain ⟨front, back, hacts⟩ := List.append_of_mem hmem
  exact ⟨openings, h.child hacts⟩

/-- Actions in front of a stretch. -/
def behind (s : Stretch) (front : List Action) (x : Mark) : Stretch :=
  { s with acts := front ++ s.acts, first := x }

variable {front : List Action} {x : Mark}

theorem Child.behind (h : s.Child tree P openings occ)
    (hfront : Run tree P tree.parts s.ctx s.lab front x s.first) :
    (s.behind front x).Child tree P openings occ := by
  obtain ⟨⟨pre, post, hacts, hnode, hpre, hpost⟩, hctx, hlowered, hruns, hvisited⟩ := h
  refine ⟨⟨front ++ pre, post, ?_, hnode, hfront.append hpre, hpost⟩, hctx, hlowered, hruns,
    hvisited⟩
  rw [Stretch.behind, hacts, List.append_assoc]

end Stretch

theorem Path.behind (h : Path tree P s path occ) {front : List Action} {x : Mark}
    (hfront : Run tree P tree.parts s.ctx s.lab front x s.first) :
    Path tree P (s.behind front x) path occ := by
  cases h with
  | child hchild => exact .child (hchild.behind hfront)
  | inner hchild hpath => exact .inner (hchild.behind hfront) hpath

/-- An occurrence has the code of its node, and lies in the stretch that it is found in. -/
theorem Path.found (h : Path tree P s path occ) :
    Lowering.node tree occ.ctx occ.plan occ.node = some occ.acts ∧ occ.Runs tree P ∧
      s.first.pos ≤ occ.first.pos ∧ occ.last.pos ≤ s.last.pos := by
  induction h with
  | child hchild =>
    obtain ⟨⟨front, back, -, -, hfront, hback⟩, -, hlowered, hruns, -⟩ := hchild
    exact ⟨hlowered, hruns, hfront.pos_le, hback.pos_le⟩
  | inner hchild _ ih =>
    obtain ⟨⟨front, back, -, -, hfront, hback⟩, -, -, -, -⟩ := hchild
    obtain ⟨hlowered, hruns, hfirst, hlast⟩ := ih
    exact ⟨hlowered, hruns, Nat.le_trans hfront.pos_le hfirst, Nat.le_trans hlast hback.pos_le⟩

/-- An occurrence is that of its own number. -/
theorem Path.node (h : Path tree P s path occ) : tree.get? occ.id = some occ.node := by
  induction h with
  | child hchild =>
    obtain ⟨⟨_, _, _, hnode, _, _⟩, _⟩ := hchild
    exact hnode
  | inner _ _ ih => exact ih

/-- The code of an occurrence comes from a visit. -/
theorem Path.visited (h : Path tree P s path occ) :
    Visited tree s.ctx.inFunction occ.id occ.first occ.last := by
  induction h with
  | child hchild => exact hchild.visited
  | inner hchild _ ih =>
    rw [hchild.ctx] at ih
    exact ih

/-- What is on the path to an occurrence occurs itself. -/
theorem Path.enclosing (h : Path tree P s path occ) {outer : Occurrence} (hmem : outer ∈ path) :
    ∃ path', Path tree P s path' outer := by
  induction h with
  | child => cases hmem
  | inner hchild _ ih =>
    rcases List.mem_cons.mp hmem with rfl | hmem
    · exact ⟨[], .child hchild⟩
    · obtain ⟨path', hpath⟩ := ih hmem
      exact ⟨_, .inner hchild hpath⟩

theorem Path.snoc (h : Path tree P s path occ) {openings : List Opening} {inner : Occurrence}
    (hchild : occ.toStretch.Child tree P openings inner) :
    Path tree P s (path ++ [occ]) inner := by
  induction h with
  | child h => exact .inner h (.child hchild)
  | inner h _ ih => exact .inner h (ih hchild)

/-- Every node below the statements of a unit has code. -/
theorem Stretch.Runs.below (h : s.Runs tree P) {body : List NodeId}
    (hacts : s.acts = Lowering.unit body) {id : NodeId} (hbelow : tree.Below body id) :
    ∃ path occ, Path tree P s path occ ∧ occ.id = id := by
  induction hbelow with
  | statement hmem =>
    obtain ⟨openings, occ, hchild, hid⟩ := h.occurs (by
      rw [hacts, Lowering.unit, childIds, List.filterMap_append]
      exact List.mem_append_left _ ((Lowering.childIds_map [] body).symm ▸ hmem))
    exact ⟨[], occ, .child hchild, hid⟩
  | child _ hnode hmem ih =>
    obtain ⟨path, outer, hpath, rfl⟩ := ih
    obtain ⟨hlowered, hruns, -⟩ := hpath.found
    rw [hpath.node] at hnode
    cases hnode
    obtain ⟨openings, occ, hchild, hid⟩ := hruns.occurs (Lowering.mem_childIds_of_node hlowered hmem)
    exact ⟨_, occ, hpath.snoc hchild, hid⟩

/-- The stretch of the statements of a unit. -/
theorem Compiles.laid {inFunction : Bool} {body : List NodeId} {s : Script}
    (h : Compiles tree inFunction body s P) : ∃ root, Laid tree P inFunction body s root := by
  obtain ⟨z, hpos, hclosed, hrun⟩ := h.run
  let root : Stretch := ⟨⟨inFunction, []⟩, fun _ => .start, Lowering.unit body, .start, z⟩
  have hruns : root.Runs tree P := hrun
  exact ⟨root, h.encodes, rfl, rfl, rfl, hpos, hclosed, hruns, fun _ hbelow => hruns.below rfl hbelow⟩

/-- In a unit, every occurrence comes from a visit. -/
theorem Laid.visited {inFunction : Bool} {body : List NodeId} {script : Script}
    (h : Laid tree P inFunction body script s) (hpath : Path tree P s path occ) :
    Visited tree inFunction occ.id occ.first occ.last := by
  have hvisited := hpath.visited
  rwa [h.ctx] at hvisited

/-- The scripts of the functions in a unit are in its script. -/
theorem Laid.function {inFunction : Bool} {body : List NodeId} {script : Script}
    (h : Laid tree P inFunction body script s) {id : NodeId} (hbelow : tree.Below body id)
    {f : Function} (hf : tree.FunctionAt id f) :
    ∃ s' ∈ script.functions, ∃ line, FunctionScript tree f line s' := by
  obtain ⟨path, occ, hpath, rfl⟩ := h.occurs id hbelow
  obtain ⟨hlowered, hruns, -⟩ := hpath.found
  obtain ⟨nd, hnode, hkind⟩ := hf
  rw [hpath.node] at hnode
  cases hnode
  suffices hmem : ∃ s' ∈ P.functions, ∃ line, FunctionScript tree f line s' by
    obtain ⟨s', hmem, hs'⟩ := hmem
    rw [← h.encodes.functions] at hmem
    exact ⟨s', Array.mem_toList_iff.mp hmem, hs'⟩
  rcases hkind with hkind | hkind
  · simp only [Lowering.node, hkind, Option.some.injEq] at hlowered
    cases hruns.of_eq hlowered.symm with
    | emit his _ _ => cases his
    | define _ hfunction hscript _ _ => exact ⟨_, List.mem_of_getElem? hfunction, _, hscript⟩
  · simp only [Lowering.node, hkind, Option.some.injEq] at hlowered
    cases hruns.of_eq hlowered.symm with
    | emit his _ _ =>
      obtain ⟨-, i, script, _, hfunction, hscript, _⟩ := his
      exact ⟨_, List.mem_of_getElem? hfunction, _, hscript⟩

/-! ## All units of a script -/

/-- Something holds of every script in a compiled script and of the statements it is compiled
from. -/
structure Script.Throughout (tree : Tree) (script : Script)
    (p : Bool → List NodeId → Script → Prop) : Prop where
  /-- Every script in the script is a unit. -/
  covers : ∀ s, script.Contains s → ∃ inFunction body, UnitIn tree script inFunction body s
  /-- Every function in the statements of a unit is a unit in it. -/
  functions : ∀ inFunction body s, UnitIn tree script inFunction body s → ∀ id f,
    tree.Below body id → tree.FunctionAt id f → ∃ s' ∈ s.functions, UnitIn tree script true f.body s'
  holds : ∀ inFunction body s, UnitIn tree script inFunction body s → p inFunction body s

/-- What holds of each unit holds throughout. -/
theorem throughout_of_compiles {script : Script} {filename : String} {limits : Limits}
    (h : compileScript tree filename limits = .ok script) {p : Bool → List NodeId → Script → Prop}
    (hp : ∀ {inFunction : Bool} {body : List NodeId} {s : Script} {P : Program},
      UnitIn tree script inFunction body s → Compiles tree inFunction body s P →
      p inFunction body s) : script.Throughout tree p where
  covers _ hs := exists_unit_of_contains h hs
  functions _ _ _ hunit id f hbelow hf := by
    obtain ⟨P, hcompiles⟩ := hunit.compiles h
    obtain ⟨root, hlaid⟩ := hcompiles.laid
    obtain ⟨s', hmem, line, hs'⟩ := hlaid.function hbelow hf
    exact ⟨s', hmem, hunit.function hmem hs'⟩
  holds _ _ _ hunit := by
    obtain ⟨P, hcompiles⟩ := hunit.compiles h
    exact hp hunit hcompiles

end ScriptCompiler
