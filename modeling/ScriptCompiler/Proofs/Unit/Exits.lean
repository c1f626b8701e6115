import ScriptCompiler.Proofs.Unit.Enclosing
import ScriptCompiler.Proofs.Unit.Regions

/-!
# Where breaks and continues lead

A break leads behind the code of the loop, switch or labeled statement that it
leaves, and a continue to where the loop that it restarts goes on. Which
statement this is depends on the tree alone.
-/

namespace ScriptCompiler

variable {outer : Occurrence} {label : Option String} {index count k : Nat} {op : Opcode}
  {ps : Parts} {lab : Nat → Mark} {acts : List Action} {x z : Mark}
  {p : Open → Bool} {next : Next} {t : Tree} {plan : SwitchPlan} {nd : Node} {o : Opening}

/-! ## Statements that are left or restarted -/

/-- The innermost of some occurrences that is of a kind, with those inside it. -/
structure Innermost (p : NodeKind → Bool) (path : List Occurrence) (outer : Occurrence)
    (inside : List Occurrence) : Prop where
  split : ∃ around, path = around ++ outer :: inside
  kind : p outer.node.kind = true
  inside : ∀ occ ∈ inside, p occ.node.kind = false

/-- The statement that a break leaves: the innermost loop or switch, or the innermost statement with
its label. -/
def BreakOf (label : Option String) (path : List Occurrence) (outer : Occurrence) : Prop :=
  match label with
  | none => ∃ inside, Innermost NodeKind.isBreakable path outer inside
  | some label => ∃ inside, Innermost (NodeKind.isLabeled label) path outer inside

/-- The loop that a continue restarts: the innermost one, or the outermost one inside the innermost
statement with its label. -/
def ContinueOf (label : Option String) (path : List Occurrence) (outer : Occurrence) : Prop :=
  match label with
  | none => ∃ inside, Innermost NodeKind.isLoop path outer inside
  | some label => ∃ named inside, Innermost (NodeKind.isLabeled label) path named inside ∧
      inside.find? (fun occ => occ.node.kind.isLoop) = some outer

theorem Innermost.mem {p : NodeKind → Bool} {path inside : List Occurrence}
    (h : Innermost p path outer inside) : outer ∈ path := by
  obtain ⟨around, rfl⟩ := h.split
  simp

theorem BreakOf.mem {path : List Occurrence} (h : BreakOf label path outer) : outer ∈ path := by
  cases label with
  | none =>
    obtain ⟨inside, h⟩ := h
    exact h.mem
  | some label =>
    obtain ⟨inside, h⟩ := h
    exact h.mem

theorem ContinueOf.mem {path : List Occurrence} (h : ContinueOf label path outer) :
    outer ∈ path ∧ outer.node.kind.isLoop := by
  cases label with
  | none =>
    obtain ⟨inside, h⟩ := h
    exact ⟨h.mem, h.kind⟩
  | some label =>
    obtain ⟨named, inside, h, hfind⟩ := h
    obtain ⟨around, rfl⟩ := h.split
    exact ⟨by simp [List.mem_of_find?_eq_some hfind], by simpa using List.find?_some hfind⟩

section Searches

variable {ctx : Ctx} {path : List Occurrence}

theorem Ctx.findBelow?_spec (h : ctx.findBelow? p count = some index) :
    ∃ o, ctx.opens[index]? = some o ∧ p o ∧
      ∀ (j : Nat) (o' : Open), index < j → j < count → ctx.opens[j]? = some o' → p o' = false := by
  induction count with
  | zero => cases h
  | succ count ih =>
    have hbelow (hrest : ctx.findBelow? p count = some index)
        (hlast : ∀ o, ctx.opens[count]? = some o → p o = false) :
        ∃ o, ctx.opens[index]? = some o ∧ p o ∧ ∀ (j : Nat) (o' : Open), index < j →
          j < count + 1 → ctx.opens[j]? = some o' → p o' = false := by
      obtain ⟨o, ho, hp, hnone⟩ := ih hrest
      refine ⟨o, ho, hp, fun j o' hlt hj ho' => ?_⟩
      rcases Nat.lt_or_ge j count with hjc | hjc
      · exact hnone j o' hlt hjc ho'
      · obtain rfl : j = count := by omega
        exact hlast o' ho'
    rw [Ctx.findBelow?] at h
    cases hopen : ctx.opens[count]? with
    | none =>
      rw [hopen] at h
      exact hbelow h fun o ho => by rw [hopen] at ho; cases ho
    | some o =>
      rw [hopen] at h
      dsimp only at h
      split at h
      · rename_i hp
        cases h
        exact ⟨o, hopen, hp, fun j o' hlt hj => by omega⟩
      · rename_i hp
        exact hbelow h fun o' ho' => by rw [hopen] at ho'; cases ho'; simpa using hp

theorem Ctx.loopFrom?_spec {found : Nat} (h : ctx.loopFrom? index count = some found) :
    ∃ o, ctx.opens[found]? = some o ∧
      (ctx.opens.drop index).find? (fun o => o.kind.isLoop) = some o := by
  induction count generalizing index with
  | zero => cases h
  | succ count ih =>
    rw [Ctx.loopFrom?] at h
    cases hopen : ctx.opens[index]? with
    | none => simp [hopen] at h
    | some o =>
      obtain ⟨hlt, hget⟩ := List.getElem?_eq_some_iff.mp hopen
      rw [List.drop_eq_getElem_cons hlt, hget, List.find?_cons]
      rw [hopen] at h
      dsimp only at h
      split at h
      · rename_i hloop
        cases h
        exact ⟨o, hopen, by rw [hloop]⟩
      · rename_i hloop
        rw [Bool.not_eq_true] at hloop
        rw [hloop]
        exact ih h

/-- The innermost open statement that satisfies `p` belongs to the innermost occurrence that does. -/
theorem Innermost.of_findBelow?
    (hopens : ctx.opens.filter (fun o => o.kind.directs) = path.filterMap Occurrence.open?)
    {q : NodeKind → Bool} (hq : ∀ occ : Occurrence, occ.open?.any p = q occ.node.kind)
    (hp : ∀ o, p o → o.kind.directs)
    (h : ctx.findBelow? p ctx.opens.length = some index) :
    ∃ outer inside o, Innermost q path outer inside ∧ ctx.opens[index]? = some o ∧
      outer.open? = some o ∧ inside.filterMap Occurrence.open? =
        (ctx.opens.drop (index + 1)).filter fun o => o.kind.directs := by
  obtain ⟨o, ho, hpo, hnone⟩ := Ctx.findBelow?_spec h
  obtain ⟨hlt, hget⟩ := List.getElem?_eq_some_iff.mp ho
  rw [← List.take_append_drop index ctx.opens, List.drop_eq_getElem_cons hlt, hget,
    List.filter_append, List.filter_cons_of_pos (by exact hp o hpo)] at hopens
  obtain ⟨around, rest, hpath, -, hrest⟩ := List.filterMap_eq_append_iff.mp hopens.symm
  obtain ⟨between, outer, inside, rfl, -, houter, hinside⟩ := List.filterMap_eq_cons_iff.mp hrest
  refine ⟨outer, inside, o, ⟨⟨around ++ between, by rw [hpath, List.append_assoc]⟩, ?_, ?_⟩, ho,
    houter, hinside⟩
  · rw [← hq outer, houter]
    exact hpo
  · -- what is inside opens a statement that lies behind the one found
    intro occ hocc
    rw [← hq occ]
    cases hopen : occ.open? with
    | none => rfl
    | some o' =>
      have hmem : o' ∈ inside.filterMap Occurrence.open? := List.mem_filterMap.mpr ⟨occ, hocc, hopen⟩
      rw [hinside, List.mem_filter] at hmem
      obtain ⟨j, hj⟩ := List.getElem?_of_mem hmem.1
      rw [List.getElem?_drop] at hj
      exact hnone (index + 1 + j) o' (by omega) (lt_of_getElem? hj) hj

theorem open?_any_isBreakable (occ : Occurrence) :
    occ.open?.any (fun o => o.kind.isLoop || o.kind = .switch) = occ.node.kind.isBreakable := by
  rw [Occurrence.open?]
  cases occ.node.kind <;> rfl

theorem open?_any_isLoop (occ : Occurrence) :
    occ.open?.any (fun o => o.kind.isLoop) = occ.node.kind.isLoop := by
  rw [Occurrence.open?]
  cases occ.node.kind <;> rfl

theorem open?_any_isLabeled (label : String) (occ : Occurrence) :
    occ.open?.any (fun o => o.kind = .label && o.label = some label) =
      occ.node.kind.isLabeled label := by
  rw [Occurrence.open?]
  cases occ.node.kind with
  | labeled other body => simp [NodeKind.opening?, NodeKind.isLabeled, Opening.place]
  | _ => rfl

variable (hopens : ctx.opens.filter (fun o => o.kind.directs) = path.filterMap Occurrence.open?)

include hopens

/-- What a break is directed at. -/
theorem BreakOf.of_breakTarget? (h : ctx.breakTarget? label = some index) :
    ∃ outer o, BreakOf label path outer ∧ ctx.opens[index]? = some o ∧ outer.open? = some o := by
  cases label with
  | none =>
    obtain ⟨outer, inside, o, hinner, ho, houter, -⟩ := Innermost.of_findBelow? hopens
      open?_any_isBreakable (fun o ho => by simp [StatementKind.directs, ho]) h
    exact ⟨outer, o, ⟨inside, hinner⟩, ho, houter⟩
  | some label =>
    obtain ⟨outer, inside, o, hinner, ho, houter, -⟩ := Innermost.of_findBelow? hopens
      (open?_any_isLabeled label) (fun o ho => by simp_all [StatementKind.directs]) h
    exact ⟨outer, o, ⟨inside, hinner⟩, ho, houter⟩

/-- What a continue is directed at. -/
theorem ContinueOf.of_continueTarget? (h : ctx.continueTarget? label = some index) :
    ∃ outer o, ContinueOf label path outer ∧ ctx.opens[index]? = some o ∧
      outer.open? = some o := by
  cases label with
  | none =>
    obtain ⟨outer, inside, o, hinner, ho, houter, -⟩ := Innermost.of_findBelow? hopens
      open?_any_isLoop (fun o ho => by simp_all [StatementKind.directs]) h
    exact ⟨outer, o, ⟨inside, hinner⟩, ho, houter⟩
  | some label =>
    simp only [Ctx.continueTarget?, Option.bind_eq_bind, Option.bind_eq_some_iff] at h
    obtain ⟨named, hnamed, hloop⟩ := h
    obtain ⟨outer, inside, -, hinner, -, -, hinside⟩ := Innermost.of_findBelow? hopens
      (open?_any_isLabeled label) (fun o ho => by simp_all [StatementKind.directs]) hnamed
    obtain ⟨o, ho, hfind⟩ := Ctx.loopFrom?_spec hloop
    have hfound : (inside.filterMap Occurrence.open?).find? (fun o => o.kind.isLoop) = some o := by
      rw [hinside, List.find?_filter, ← hfind]
      congr 1
      funext o
      cases hkind : o.kind.isLoop <;> simp [StatementKind.directs, hkind]
    rw [List.find?_filterMap] at hfound
    simp only [open?_any_isLoop, Option.bind_eq_some_iff] at hfound
    obtain ⟨loop, hloop, hopen⟩ := hfound
    exact ⟨loop, o, ⟨outer, inside, hinner, hloop⟩, ho, hopen⟩

end Searches

/-! ## Places in the code of a statement -/

namespace Lowering

/-- A do-while loop, cut where its continues lead. -/
theorem doWhile_eq (body test : NodeId) :
    let loop : Opening := { kind := .doLoop, breaks := 2, continues := 1 }
    doWhile body test = [plain .nop, .here 0, .child [loop] body, .here 1] ++
      .child [loop] test :: [.jump .ifNe 0 .flow, .here 2] := rfl

/-- A for loop, cut where its continues lead. -/
theorem forLoop_eq (ending : Opcode) (init test update : Option NodeId) (body : NodeId) :
    let loop : Opening := { kind := .forLoop, breaks := 4, continues := 2 }
    forLoop ending init test update body =
      ((init.map (.child [loop])).toList ++ [plain ending] ++
        (if test.isSome then [.jump .goto 3 .flow] else []) ++
        [.here 1, .child [loop] body, .here 2]) ++
      ((update.map fun update => [.child [loop] update, plain .pop]).getD [] ++
        .here 3 :: ((test.map (.child [loop])).toList ++
          [.jump (if test.isSome then .ifNe else .goto) 1 .flow, .here 4])) := by
  simp [forLoop]

/-- A for-in loop, cut where its continues lead. -/
theorem forIn_eq (declared : Bool) (name : String) (object body : NodeId) :
    let loop : Opening := { kind := .forInLoop, breaks := 3, continues := 2 }
    forIn declared name object body =
      ((if declared then [.declare name] else []) ++
        [.child [loop] object, .op .iter [1] .flow, .jump .goto 2 .flow, .here 1, plain .iterNext,
          store [loop] name, plain .pop, .child [loop] body, .here 2]) ++
      plain .moreIter :: [.jump .ifNe 1 .flow, .here 3, .region .iterator 3 1 3, plain .endIter] := by
  simp [forIn]

end Lowering

/-- An instruction in its narrow or in its wide form. -/
def Script.FormAt (s : Script) (pc : Nat) (op : Opcode) : Prop :=
  ∃ i ∈ instructions s.code, i.pc = pc ∧ (i.op = op ∨ op.widened = some i.op)

/-- An instruction is a jump to a target. -/
structure Script.JumpsAt (s : Script) (pc : Nat) (op : Opcode) (target : Nat) : Prop where
  form : s.FormAt pc op
  target : Script.jumpTarget s.code pc = .ok (some target)

section Places

variable (tree : Tree) (P : Program) (s : Script) (occ : Occurrence) (target : Nat)

/-- Where a statement is left to: what follows its code, or what closes the iterator for a for-in
loop. -/
def Occurrence.LeftTo : Prop :=
  match occ.node.kind with
  | .forIn .. => ∃ k, occ.last.pos = k + 1 ∧ target = P.offset k ∧ s.OpAt target .endIter
  | _ => target = P.offset occ.last.pos

/-- Where a loop is restarted: at the jump that enters a while loop, the test of a do-while loop,
the update of a for loop, which comes right behind the body, or the query of a for-in loop. -/
def Occurrence.RestartedAt : Prop :=
  match occ.node.kind with
  | .whileLoop .. => target = P.offset occ.first.pos ∧ ∃ entry, s.JumpsAt target .goto entry
  | .doWhile body test => ∃ loop back y,
      occ.Splits tree P [Lowering.plain .nop, .here 0, .child loop body, .here 1]
        (.child loop test :: back) y ∧ target = P.offset y.pos
  | .forLoop _ _ update body => ∃ loop front back y,
      occ.Splits tree P (front ++ [.here 1, .child loop body, .here 2])
        ((update.map fun update => [.child loop update, Lowering.plain .pop]).getD [] ++
          .here 3 :: back) y ∧ target = P.offset y.pos
  | .forIn .. => ∃ front back y, occ.Splits tree P front (Lowering.plain .moreIter :: back) y ∧
      target = P.offset y.pos ∧ s.OpAt target .moreIter
  | _ => False

/-- The code of an occurrence ends with a jump to a target. -/
def Occurrence.EndsIn (op : Opcode) : Prop :=
  ∃ k, occ.last.pos = k + 1 ∧ s.JumpsAt (P.offset k) op target

end Places

section Placing

variable {tree : Tree} {P : Program} {s : Script} {occ : Occurrence}

/-- A cell stands in one of its two forms. -/
theorem Encodes.formAt (h : Encodes s P) {c : Cell Nat} (hat : P.At k c) :
    s.FormAt (P.offset k) c.op := by
  obtain ⟨wide, hk⟩ := hat
  refine ⟨_, h.instruction hk, rfl, ?_⟩
  cases hwide : c.op.widened <;> cases wide <;> simp [Cell.view, Cell.opcode, hwide]

theorem Encodes.jumpsAt (h : Encodes s P) {t : Nat} {frame : Frame}
    (hat : P.At k (.jump op t frame)) : s.JumpsAt (P.offset k) op (P.offset t) := by
  have hform := h.formAt hat
  obtain ⟨wide, hk⟩ := hat
  exact ⟨hform, h.jumpTarget hk rfl rfl⟩

/-- The last action of a run is a label. -/
theorem Run.last_here {ctx : Ctx} {label : Nat} (h : Run tree P ps ctx lab acts x z)
    (hacts : acts.getLast? = some (.here label)) : lab label = z := by
  obtain ⟨front, rfl⟩ := List.getLast?_eq_some_iff.mp hacts
  obtain ⟨y, -, hlast⟩ := h.of_append
  obtain ⟨rfl, hrest⟩ := hlast.of_here
  exact hrest.eq_of_nil

/-- The last action of a run is a jump out. -/
theorem Run.last_exit {ctx : Ctx} {front : List Action} {target : Nat}
    (h : Run tree P ps ctx lab (front ++ [.exit op target next]) x z) :
    ∃ k frame, z.pos = k + 1 ∧ P.At k (.jump op target frame) := by
  obtain ⟨y, -, hlast⟩ := h.of_append
  cases hlast with
  | emit his hstep hrest =>
    obtain ⟨-, rfl⟩ := his
    obtain rfl := hrest.eq_of_nil
    exact ⟨y.pos, y.frame, hstep.pos, hstep.stands⟩

/-- A loop, switch or label other than a for-in loop ends where its breaks lead. -/
theorem Lowering.ends_here {ctx : Ctx} (h : node t ctx plan nd = some acts)
    (ho : nd.kind.opening? = some o)
    (hforIn : ∀ declared target object body, nd.kind ≠ .forIn declared target object body) :
    acts.getLast? = some (.here o.breaks) := by
  rw [node] at h
  cases hkind : nd.kind with
  | forIn declared target object body => exact absurd hkind (hforIn _ _ _ _)
  | whileLoop | doWhile | labeled =>
    rw [hkind] at h ho
    cases h
    cases ho
    rfl
  | forLoop init test update body =>
    rw [hkind] at ho
    simp only [hkind, Option.bind_eq_bind, Option.bind_eq_some_iff, Option.pure_def,
      Option.some.injEq] at h
    obtain ⟨ending, -, rfl⟩ := h
    cases ho
    rw [forLoop, List.getLast?_append]
    rfl
  | «switch» discriminant clauses =>
    rw [hkind] at ho
    simp only [hkind, switch, Option.bind_eq_bind, Option.bind_eq_some_iff, Option.pure_def,
      Option.some.injEq] at h
    obtain ⟨head, -, rfl⟩ := h
    cases ho
    exact List.getLast?_concat
  | _ =>
    rw [hkind] at ho
    cases ho

theorem Lowering.eq_forIn {ctx : Ctx} (h : node t ctx plan nd = some acts) {declared : Bool}
    {target object body : NodeId} (hkind : nd.kind = .forIn declared target object body) :
    ∃ name, acts = forIn declared name object body := by
  simp only [node, hkind] at h
  split at h
  · cases h
    exact ⟨_, rfl⟩
  · cases h

theorem NodeKind.takesBreaks_of_opening? {kind : NodeKind} (h : kind.opening? = some o) :
    o.kind.takesBreaks := by
  cases kind <;> cases h <;> rfl

/-- Breaks lead to where the statement is left to. -/
theorem Occurrence.leftTo (hencodes : Encodes s P)
    (hlowered : Lowering.node tree occ.ctx occ.plan occ.node = some occ.acts)
    (hruns : occ.Runs tree P) {o : Open} (ho : occ.open? = some o) :
    occ.LeftTo P s (P.offset o.breakTo) := by
  obtain ⟨opening, hopening, rfl⟩ := Option.map_eq_some_iff.mp ho
  have hplace : (opening.place occ.lab).breakTo = (occ.lab opening.breaks).pos :=
    if_pos (NodeKind.takesBreaks_of_opening? hopening)
  rw [Occurrence.LeftTo, hplace]
  split
  · rename_i declared target object body hkind
    obtain ⟨name, hacts⟩ := Lowering.eq_forIn hlowered hkind
    obtain ⟨-, hend, hlast⟩ := hruns.forIn hacts
    rw [hkind] at hopening
    cases hopening
    exact ⟨_, hlast, rfl, (hencodes.opAt hend).2⟩
  · rename_i hforIn
    rw [Run.last_here hruns (Lowering.ends_here hlowered hopening hforIn)]

/-- The first action of a run is a jump. -/
theorem Run.of_jump {ctx : Ctx} {label : Nat}
    (h : Run tree P ps ctx lab (.jump op label next :: acts) x z) :
    ∃ y, P.At x.pos (.jump op (lab label).pos x.frame) ∧ y.pos = x.pos + 1 ∧
      Run tree P ps ctx lab acts y z := by
  cases h with
  | emit his hstep hrest =>
    obtain ⟨-, rfl⟩ := his
    exact ⟨_, hstep.stands, hstep.pos, hrest⟩

/-- Continues lead to where the loop is restarted. -/
theorem Occurrence.restartedAt (hencodes : Encodes s P)
    (hlowered : Lowering.node tree occ.ctx occ.plan occ.node = some occ.acts)
    (hruns : occ.Runs tree P) {o : Open} (ho : occ.open? = some o)
    (hloop : occ.node.kind.isLoop) : occ.RestartedAt tree P s (P.offset o.continueTo) := by
  obtain ⟨opening, hopening, rfl⟩ := Option.map_eq_some_iff.mp ho
  rw [Occurrence.RestartedAt]
  cases hkind : occ.node.kind with
  | whileLoop test body =>
    rw [hkind] at hopening
    cases hopening
    simp only [Lowering.node, hkind, Option.some.injEq] at hlowered
    obtain ⟨hzero, hrun⟩ := (hruns.of_eq hlowered.symm).of_here
    obtain ⟨y, hat, -, -⟩ := hrun.of_jump
    have htarget : (occ.lab 0).pos = occ.first.pos := congrArg Mark.pos hzero
    exact ⟨congrArg P.offset htarget, _, htarget ▸ hencodes.jumpsAt hat⟩
  | doWhile body test =>
    rw [hkind] at hopening
    cases hopening
    simp only [Lowering.node, hkind, Option.some.injEq] at hlowered
    obtain ⟨y, hsplits⟩ := hruns.splits (hlowered.symm.trans (Lowering.doWhile_eq body test))
    have hlabel : occ.lab 1 = y := Run.last_here hsplits.front rfl
    exact ⟨_, _, y, hsplits, congrArg (fun mark => P.offset mark.pos) hlabel⟩
  | forLoop init test update body =>
    rw [hkind] at hopening
    cases hopening
    simp only [Lowering.node, hkind, Option.bind_eq_bind, Option.bind_eq_some_iff, Option.pure_def,
      Option.some.injEq] at hlowered
    obtain ⟨ending, -, hacts⟩ := hlowered
    obtain ⟨y, hsplits⟩ := hruns.splits (hacts.symm.trans (Lowering.forLoop_eq ..))
    have hlabel : occ.lab 2 = y := Run.last_here hsplits.front (by rw [List.getLast?_append]; rfl)
    exact ⟨_, _, _, y, hsplits, congrArg (fun mark => P.offset mark.pos) hlabel⟩
  | forIn declared target object body => 
    rw [hkind] at hopening
    cases hopening
    obtain ⟨name, hacts⟩ := Lowering.eq_forIn hlowered hkind
    obtain ⟨y, hsplits⟩ := hruns.splits (hacts.trans (Lowering.forIn_eq ..))
    obtain ⟨-, hat, -, -⟩ := Run.of_op hsplits.back
    have hlabel : occ.lab 2 = y := Run.last_here hsplits.front (by rw [List.getLast?_append]; rfl)
    have htarget : P.offset (occ.lab 2).pos = P.offset y.pos := by rw [hlabel]
    have hop : s.OpAt (P.offset (occ.lab 2).pos) .moreIter := htarget ▸ (hencodes.opAt hat).2
    exact ⟨_, _, y, hsplits, htarget, hop⟩
  | _ =>
    rw [hkind] at hloop
    cases hloop

end Placing

/-- Breaks and continues in the code of some statements lead where the tree says. -/
def Script.WellDirected (tree : Tree) (inFunction : Bool) (body : List NodeId) (s : Script) : Prop :=
  ∃ P root, Laid tree P inFunction body s root ∧ ∀ path occ, Path tree P root path occ →
    (∀ label, occ.node.kind = .breakTo label → ∃ outer target, BreakOf label path outer ∧
      outer.LeftTo P s target ∧ occ.EndsIn P s target .goto) ∧
    ∀ label, occ.node.kind = .continueTo label → ∃ outer target, ContinueOf label path outer ∧
      outer.RestartedAt tree P s target ∧ occ.EndsIn P s target .goto

theorem Laid.wellDirected {tree : Tree} {P : Program} {inFunction : Bool} {body : List NodeId}
    {s : Script} {root : Stretch} (hwf : tree.wellFormed) (h : Laid tree P inFunction body s root) :
    s.WellDirected tree inFunction body := by
  refine ⟨P, root, h, fun path occ hpath => ?_⟩
  obtain ⟨hlowered, hruns, -, -⟩ := hpath.found
  have hends {index : Nat} {place : Open → Nat} {o : Open} (ho : occ.ctx.opens[index]? = some o)
      (hleave : Lowering.leaveTo occ.ctx index place = some occ.acts) :
      occ.EndsIn P s (P.offset (place o)) .goto := by
    obtain ⟨o', ho', -, hacts⟩ := Lowering.leaveTo_eq_some hleave
    obtain rfl := Option.some.inj (ho.symm.trans ho')
    obtain ⟨k, frame, hlast, hat⟩ := Run.last_exit (hruns.of_eq hacts)
    exact ⟨k, hlast, h.encodes.jumpsAt hat⟩
  have hopens (hkind : occ.node.kind.isStatement) := h.opens hwf hpath hkind
  constructor
  · intro label hkind
    simp only [Lowering.node, hkind, Option.bind_eq_bind, Option.bind_eq_some_iff] at hlowered
    obtain ⟨index, htarget, hleave⟩ := hlowered
    obtain ⟨outer, o, hbreak, ho, hopen⟩ :=
      BreakOf.of_breakTarget? (hopens (by rw [hkind]; rfl)) htarget
    obtain ⟨_, houter⟩ := hpath.enclosing hbreak.mem
    obtain ⟨hlowered', hruns', -, -⟩ := houter.found
    exact ⟨outer, _, hbreak, Occurrence.leftTo h.encodes hlowered' hruns' hopen, hends ho hleave⟩
  · intro label hkind
    simp only [Lowering.node, hkind, Option.bind_eq_bind, Option.bind_eq_some_iff] at hlowered
    obtain ⟨index, htarget, hleave⟩ := hlowered
    obtain ⟨outer, o, hcontinue, ho, hopen⟩ :=
      ContinueOf.of_continueTarget? (hopens (by rw [hkind]; rfl)) htarget
    obtain ⟨hmem, hloop⟩ := hcontinue.mem
    obtain ⟨_, houter⟩ := hpath.enclosing hmem
    obtain ⟨hlowered', hruns', -, -⟩ := houter.found
    exact ⟨outer, _, hcontinue, Occurrence.restartedAt h.encodes hlowered' hruns' hopen hloop,
      hends ho hleave⟩

/-- In every unit of a well-formed script that compiles, breaks and continues lead where the tree
says. -/
theorem compileScript_wellDirected {tree : Tree} (hwf : tree.wellFormed = true) {filename : String}
    {limits : Limits} {script : Script} (h : compileScript tree filename limits = .ok script) :
    script.Throughout tree fun inFunction body s => s.WellDirected tree inFunction body :=
  throughout_of_compiles h fun _ hcompiles =>
    let ⟨_, hlaid⟩ := hcompiles.laid
    hlaid.wellDirected hwf

/-- `while (true) { do continue; while (null); break; }` -/
def Tree.nestedLoops : Tree where
  nodes := #[⟨.bool true, 1⟩, ⟨.null, 1⟩, ⟨.continueTo none, 1⟩, ⟨.doWhile ⟨2⟩ ⟨1⟩, 1⟩,
    ⟨.breakTo none, 1⟩, ⟨.block [⟨3⟩, ⟨4⟩], 1⟩, ⟨.whileLoop ⟨0⟩ ⟨5⟩, 1⟩]
  body := [⟨6⟩]

theorem compileScript_wellDirected_nestedLoops :
    ∃ script, compileScript .nestedLoops "loops.js" ⟨none, 10⟩ = .ok script ∧
      script.code =
        #[75, 14, 0, 0, 75, 3, 0, 6, 77, 252, 255, 75, 7, 0, 7, 77, 244, 255, 60] ∧
      script.WellDirected .nestedLoops false [⟨6⟩] := by
  obtain ⟨script, hok, hcode⟩ := exists_ok (x := compileScript .nestedLoops "loops.js" ⟨none, 10⟩)
    (p := fun s => s.code =
      #[75, 14, 0, 0, 75, 3, 0, 6, 77, 252, 255, 75, 7, 0, 7, 77, 244, 255, 60])
    (by decide +kernel)
  exact ⟨script, hok, of_decide_eq_true hcode,
    (compileScript_wellDirected (by decide +kernel) hok).holds _ _ _ .script⟩

end ScriptCompiler
