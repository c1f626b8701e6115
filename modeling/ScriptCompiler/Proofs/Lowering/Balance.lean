import ScriptCompiler.Proofs.Lowering.Depths
import ScriptCompiler.Proofs.Unit.Exits

/-!
# Constructs are balanced

For each construct the depth behind each of its actions is written down; that the
action leads there is computed.
-/

namespace ScriptCompiler

variable {op ending : Opcode} {ids : List NodeId} {body object id : NodeId} {clauses : List Case}
  {plan : SwitchPlan} {n index : Nat} {ctx : Ctx} {bindings : List Binding} {init : Option NodeId}
  {label : Option String} {nd : Node}

namespace Lowering

open NodeKind

variable {t : Tree} {T : Nat → Int → Prop} {ℓ : Nat → Int} {β : Option Int} {b : Int} {s : List Nat}
  {acts : List Action}

attribute [local simp] Action.Flows Next.Goes Action.marks Entered Opening.weight StatementKind.weight
  StatementKind.takesBreaks StatementKind.isLoop Opcode.pops Opcode.pushes Opcode.taken Opcode.spec
  Opcode.fixedSpec Operands.immediate_le16 plain counted store

/-! ## Expressions -/

theorem flows_number (hb : 0 ≤ b) (value : Binary64) :
    Flows t T ℓ β s [number value] b (b + 1) := by
  rw [number]
  split
  · exact .step (b + 1) (by simp [*]) (.nil rfl)
  · split_ifs <;> exact .step (b + 1) (by simp [*]) (.nil rfl)

theorem flows_binary {d e : Int} (operator : BinaryOp) (hd : 2 ≤ d)
    (he : e = d - (2 : Nat) + (1 : Nat)) : (plain operator.opcode).Flows t T ℓ β s d e := by
  cases operator <;> exact ⟨hd, he⟩

theorem flows_unary {d e : Int} (operator : UnaryOp) (hd : 1 ≤ d)
    (he : e = d - (1 : Nat) + (1 : Nat)) : (plain operator.opcode).Flows t T ℓ β s d e := by
  cases operator <;> exact ⟨hd, he⟩

theorem flows_assign (hb : 0 ≤ b) {binary : Option BinaryOp} {target value : NodeId}
    (htarget : t.holds isTarget target)
    (hobject : ∀ node, t.get? target = some node →
      ∀ id ∈ node.kind.expressions, t.holds isExpression id)
    (hvalue : t.holds isExpression value) (h : assign t binary target value = some acts) :
    Flows t T ℓ β s acts b (b + 1) := by
  cases hget : t.get? target with
  | none => rw [assign, hget] at h; cases h
  | some node =>
    have hexpressions := hobject node hget
    have hself : t.holds isExpression target := by
      rw [Tree.holds, hget] at htarget ⊢
      cases hkind : node.kind <;> simp_all [isTarget, isExpression] <;> rfl
    rw [assign, hget] at h
    cases hkind : node.kind <;> simp only [Option.map_some, hkind] at h <;> cases h <;>
      simp only [hkind, NodeKind.expressions, List.forall_mem_cons] at hexpressions
    case some.name.refl name =>
      cases binary with
      | none =>
        refine .expression ?_ (.step (b + 1) ?_ (.nil rfl))
        all_goals simp [*] <;> omega
      | some operator =>
        refine .expression ?_ (.expression ?_ (.step (b + 1)
          (flows_binary operator (by omega) (by omega)) (.step (b + 1) ?_ (.nil rfl))))
        all_goals simp [*] <;> omega
    case some.member.refl object property =>
      cases binary with
      | none =>
        refine .expression ?_ (.expression ?_ (.step (b + 1) ?_ (.nil rfl)))
        all_goals simp [*] <;> omega
      | some operator =>
        refine .expression ?_ (.step (b + 2) ?_ (.step (b + 2) ?_ (.expression ?_ (.step (b + 2)
          (flows_binary operator (by omega) (by omega)) (.step (b + 1) ?_ (.nil rfl))))))
        all_goals simp [*] <;> omega
    case some.index.refl object key =>
      cases binary with
      | none =>
        refine .expression ?_ (.expression ?_ (.expression ?_ (.step (b + 1) ?_ (.nil rfl))))
        all_goals simp [*] <;> omega
      | some operator =>
        refine .expression ?_ (.expression ?_ (.step (b + 4) ?_ (.step (b + 3) ?_ (.expression ?_
          (.step (b + 3) (flows_binary operator (by omega) (by omega))
            (.step (b + 1) ?_ (.nil rfl)))))))
        all_goals simp [*] <;> omega

theorem flows_guarded (hb : 0 ≤ b) (operator : LogicalOp) (hids : ∀ id ∈ ids, t.holds isExpression id) :
    Flows t T (fun _ => b + 1) β s (guarded operator.opcode ids) b b := by
  induction ids with
  | nil => exact .nil rfl
  | cons id ids ih =>
    refine .expression (hids id (List.mem_cons_self ..)) (.step b ?_
      (ih fun id hid => hids id (List.mem_cons_of_mem _ hid)))
    cases operator <;> exact ⟨show ((1 : Nat) : Int) ≤ b + 1 by omega, (Int.sub_zero _).symm,
      show b = b + 1 - (1 : Nat) + (0 : Nat) by omega⟩

theorem flows_logical (hb : 0 ≤ b) (operator : LogicalOp) (hids : ∀ id ∈ ids, t.holds isExpression id)
    (h : logical operator.opcode ids = some acts) :
    Flows t T (fun _ => b + 1) β s acts b (b + 1) := by
  cases ids with
  | nil => cases h
  | cons first rest =>
    cases rest with
    | nil => cases h
    | cons second rest =>
      cases h
      have hlast := hids _ (List.mem_cons_of_mem _ (List.getLast_mem (List.cons_ne_nil second rest)))
      refine (flows_guarded hb operator fun id hid => hids id ?_).append
        (.expression hlast (.step (b + 1) (by simp) (.nil rfl)))
      rcases List.mem_cons.mp hid with rfl | hid
      · exact List.mem_cons_self ..
      · exact List.mem_cons_of_mem _ (List.dropLast_subset _ hid)

theorem flows_call (hb : 0 ≤ b) (hop : op = .call ∨ op = .new) {callee : NodeId}
    {args : List NodeId} (hargs : args.length < 65536) (hcallee : t.holds isExpression callee)
    (hids : ∀ id ∈ args, t.holds isExpression id) :
    Flows t T ℓ β s (call op callee args) b (b + 1) := by
  have hcall : 0 ≤ b + 1 + (args.length : Int) := by omega
  rcases hop with rfl | rfl <;>
    exact .expression hcallee ((Flows.expressions hids).append
      (.step (b + 1) (by simp [*]; omega) (.nil rfl)))

theorem flows_comma (hb : 0 ≤ b) (hids : ∀ id ∈ ids, t.holds isExpression id) :
    Flows t T ℓ β s (comma ids) b (b + 1) := by
  cases ids with
  | nil => exact .step (b + 1) (by simp [*]) (.nil rfl)
  | cons id ids =>
    obtain ⟨hfirst, hrest⟩ := List.forall_mem_cons.mp hids
    refine .expression hfirst ?_
    clear hids hfirst
    induction ids with
    | nil => exact .nil rfl
    | cons id ids ih =>
      obtain ⟨hfirst, hrest⟩ := List.forall_mem_cons.mp hrest
      exact .step b (by simp; omega) (.expression hfirst (ih hrest))

/-! ## Statements -/

section

variable (hb : 0 ≤ b)

include hb

theorem flows_var (hids : ∀ id ∈ bindings.filterMap Binding.init, t.holds isExpression id) :
    Flows t T ℓ (some b) s (var bindings) b b := by
  induction bindings with
  | nil => exact .nil rfl
  | cons binding bindings ih =>
    have hrest := ih fun id hid => hids id (List.filterMap_subset _ (List.subset_cons_self ..) hid)
    rw [var, List.flatMap_cons]
    refine .step b rfl ?_
    cases hinit : binding.init with
    | none => exact hrest
    | some init =>
      refine .expression (hids _ (by simp [hinit])) (.step (b + 1) ?_ (.step b ?_ hrest))
      all_goals simp; omega

/-- The initial part of a for loop leaves a value exactly if a pop follows. -/
theorem flows_forInit (hinit : ∀ id ∈ init, t.holds isInit id) (hending : forEnding t init = some ending)
    {o : Opening} (hentered : Entered ℓ b [o].reverse b) :
    Flows t T ℓ (some b) s ((init.map (.child [o])).toList ++ [plain ending]) b b := by
  cases init with
  | none =>
    cases hending
    exact .step b (by simp [*]) (.nil rfl)
  | some init =>
    have hkind := hinit init rfl
    cases hget : t.get? init with
    | none => rw [forEnding, hget] at hending; cases hending
    | some node =>
      rw [forEnding, hget, Option.map_some, Option.some.injEq] at hending
      rw [Tree.holds, hget, Option.all_some] at hkind
      by_cases hvar : ∃ bindings, node.kind = .var bindings
      · obtain ⟨bindings, hvar⟩ := hvar
        rw [hvar] at hending
        cases hending
        refine .statement ?_ hentered (.step b (by simp [*]) (.nil rfl))
        rw [Tree.holds, hget, Option.all_some, hvar]
        rfl
      · obtain rfl : Opcode.pop = ending := by
          cases hnode : node.kind <;> rw [hnode] at hending <;>
            first | exact hending | exact absurd ⟨_, hnode⟩ hvar
        refine .expression ?_ (.step b (by simp; omega) (.nil rfl))
        rw [Tree.holds, hget, Option.all_some]
        cases hnode : node.kind <;> rw [hnode] at hkind <;>
          first | exact hkind | exact absurd ⟨_, hnode⟩ hvar

theorem flows_forLoop {test update : Option NodeId} (hℓ : ∀ l, ℓ l = b)
    (hinit : ∀ id ∈ init, t.holds isInit id) (hending : forEnding t init = some ending)
    (hids : ∀ id ∈ test.toList ++ update.toList, t.holds isExpression id)
    (hbody : t.holds isStatement body) :
    Flows t T ℓ (some b) s (forLoop ending init test update body) b b := by
  have hhead := flows_forInit (T := T) (ℓ := ℓ) (s := s) hb hinit hending
    (o := { kind := .forLoop, breaks := 4, continues := 2 })
    (by simp [hℓ])
  have hupdates : Flows t T ℓ (some b) s ((update.map fun update =>
      [.child [{ kind := .forLoop, breaks := 4, continues := 2 }] update, plain .pop]).getD []) b b := by
    cases update with
    | none => exact .nil rfl
    | some update => exact .expression (hids _ (by simp)) (.step b (by simp; omega) (.nil rfl))
  have hround : Flows t T ℓ (some b) s
      [.here 1, .child [{ kind := .forLoop, breaks := 4, continues := 2 }] body, .here 2] b b :=
    .step b ⟨hℓ 1, rfl⟩ (.statement hbody (by simp [hℓ]) (.step b ⟨hℓ 2, rfl⟩ (.nil rfl)))
  have hthree : Flows t T ℓ (some b) s [.here 3] b b := .step b ⟨hℓ 3, rfl⟩ (.nil rfl)
  cases test with
  | none =>
    refine (((((hhead.append (.nil rfl)).append hround).append hupdates).append hthree).append
      (.nil rfl)).append (.step b ?_ (.step b ⟨hℓ 4, rfl⟩ (.nil rfl)))
    simp [*]
  | some test =>
    have hentry : Flows t T ℓ (some b) s [.jump .goto 3 .flow] b b := .step b (by simp [*]) (.nil rfl)
    refine (((((hhead.append hentry).append hround).append hupdates).append hthree).append
      (.expression (hids _ (by simp)) (.nil rfl))).append (.step b ?_ (.step b ⟨hℓ 4, rfl⟩ (.nil rfl)))
    simp [*] <;> omega

theorem flows_forIn {declared : Bool} {name : String} (hobject : t.holds isExpression object)
    (hbody : t.holds isStatement body) :
    Flows t T (fun _ => b + 1) (some b) s (forIn declared name object body) b b := by
  have hdeclared : Flows t T (fun _ => b + 1) (some b) s
      (if declared then [.declare name] else []) b b := by
    cases declared
    · exact .nil rfl
    · exact .step b rfl (.nil rfl)
  refine hdeclared.append (.expression hobject (.step (b + 1) ?_ (.step (b + 1) ?_ (.step (b + 1) ?_
    (.step (b + 2) ?_ (.step (b + 2) ?_ (.step (b + 1) ?_ (.statement hbody ?_ (.step (b + 1) ?_
      (.step (b + 2) ?_ (.step (b + 1) ?_ (.step (b + 1) ?_ (.step (b + 1) ?_
        (.step b ?_ (.nil rfl)))))))))))))))
  all_goals simp [*] <;> omega

theorem flows_letBlock {body : List NodeId}
    (hids : ∀ id ∈ bindings.filterMap Binding.init, t.holds isExpression id)
    (hbody : ∀ id ∈ body, t.holds isStatement id) :
    Flows t T (fun _ => b) (some b) s (letBlock bindings body) b b := by
  rw [letBlock]
  generalize hblock : ({ kind := .block, names := some (bindings.map Binding.name) } : Opening) = block
  generalize hlength : min bindings.length 65535 = count
  have hcount : count < 65536 := by omega
  have hinits : ∀ {inner : List Binding},
      (∀ id ∈ inner.filterMap Binding.init, t.holds isExpression id) →
      Flows t T (fun _ => b) (some b) s (inner.flatMap fun binding => (binding.init.map fun init =>
        [.child [block] init, .access [block] .setLocalPop none binding.name]).getD [])
        (b + count) (b + count) := by
    intro inner hinner
    induction inner with
    | nil => exact .nil rfl
    | cons binding inner ih =>
      have hrest := ih fun id hid => hinner id (List.filterMap_subset _ (List.subset_cons_self ..) hid)
      rw [List.flatMap_cons]
      cases hinit : binding.init with
      | none => exact hrest
      | some init =>
        exact .expression (hinner _ (by simp [hinit])) (.step (b + count) (by simp; omega) hrest)
  have hopen : Flows t T (fun _ => b) (some b) s [.here 0, counted .enterBlock count] b (b + count) :=
    .step b ⟨rfl, rfl⟩ (.step (b + count) (by simp [*]) (.nil rfl))
  have hstatements : Flows t T (fun _ => b) (some b) s (body.map (.child [block])) (b + count)
      (b + count) :=
    .statements hbody (by simp [← hblock, ← hlength])
  refine ((hopen.append (hinits hids)).append hstatements).append (.step b ?_ (.nil rfl))
  simp [*] <;> omega

/-! ## Try statements -/

theorem flows_callFinally (finalized : Bool) :
    Flows t T (fun _ => b) (some b) s (callFinally finalized) b b := by
  cases finalized with
  | false => exact .nil rfl
  | true => exact .step b (by simp [*]) (.nil rfl)

theorem flows_catchClause {around : Opening} (hweight : around.weight = 0) {clause : CatchClause}
    (hbody : ∀ id ∈ clause.body, t.holds isStatement id) :
    Flows t T (fun _ => b) (some b) s (catchClause around clause) b b := by
  let caught : Opening := { kind := .catchBlock, names := some [clause.param], top := 2 }
  have hentered : Entered (fun _ => b) b [around, caught].reverse (b + 1) := by
    have hcaught : (caught.weight : Int) = 1 := rfl
    exact ⟨by rintro ⟨⟩, by rintro ⟨⟩, by rintro ⟨⟩, by simp [hcaught, hweight, -Opening.weight]⟩
  have hopen : Flows t T (fun _ => b) (some b) s [counted .enterBlock 1, plain .exception,
      .access [around, caught] .setLocalPop none clause.param] b (b + 1) :=
    .step (b + 1) (by simp [*]) (.step (b + 2) (by simp; omega) (.step (b + 1) (by simp; omega)
      (.nil rfl)))
  exact (hopen.append (.statements hbody hentered)).append (.step b (by simp; omega) (.nil rfl))

theorem flows_finallyClause {body : List NodeId} (hbody : ∀ id ∈ body, t.holds isStatement id) :
    Flows t T (fun _ => b) (some b) s (finallyClause body) b b := by
  have hopen : Flows t T (fun _ => b) (some b) s [.here 4, plain .finallyMark] b (b + 2) :=
    .step b ⟨rfl, rfl⟩ (.step (b + 2) (by simp [*]) (.nil rfl))
  exact (hopen.append (.statements hbody (by simp))).append (.step b (by simp; omega) (.nil rfl))

theorem flows_tryBlock {body : List NodeId} {handler : Option CatchClause}
    {finalizer : Option (List NodeId)} (hbody : ∀ id ∈ body, t.holds isStatement id)
    (hhandler : ∀ clause ∈ handler, ∀ id ∈ clause.body, t.holds isStatement id)
    (hfinalizer : ∀ body ∈ finalizer, ∀ id ∈ body, t.holds isStatement id) :
    Flows t T (fun _ => b) (some b) s (tryBlock body handler finalizer) b b := by
  let around : Opening :=
    { kind := if finalizer.isSome then .finallyClause else .tryBlock, gosubs := 4 }
  have hweight : around.weight = 0 := by
    cases finalizer <;> rfl
  have hopen : Flows t T (fun _ => b) (some b) s [.here 0, plain .tryMark, .here 1] b b :=
    .step b ⟨rfl, rfl⟩ (.step b (by simp [*]) (.step b ⟨rfl, rfl⟩ (.nil rfl)))
  have hstatements : Flows t T (fun _ => b) (some b) s (body.map (.child [around])) b b :=
    .statements hbody ⟨fun _ => rfl, fun _ => rfl, fun _ => rfl, by simp [hweight, -Opening.weight]⟩
  have hcall := flows_callFinally (t := t) (T := T) (s := s) hb finalizer.isSome
  have hexit : Flows t T (fun _ => b) (some b) s [.jump .goto 5 .flow] b b :=
    .step b (by simp [*]) (.nil rfl)
  have hstop : Flows t T (fun _ => b) (some b) s [.jump .goto 5 .flow, .here 2] b b :=
    hexit.append (.step b ⟨rfl, rfl⟩ (.nil rfl))
  have hcatch : Flows t T (fun _ => b) (some b) s ((handler.map fun clause => catchClause around clause ++
      callFinally finalizer.isSome ++ [.jump .goto 5 .flow]).getD []) b b := by
    cases handler with
    | none => exact .nil rfl
    | some clause =>
      exact ((flows_catchClause hb hweight (hhandler _ rfl)).append hcall).append hexit
  have hfinally : Flows t T (fun _ => b) (some b) s ((finalizer.map finallyClause).getD []) b b := by
    cases finalizer with
    | none => exact .nil rfl
    | some body => exact flows_finallyClause hb (hfinalizer _ rfl)
  have hend : Flows t T (fun _ => b) (some b) s [plain .nop, .here 5] b b :=
    .step b (by simp [*]) (.step b ⟨rfl, rfl⟩ (.nil rfl))
  have hregion : ∀ (present : Bool) (kind : RegionKind) (stop : Nat),
      Flows t T (fun _ => b) (some b) s (if present then [.region kind 0 1 stop] else []) b b := by
    intro present kind stop
    cases present
    · exact .nil rfl
    · exact .step b ⟨fun _ => rfl, rfl⟩ (.nil rfl)
  exact ((((((((hopen.append hstatements).append hcall).append hstop).append hcatch).append
    hfinally).append hend).append (hregion _ _ _)).append (hregion _ _ _))

/-! ## Switches -/

omit hb in
theorem flows_bodies (hℓ : ∀ l, ℓ l = b)
    (hbody : ∀ id ∈ clauses.flatMap Case.body, t.holds isStatement id) (index : Nat) :
    Flows t T ℓ (some b) s (bodies index clauses) b b := by
  induction clauses generalizing index s with
  | nil => exact .nil rfl
  | cons clause clauses ih =>
    rw [List.flatMap_cons] at hbody
    refine .cons ⟨hℓ _, rfl⟩ (Flows.append (.statements (fun id hid =>
      hbody id (List.mem_append_left _ hid)) ?_) ?_)
    · simp [opened, hℓ]
    · exact ih (fun id hid => hbody id (List.mem_append_right _ hid)) _

theorem flows_caseTests (hℓ : ∀ l, ℓ l = b)
    (htests : ∀ id ∈ clauses.filterMap Case.test, t.holds isExpression id) (index : Nat) :
    Flows t T ℓ (some b) s (caseTests index clauses) (b + 1) (b + 1) := by
  induction clauses generalizing index with
  | nil => exact .nil rfl
  | cons clause clauses ih =>
    have hrest := ih (fun id hid =>
      htests id (List.filterMap_subset _ (List.subset_cons_self ..) hid)) (index + 1)
    rw [caseTests]
    cases htest : clause.test with
    | none => exact hrest
    | some test =>
      refine .expression (htests _ (by simp [htest])) (.step (b + 1) ?_ hrest)
      simp [*]
      omega

theorem flows_switch {discriminant : NodeId} (hdiscriminant : t.holds isExpression discriminant)
    (htests : ∀ id ∈ clauses.filterMap Case.test, t.holds isExpression id)
    (hbody : ∀ id ∈ clauses.flatMap Case.body, t.holds isStatement id)
    (h : switch t plan discriminant clauses = some acts) :
    Flows t T (fun _ => b) (some b) s acts b b := by
  rw [switch, Option.bind_eq_bind, Option.bind_eq_some_iff] at h
  obtain ⟨head, hhead, hacts⟩ := h
  cases hacts
  have hflows : Flows t T (fun _ => b) (some b) s head (b + 1) b := by
    cases plan with
    | table low high =>
      simp only [switchHead] at hhead
      split_ifs at hhead
      cases hhead
      exact .cons ⟨by omega, by omega, fun _ _ => (Int.add_sub_cancel b 1).symm⟩ (.nil rfl)
    | lookup =>
      rw [switchHead, Option.bind_eq_bind, Option.bind_eq_some_iff] at hhead
      obtain ⟨pairs, -, hpairs⟩ := hhead
      cases hpairs
      exact .cons ⟨by omega, by omega, fun _ _ => (Int.add_sub_cancel b 1).symm⟩ (.nil rfl)
    | conditional =>
      cases hhead
      refine .step (b + 1) ?_ ((flows_caseTests hb (fun _ => rfl) htests 0).append
        (.step b ?_ (.nil rfl)))
      all_goals simp [*] <;> omega
  have hstart : Flows t T (fun _ => b) (some b) s (part discriminant :: head) b b :=
    .expression hdiscriminant hflows
  exact (hstart.append (flows_bodies (fun _ => rfl) hbody 0)).append (.step b ⟨rfl, rfl⟩ (.nil rfl))

end

/-! ## Ways out -/

theorem flows_flush {d : Int} (hd : 0 ≤ d) (hpops : n < 65536) :
    Flows t T ℓ β s (flush n) (d + n) d := by
  rw [flush]
  split_ifs with hpos
  · exact .step d (by simp [*] <;> omega) (.nil rfl)
  · exact .nil (by omega)

/-- Leaving a statement because of its kind gives back what it keeps, or puts that off. -/
theorem flows_leavingKind {o : Open} {d : Int} (hd : o.kind.weight ≤ d) (hpops : n < 65536)
    (hfinally : o.kind = .finallyClause → T o.finallyAt d) :
    Flows t T ℓ β s (leavingKind n o).1 (d + n)
      (d - o.kind.weight + (leavingKind n o).2) := by
  have hflush := flows_flush (t := t) (T := T) (ℓ := ℓ) (β := β) (s := s) (d := d) (by omega) hpops
  cases hkind : o.kind <;> rw [hkind] at hd hfinally <;> simp only [leavingKind, hkind]
  case finallyClause =>
    have hnonneg : (0 : Int) ≤ d := hd
    exact hflush.append (.step d (by simp [*]) (.nil (by simp)))
  case withObject | forInLoop =>
    have hone : (1 : Int) ≤ d := hd
    exact hflush.append (.step (d - 1) (by simp [*]) (.nil (by simp)))
  case subroutine =>
    exact .nil (by simp only [StatementKind.weight]; omega)
  all_goals exact .nil (by simp [StatementKind.weight])

/-- Leaving a statement because of its names gives back their slots. -/
theorem flows_leavingScope {o : Open} {d : Int}
    (hd : ((o.scope.map fun scope => scope.count.toNat).getD 0 : Nat) ≤ d) (hpops : n < 65536) :
    (leavingScope n o).2 ≤ n ∧
      Flows t T ℓ β s (leavingScope n o).1 (d + n)
        (d - ((o.scope.map fun scope => scope.count.toNat).getD 0 : Nat) + (leavingScope n o).2) := by
  have hflush := flows_flush (t := t) (T := T) (ℓ := ℓ) (β := β) (s := s) (d := d) (by omega) hpops
  cases hscope : o.scope with
  | none =>
    simp only [leavingScope, hscope]
    exact ⟨Nat.le_refl _, .nil (by simp)⟩
  | some scope =>
    simp only [hscope, Option.map_some, Option.getD_some] at hd
    simp only [leavingScope, hscope, Option.map_some, Option.getD_some]
    have hcount := scope.count.toNat_lt
    exact ⟨Nat.zero_le _, hflush.append (.step _ (by simp [*]) (.nil rfl))⟩

/-- Leaving statements gives back what they keep on the stack. -/
theorem flows_leaving {os outer : List Open} {d : Int} (hin : Inside T (os ++ outer) d)
    (hpops : n < 65536) (hleavable : leavable n os) :
    ∃ e, Inside T outer e ∧ Flows t T ℓ β s (leaving n os) (d + n) e := by
  induction os generalizing d n with
  | nil => exact ⟨d, hin, flows_flush hin.nonneg hpops⟩
  | cons o os ih =>
    obtain ⟨-, -, hfinally, hrest⟩ := hin
    simp only [leavable, Bool.and_eq_true, decide_eq_true_eq] at hleavable
    have hweight : (o.kind.weight : Int) +
        ((o.scope.map fun scope => scope.count.toNat).getD 0 : Nat) ≤ d := by
      have := hrest.nonneg
      simp only [Open.weight] at this
      omega
    have hkind := flows_leavingKind (t := t) (T := T) (ℓ := ℓ) (β := β) (s := s) (o := o)
      (d := d) (n := n) (by omega) hpops hfinally
    obtain ⟨hkept, hscope⟩ := flows_leavingScope (t := t) (T := T) (ℓ := ℓ) (β := β) (s := s)
      (o := o) (d := d - o.kind.weight) (n := (leavingKind n o).2) (by omega) hleavable.1
    obtain ⟨e, houter, hleaving⟩ := ih hrest (n := (leavingScope (leavingKind n o).2 o).2)
      (by omega) hleavable.2
    rw [Open.weight, Int.natCast_add, ← Int.sub_sub] at hleaving
    exact ⟨e, houter, (hkind.append hscope).append hleaving⟩

/-- A jump out to a statement arrives with what is inside of it. -/
theorem flows_leaveTo (hb : 0 ≤ b) (hin : Inside T ctx.opens.reverse b)
    {place : Open → Nat} {o : Open} (ho : ctx.opens[index]? = some o)
    (hplace : ∀ outer e, Inside T (o :: outer) e → T (place o) e)
    (h : leaveTo ctx index place = some acts) : Flows t T (fun _ => b) β s acts b b := by
  obtain ⟨o', ho', hleavable, rfl⟩ := leaveTo_eq_some h
  obtain rfl := Option.some.inj (ho.symm.trans ho')
  obtain ⟨hlt, hget⟩ := List.getElem?_eq_some_iff.mp ho
  have hsplit : ctx.opens.reverse =
      (ctx.opens.drop (index + 1)).reverse ++ o :: (ctx.opens.take index).reverse := by
    conv_lhs => rw [← List.take_append_drop index ctx.opens, List.drop_eq_getElem_cons hlt, hget]
    simp
  rw [hsplit] at hin
  obtain ⟨e, houter, hleaving⟩ := flows_leaving (t := t) (ℓ := fun _ => b) (β := β) (n := 0) hin
    (by omega) hleavable
  rw [Int.natCast_zero, Int.add_zero] at hleaving
  have hnonneg := houter.nonneg
  have htarget := hplace _ e houter
  refine .step b ?_ (hleaving.append (.step b ?_ (.nil rfl)))
  all_goals simp [*]

theorem flows_returnValue (hb : 0 ≤ b) (hin : Inside T ctx.opens.reverse b)
    (hleavable : leavable 0 ctx.opens.reverse) {value : Option NodeId}
    (hvalue : ∀ id ∈ value, t.holds isExpression id) :
    Flows t T (fun _ => b) β s (returnValue ctx value) b b := by
  have hstart : Flows t T (fun _ => b) β s [(value.map part).getD (plain .push)] b (b + 1) := by
    cases value with
    | none => exact .step (b + 1) (by simp [*]) (.nil rfl)
    | some value => exact .expression (hvalue value rfl) (.nil rfl)
  have hin' : Inside T (ctx.opens.reverse ++ []) b := by rwa [List.append_nil]
  obtain ⟨e, houter, hleaving⟩ := flows_leaving (t := t) (ℓ := fun _ => b) (β := β) (n := 0) hin'
    (by omega) hleavable
  rw [Int.natCast_zero, Int.add_zero] at hleaving
  have hnonneg : 0 ≤ e := houter.nonneg
  rw [returnValue]
  split
  · exact hstart.append (.step b (by simp; omega) (.nil rfl))
  · refine hstart.append (.step b ?_ (.step b ?_ (hleaving.append (.step b ?_ (.nil rfl)))))
    all_goals simp [*] <;> omega

/-! ## Nodes -/

/-- The statement that a break leaves takes breaks. -/
theorem takesBreaks_of_breakTarget? (h : ctx.breakTarget? label = some index) :
    ∃ o, ctx.opens[index]? = some o ∧ o.kind.takesBreaks := by
  cases label with
  | none =>
    obtain ⟨o, ho, hp, -⟩ := Ctx.findBelow?_spec h
    refine ⟨o, ho, ?_⟩
    cases hkind : o.kind <;> rw [hkind] at hp <;> first | rfl | cases hp
  | some label =>
    obtain ⟨o, ho, hp, -⟩ := Ctx.findBelow?_spec h
    refine ⟨o, ho, ?_⟩
    rw [Bool.and_eq_true, decide_eq_true_eq] at hp
    rw [hp.1]
    rfl

/-- What a continue restarts is a loop. -/
theorem isLoop_of_continueTarget? (h : ctx.continueTarget? label = some index) :
    ∃ o, ctx.opens[index]? = some o ∧ o.kind.isLoop := by
  cases label with
  | none =>
    obtain ⟨o, ho, hp, -⟩ := Ctx.findBelow?_spec h
    exact ⟨o, ho, hp⟩
  | some label =>
    rw [Ctx.continueTarget?, Option.bind_eq_bind, Option.bind_eq_some_iff] at h
    obtain ⟨named, -, hloop⟩ := h
    obtain ⟨o, ho, hfind⟩ := Ctx.loopFrom?_spec hloop
    exact ⟨o, ho, by simpa using List.find?_some hfind⟩

/-- Every statement of a well-formed tree leaves the stack as it finds it. -/
theorem flows_statement (hwf : t.wellFormed) (hnode : t.get? id = some nd)
    (hkind : nd.kind.isStatement) (hacts : node t ctx plan nd = some acts) (hb : 0 ≤ b)
    (hin : Inside T ctx.opens.reverse b) : ∃ ℓ, Flows t T ℓ (some b) [] acts b b := by
  obtain ⟨kind, line⟩ := nd
  have hstatements : ∀ child ∈ kind.statements, t.holds isStatement child :=
    fun child hmem => Tree.isStatement_of_mem hwf hnode hmem
  have hexpressions : ∀ child ∈ kind.expressions, t.holds isExpression child :=
    fun child hmem => Tree.isExpression_of_mem hwf hnode hmem
  have hfits := Tree.wellFormed_fits hwf hnode
  cases kind with
    simp only [NodeKind.statements, NodeKind.expressions, List.forall_mem_cons] at hstatements hexpressions
  | empty =>
    cases hacts
    exact ⟨fun _ => b, .nil rfl⟩
  | block body =>
    cases hacts
    exact ⟨fun _ => b, .statements hstatements (by simp)⟩
  | expression value =>
    cases hacts
    refine ⟨fun _ => b, .expression hexpressions.1 ?_⟩
    cases ctx.inFunction <;> exact .step b (by simp; omega) (.nil rfl)
  | var bindings =>
    cases hacts
    exact ⟨fun _ => b, flows_var hb hexpressions⟩
  | ifElse test consequent alternative =>
    cases hacts
    refine ⟨fun _ => b, ?_⟩
    cases alternative with
    | none =>
      refine .expression ?_ (.step b ?_ (.statement ?_ ?_ (.step b ?_ (.nil rfl))))
      all_goals simp [*] <;> omega
    | some alternative =>
      have halternative := hstatements.2 alternative (List.mem_singleton.mpr rfl)
      refine .expression ?_ (.step b ?_ (.statement ?_ ?_ (.step b ?_ (.step b ?_
        (.statement halternative ?_ (.step b ?_ (.nil rfl)))))))
      all_goals simp [*] <;> omega
  | whileLoop test body =>
    cases hacts
    refine ⟨fun _ => b, .step b ?_ (.step b ?_ (.step b ?_ (.statement ?_ ?_ (.step b ?_
      (.expression ?_ (.step b ?_ (.step b ?_ (.nil rfl))))))))⟩
    all_goals simp [*] <;> omega
  | doWhile body test =>
    cases hacts
    refine ⟨fun _ => b, .step b ?_ (.step b ?_ (.statement ?_ ?_ (.step b ?_ (.expression ?_
      (.step b ?_ (.step b ?_ (.nil rfl)))))))⟩
    all_goals simp [*] <;> omega
  | forLoop init test update body =>
    simp only [node, Option.bind_eq_bind, Option.bind_eq_some_iff, Option.pure_def,
      Option.some.injEq] at hacts
    obtain ⟨ending, hending, rfl⟩ := hacts
    simp only [Tree.fits, Bool.and_eq_true, Option.all_eq_true] at hfits
    exact ⟨fun _ => b, flows_forLoop hb (fun _ => rfl) (fun id hid => hfits.2 id hid) hending
      hexpressions hstatements.1⟩
  | forIn declared target object body =>
    simp only [node] at hacts
    split at hacts <;> cases hacts
    exact ⟨_, flows_forIn hb hexpressions.1 hstatements.1⟩
  | switch discriminant clauses => exact ⟨_, flows_switch hb hexpressions.1 hexpressions.2 hstatements hacts⟩
  | labeled label body =>
    cases hacts
    refine ⟨fun _ => b, .step b ?_ (.statement ?_ ?_ (.step b ?_ (.nil rfl)))⟩
    all_goals simp [*]
  | breakTo label =>
    simp only [node, Option.bind_eq_bind, Option.bind_eq_some_iff] at hacts
    obtain ⟨index, hindex, hleave⟩ := hacts
    obtain ⟨o, ho, htakes⟩ := takesBreaks_of_breakTarget? hindex
    exact ⟨_, flows_leaveTo hb hin ho (fun _ _ h => h.1 htakes) hleave⟩
  | continueTo label =>
    simp only [node, Option.bind_eq_bind, Option.bind_eq_some_iff] at hacts
    obtain ⟨index, hindex, hleave⟩ := hacts
    obtain ⟨o, ho, hloop⟩ := isLoop_of_continueTarget? hindex
    exact ⟨_, flows_leaveTo hb hin ho (fun _ _ h => h.2.1 hloop) hleave⟩
  | returnValue value =>
    simp only [node] at hacts
    split at hacts <;> cases hacts
    rename_i hleavable
    exact ⟨_, flows_returnValue hb hin hleavable fun id hid =>
      hexpressions id (Option.mem_toList.mpr hid)⟩
  | throwValue value =>
    cases hacts
    refine ⟨fun _ => b, .expression ?_ (.step b ?_ (.nil rfl))⟩
    all_goals simp [*] <;> omega
  | tryBlock body handler finalizer =>
    cases hacts
    refine ⟨_, flows_tryBlock hb (fun id hid => hstatements id ?_)
      (fun clause hclause id hid => hstatements id ?_) fun inner hinner id hid => hstatements id ?_⟩
    · exact List.mem_append_left _ (List.mem_append_left _ hid)
    · obtain rfl := hclause
      exact List.mem_append_left _ (List.mem_append_right _ hid)
    · obtain rfl := hinner
      exact List.mem_append_right _ hid
  | withObject object body =>
    cases hacts
    refine ⟨fun _ => b, .expression ?_ (.step (b + 1) ?_ (.statement ?_ ?_ (.step b ?_ (.nil rfl))))⟩
    all_goals simp [*] <;> omega
  | letBlock bindings body =>
    cases hacts
    exact ⟨_, flows_letBlock hb hexpressions hstatements⟩
  | functionDecl f =>
    cases hacts
    exact ⟨fun _ => b, .step b rfl (.nil rfl)⟩
  | _ => cases hkind

/-- Every expression of a well-formed tree adds one value. -/
theorem flows_expression (hwf : t.wellFormed) (hnode : t.get? id = some nd)
    (hkind : nd.kind.isStatement = false) (hacts : node t ctx plan nd = some acts) (hb : 0 ≤ b) :
    ∃ ℓ, Flows t T ℓ none [] acts b (b + 1) := by
  obtain ⟨kind, line⟩ := nd
  have hexpressions : ∀ child ∈ kind.expressions, t.holds isExpression child :=
    fun child hmem => Tree.isExpression_of_mem hwf hnode hmem
  have hfits := Tree.wellFormed_fits hwf hnode
  cases kind with simp only [NodeKind.expressions, List.forall_mem_cons] at hexpressions
  | undefined | null | string value | name name | function f =>
    cases hacts
    exact ⟨fun _ => b, .step (b + 1) (by simp [*]) (.nil rfl)⟩
  | bool value =>
    cases value <;> cases hacts <;>
      exact ⟨fun _ => b, .step (b + 1) (by simp [*]) (.nil rfl)⟩
  | number value =>
    cases hacts
    exact ⟨fun _ => b, flows_number hb value⟩
  | member object property =>
    cases hacts
    refine ⟨fun _ => b, .expression ?_ (.step (b + 1) ?_ (.nil rfl))⟩
    all_goals simp [*] <;> omega
  | index object key =>
    cases hacts
    refine ⟨fun _ => b, .expression ?_ (.expression ?_ (.step (b + 1) ?_ (.nil rfl)))⟩
    all_goals simp [*] <;> omega
  | assign operator target value =>
    simp only [Tree.fits, Bool.and_eq_true] at hfits
    exact ⟨fun _ => b, flows_assign hb hfits.2
      (fun node hget id hid => Tree.isExpression_of_mem hwf hget hid)
      hexpressions.1 hacts⟩
  | unary operator operand =>
    cases hacts
    exact ⟨fun _ => b, .expression hexpressions.1
      (.step (b + 1) (flows_unary operator (by omega) (by omega)) (.nil rfl))⟩
  | binary operator left right =>
    cases hacts
    exact ⟨fun _ => b, .expression hexpressions.1 (.expression hexpressions.2.1
      (.step (b + 1) (flows_binary operator (by omega) (by omega)) (.nil rfl)))⟩
  | logical operator operands => exact ⟨_, flows_logical hb operator hexpressions hacts⟩
  | conditional test consequent alternative =>
    cases hacts
    refine ⟨fun l => if l = 0 then b else b + 1, .expression ?_ (.step b ?_ (.expression ?_
      (.step b ?_ (.step b ?_ (.expression ?_ (.step (b + 1) ?_ (.nil rfl)))))))⟩
    all_goals simp [*] <;> omega
  | call callee args =>
    simp only [node] at hacts
    split at hacts <;> cases hacts
    exact ⟨fun _ => b, flows_call hb (.inl rfl) ‹_› hexpressions.1 hexpressions.2⟩
  | new callee args =>
    simp only [node] at hacts
    split at hacts <;> cases hacts
    exact ⟨fun _ => b, flows_call hb (.inr rfl) ‹_› hexpressions.1 hexpressions.2⟩
  | comma values =>
    cases hacts
    exact ⟨fun _ => b, flows_comma hb hexpressions⟩
  | _ => cases hkind

end Lowering

end ScriptCompiler
