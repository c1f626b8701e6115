import ScriptCompiler.Proofs.Lowering.Run

/-!
# Labels

Every label that a construct jumps to, or that a statement opened by it leads to,
is passed somewhere in the construct. So all jumps of a construct stay inside it,
but for those that leave to a place of a statement around it.
-/

namespace ScriptCompiler

variable {index limit label : Nat} {act : Action} {clauses : List Case} {plan : SwitchPlan}
  {openings : List Opening} {c : Cell Nat}

/-! ## Which labels are used -/

/-- The labels that jumps out of an opened statement lead to. -/
def Opening.labels (o : Opening) : List Nat :=
  (if o.kind.takesBreaks then [o.breaks] else []) ++
    (if o.kind.isLoop then [o.continues] else []) ++
    if o.kind = .finallyClause then [o.gosubs] else []

/-- The labels that an action may lead to. -/
def Action.labels : Action → List Nat
  | .jump _ label _ => [label]
  | .table _ _ fallback arms => fallback :: arms.filterMap id
  | .lookup fallback pairs => fallback :: pairs.map Prod.snd
  | .child openings _ => openings.flatMap Opening.labels
  | _ => []

/-- The place around that an action leads to. -/
def Action.target? : Action → Option Nat
  | .exit _ target _ => some target
  | _ => none

/-- All places of the statements around are in front of a limit. -/
def Ctx.Within (limit : Nat) (ctx : Ctx) : Prop :=
  ∀ o ∈ ctx.opens, o.breakTo ≤ limit ∧ o.continueTo ≤ limit ∧ o.finallyAt ≤ limit

/-- Actions lead to labels that are passed and to places of the statements around. -/
structure Ctx.Binds (ctx : Ctx) (acts : List Action) : Prop where
  labels : ∀ act ∈ acts, ∀ label ∈ act.labels, .here label ∈ acts
  targets : ∀ limit, ctx.Within limit → ∀ act ∈ acts, ∀ target, act.target? = some target →
    target ≤ limit

namespace Run

variable {t : Tree} {P : Program} {ps : Parts} {ctx : Ctx}
  {lab : Nat → Mark} {acts : List Action} {x z : Mark}

theorem pos_le (h : Run t P ps ctx lab acts x z) : x.pos ≤ z.pos := by
  induction h with
  | nil => exact Nat.le_refl _
  | emit his hstep _ ih => exact Nat.le_trans (by rw [hstep.pos]; omega) ih
  | child hnode _ hinner hrun _ ih₁ ih₂ => exact Nat.le_trans ih₁ ih₂
  | here _ _ ih => exact ih
  | declare _ _ _ ih => exact ih
  | define _ _ _ _ _ ih => exact ih
  | region _ _ _ ih => exact ih

/-- A label is passed inside of the code. -/
theorem here_le (h : Run t P ps ctx lab acts x z) (hmem : .here label ∈ acts) :
    x.pos ≤ (lab label).pos ∧ (lab label).pos ≤ z.pos := by
  induction h with
  | nil => cases hmem
  | emit his hstep _ ih =>
    rcases List.mem_cons.mp hmem with rfl | hmem
    · exact his.elim
    · obtain ⟨hlo, hhi⟩ := ih hmem
      exact ⟨by rw [hstep.pos] at hlo; omega, hhi⟩
  | child hnode _ hinner hrun hrest _ ih =>
    obtain ⟨hlo, hhi⟩ := ih ((List.mem_cons.mp hmem).resolve_left (by rintro ⟨⟩))
    exact ⟨Nat.le_trans hrun.pos_le hlo, hhi⟩
  | here hlabel hrest ih =>
    rcases List.mem_cons.mp hmem with heq | hmem
    · cases heq
      rw [hlabel]
      exact ⟨Nat.le_refl _, hrest.pos_le⟩
    · exact ih hmem
  | declare _ _ _ ih => exact ih ((List.mem_cons.mp hmem).resolve_left (by rintro ⟨⟩))
  | define _ _ _ _ _ ih => exact ih ((List.mem_cons.mp hmem).resolve_left (by rintro ⟨⟩))
  | region _ _ _ ih => exact ih ((List.mem_cons.mp hmem).resolve_left (by rintro ⟨⟩))

end Run

/-- The places of an opened statement are those of its labels. -/
theorem Opening.place_le {o : Opening} {lab : Nat → Mark}
    (h : ∀ label ∈ o.labels, (lab label).pos ≤ limit) :
    (o.place lab).breakTo ≤ limit ∧ (o.place lab).continueTo ≤ limit ∧
      (o.place lab).finallyAt ≤ limit := by
  simp only [labels, List.mem_append] at h
  refine ⟨?_, ?_, ?_⟩
  · show (if o.kind.takesBreaks then (lab o.breaks).pos else 0) ≤ limit
    split
    · exact h _ (.inl (.inl (by simp [*])))
    · exact Nat.zero_le _
  · show (if o.kind.isLoop then (lab o.continues).pos else 0) ≤ limit
    split
    · exact h _ (.inl (.inr (by simp [*])))
    · exact Nat.zero_le _
  · show (if o.kind = .finallyClause then (lab o.gosubs).pos else 0) ≤ limit
    split
    · exact h _ (.inr (by simp [*]))
    · exact Nat.zero_le _

theorem Ctx.Within.enter {ctx : Ctx} {lab : Nat → Mark} (h : ctx.Within limit)
    (hopenings : ∀ label ∈ openings.flatMap Opening.labels, (lab label).pos ≤ limit) :
    (ctx.enter lab openings).Within limit := by
  intro o ho
  rcases List.mem_append.mp ho with ho | ho
  · exact h o ho
  · obtain ⟨opening, hmem, rfl⟩ := List.mem_map.mp ho
    exact Opening.place_le fun label hlabel =>
      hopenings label (List.mem_flatMap.mpr ⟨opening, hmem, hlabel⟩)

/-- Where an instruction leads to. -/
theorem Action.Is.dests {P : Program} {ps : Parts} {ctx : Ctx}
    {lab : Nat → Mark} {x : Mark} {next : Next} (h : act.Is P ps ctx lab x c next) {d : Nat}
    (hd : d ∈ c.dests) :
    (∃ label ∈ act.labels, d = (lab label).pos) ∨ act.target? = some d ∨ d = x.pos := by
  cases act with
  | op code bytes n =>
    obtain ⟨-, rfl⟩ := h
    cases hd
  | literal code value =>
    obtain ⟨-, i, -, rfl⟩ := h
    cases hd
  | access openings slot named name =>
    obtain ⟨-, h⟩ := h
    split at h
    · obtain ⟨-, rfl⟩ := h
      cases hd
    · obtain ⟨code, i, -, -, rfl⟩ := h
      cases hd
  | jump code label n =>
    obtain ⟨-, rfl⟩ := h
    exact .inl ⟨label, List.mem_singleton.mpr rfl, List.mem_singleton.mp hd⟩
  | exit code target n =>
    obtain ⟨-, rfl⟩ := h
    exact .inr (.inl (congrArg some (List.mem_singleton.mp hd).symm))
  | table low high fallback arms =>
    obtain ⟨-, rfl⟩ := h
    rcases List.mem_cons.mp hd with rfl | hd
    · exact .inl ⟨fallback, List.mem_cons_self .., rfl⟩
    · obtain ⟨arm, harm, rfl⟩ := List.mem_map.mp hd
      cases arm with
      | none => exact .inr (.inr rfl)
      | some label =>
        exact .inl ⟨label, List.mem_cons_of_mem _ (List.mem_filterMap.mpr ⟨_, harm, rfl⟩), rfl⟩
  | lookup fallback pairs =>
    obtain ⟨-, literals, -, rfl⟩ := h
    rcases List.mem_cons.mp hd with rfl | hd
    · exact .inl ⟨fallback, List.mem_cons_self .., rfl⟩
    · obtain ⟨pair, hpair, rfl⟩ := List.mem_map.mp hd
      exact .inl ⟨pair.2, List.mem_cons_of_mem _ (List.mem_map.mpr ⟨pair, hpair, rfl⟩), rfl⟩
  | lambda f line =>
    obtain ⟨-, i, script, -, -, -, rfl⟩ := h
    cases hd
  | _ => exact h.elim

/-! ## Labels of constructs -/

/-- An action that passes a label. -/
def Action.passes (label : Nat) : Action → Bool
  | .here l => l = label
  | _ => false

/-- An action that leads to some labels only, and not out of the construct. -/
def Action.staysIn (passed : List Nat) (act : Action) : Bool :=
  act.labels.all passed.contains && act.target?.isNone

/-- Actions with labels that are passed, which do not leave the construct. -/
theorem Ctx.Binds.of_labels {ctx : Ctx} {acts : List Action} (passed : List Nat)
    (hpassed : (passed.all fun label => acts.any (Action.passes label)))
    (h : acts.all (Action.staysIn passed)) : ctx.Binds acts := by
  have hstays : ∀ act ∈ acts, (∀ label ∈ act.labels, label ∈ passed) ∧ act.target? = none := by
    intro act hact
    have := List.all_eq_true.mp h act hact
    simpa [Action.staysIn] using this
  refine ⟨fun act hact label hlabel => ?_, fun _ _ act hact target htarget => ?_⟩
  · have := List.all_eq_true.mp hpassed label ((hstays act hact).1 label hlabel)
    obtain ⟨found, hmem, hfound⟩ := List.any_eq_true.mp this
    cases found with
    | here l =>
      obtain rfl : l = label := by simpa [Action.passes] using hfound
      exact hmem
    | _ => cases hfound
  · rw [(hstays act hact).2] at htarget
    cases htarget

namespace Lowering

variable {t : Tree} {ctx : Ctx} {acts : List Action}

theorem binds_assign {binary : Option BinaryOp} {target value : NodeId}
    (h : assign t binary target value = some acts) : ctx.Binds acts := by
  rw [assign] at h
  split at h <;> cases h <;> cases binary <;> exact .of_labels [] rfl rfl

theorem binds_logical {op : Opcode} {operands : List NodeId} (h : logical op operands = some acts) :
    ctx.Binds acts := by
  match operands, h with
  | first :: second :: rest, h =>
    cases h
    refine .of_labels [0] ?_ ?_
    · simp [Action.passes]
    · rw [guarded, List.all_append, List.all_flatMap]
      exact Bool.and_eq_true_iff.mpr ⟨List.all_eq_true.mpr fun _ _ => rfl, rfl⟩

theorem binds_ifElse (test consequent : NodeId) (alternative : Option NodeId) :
    ctx.Binds (ifElse test consequent alternative) := by
  cases alternative with
  | none => exact .of_labels [1] rfl rfl
  | some alternative => exact .of_labels [1, 2] rfl rfl

theorem binds_forLoop (ending : Opcode) (init test update : Option NodeId) (body : NodeId) :
    ctx.Binds (forLoop ending init test update body) := by
  cases init <;> cases test <;> cases update <;> exact .of_labels [1, 2, 3, 4] rfl rfl

theorem binds_forIn (declared : Bool) (name : String) (object body : NodeId) :
    ctx.Binds (forIn declared name object body) := by
  cases declared <;> exact .of_labels [1, 2, 3] rfl rfl

/-- Children stay in a construct if the statements opened around them do. -/
theorem children_stayIn {passed : List Nat} (ids : List NodeId)
    (h : (openings.flatMap Opening.labels).all passed.contains) :
    (ids.map (.child openings)).all (Action.staysIn passed) := by
  rw [List.all_map]
  exact List.all_eq_true.mpr fun _ _ => Bool.and_eq_true_iff.mpr ⟨h, rfl⟩

theorem binds_tryBlock (body : List NodeId) (handler : Option CatchClause)
    (finalizer : Option (List NodeId)) : ctx.Binds (tryBlock body handler finalizer) := by
  refine .of_labels (if finalizer.isSome then [4, 5] else [5]) ?_ ?_
  · cases finalizer <;> simp [tryBlock, finallyClause, Action.passes]
  · cases handler <;> cases finalizer <;>
      simp only [tryBlock, catchClause, finallyClause, Option.map_some, Option.map_none,
        Option.getD_some, Option.getD_none, List.all_append, Bool.and_eq_true] <;>
      and_intros <;> first | rfl | exact children_stayIn _ rfl

theorem binds_block (body : List NodeId) : ctx.Binds (block body) :=
  .of_labels [] rfl (children_stayIn body rfl)

theorem binds_call (op : Opcode) (callee : NodeId) (args : List NodeId) :
    ctx.Binds (call op callee args) := by
  refine .of_labels [] rfl ?_
  rw [call, List.all_append]
  exact Bool.and_eq_true_iff.mpr
    ⟨Bool.and_eq_true_iff.mpr ⟨rfl, @children_stayIn _ [] args rfl⟩, rfl⟩

theorem binds_comma (values : List NodeId) : ctx.Binds (comma values) := by
  cases values with
  | nil => exact .of_labels [] rfl rfl
  | cons value values =>
    refine .of_labels [] rfl ?_
    rw [comma, List.all_cons, List.all_flatMap]
    exact Bool.and_eq_true_iff.mpr ⟨rfl, List.all_eq_true.mpr fun _ _ => rfl⟩

theorem binds_var (bindings : List Binding) : ctx.Binds (var bindings) := by
  refine .of_labels [] rfl ?_
  rw [var, List.all_flatMap]
  refine List.all_eq_true.mpr fun binding _ => ?_
  cases binding.init <;> rfl

theorem binds_letBlock (bindings : List Binding) (body : List NodeId) :
    ctx.Binds (letBlock bindings body) := by
  refine .of_labels [] rfl ?_
  simp only [letBlock, List.all_append, Bool.and_eq_true]
  refine ⟨⟨⟨rfl, ?_⟩, children_stayIn body rfl⟩, rfl⟩
  rw [List.all_flatMap]
  refine List.all_eq_true.mpr fun binding _ => ?_
  cases binding.init <;> rfl

/-! ### Ways out -/

/-- Leaving statements leads to their finally clauses at most. -/
theorem target_of_mem_leaving {pops : Nat} {opens : List Open} (hact : act ∈ leaving pops opens) :
    act.labels = [] ∧ ∀ target, act.target? = some target → ∃ o ∈ opens, target = o.finallyAt := by
  have hflush : ∀ {n : Nat} {opens : List Open}, act ∈ flush n → act.labels = [] ∧
      ∀ target, act.target? = some target → ∃ o ∈ opens, target = o.finallyAt := by
    intro n opens hmem
    rw [flush] at hmem
    split at hmem
    · obtain rfl := List.mem_singleton.mp hmem
      exact ⟨rfl, (by rintro _ ⟨⟩)⟩
    · cases hmem
  induction opens generalizing pops with
  | nil => exact hflush hact
  | cons o outer ih =>
    rw [leaving, List.mem_append, List.mem_append] at hact
    rcases hact with (hact | hact) | hact
    · rw [leavingKind] at hact
      split at hact <;> simp only [List.mem_append, List.mem_singleton, List.not_mem_nil] at hact
      · rcases hact with hact | rfl
        · exact hflush hact
        · exact ⟨rfl, fun target htarget =>
            ⟨o, List.mem_cons_self .., (Option.some.inj htarget).symm⟩⟩
      · rcases hact with hact | rfl
        · exact hflush hact
        · exact ⟨rfl, (by rintro _ ⟨⟩)⟩
      · rcases hact with hact | rfl
        · exact hflush hact
        · exact ⟨rfl, (by rintro _ ⟨⟩)⟩
    · rw [leavingScope] at hact
      split at hact <;> simp only [List.mem_append, List.mem_singleton, List.not_mem_nil] at hact
      rcases hact with hact | rfl
      · exact hflush hact
      · exact ⟨rfl, (by rintro _ ⟨⟩)⟩
    · obtain ⟨hlabels, htarget⟩ := ih hact
      refine ⟨hlabels, fun target hsome => ?_⟩
      obtain ⟨o, ho, heq⟩ := htarget target hsome
      exact ⟨o, List.mem_cons_of_mem _ ho, heq⟩

/-- Actions without labels that leave to places of the statements around. -/
theorem binds_of_leaving
    (h : ∀ act ∈ acts, act.labels = [] ∧ ∀ target, act.target? = some target →
      ∃ o ∈ ctx.opens, target = o.breakTo ∨ target = o.continueTo ∨ target = o.finallyAt) :
    ctx.Binds acts where
  labels := fun act hact label hlabel => by
    rw [(h act hact).1] at hlabel
    cases hlabel
  targets := fun limit hlimit act hact target htarget => by
    obtain ⟨o, ho, hplace⟩ := (h act hact).2 target htarget
    obtain ⟨hbreak, hcontinue, hfinally⟩ := hlimit o ho
    rcases hplace with rfl | rfl | rfl <;> assumption

theorem binds_leaveTo {place : Open → Nat} (h : leaveTo ctx index place = some acts)
    (hplace : ∀ o, place o = o.breakTo ∨ place o = o.continueTo) : ctx.Binds acts := by
  obtain ⟨o, ho, -, rfl⟩ := leaveTo_eq_some h
  refine binds_of_leaving fun act hact => ?_
  simp only [List.cons_append, List.mem_cons, List.mem_append, List.not_mem_nil, or_false] at hact
  rcases hact with rfl | hact | rfl
  · exact ⟨rfl, (by rintro _ ⟨⟩)⟩
  · obtain ⟨hlabels, htarget⟩ := target_of_mem_leaving hact
    refine ⟨hlabels, fun target hsome => ?_⟩
    obtain ⟨o, ho, heq⟩ := htarget target hsome
    exact ⟨o, List.mem_of_mem_drop (List.mem_reverse.mp ho), .inr (.inr heq)⟩
  · refine ⟨rfl, fun target htarget => ⟨o, List.mem_of_getElem? ho, ?_⟩⟩
    cases htarget
    rcases hplace o with heq | heq
    · exact .inl heq
    · exact .inr (.inl heq)

theorem binds_returnValue (value : Option NodeId) : ctx.Binds (returnValue ctx value) := by
  refine binds_of_leaving fun act hact => ?_
  rw [returnValue] at hact
  rcases List.mem_cons.mp hact with rfl | hact
  · cases value <;> exact ⟨rfl, (by rintro _ ⟨⟩)⟩
  · split at hact
    · obtain rfl := List.mem_singleton.mp hact
      exact ⟨rfl, (by rintro _ ⟨⟩)⟩
    · simp only [List.cons_append, List.mem_cons, List.mem_append, List.not_mem_nil, or_false] at hact
      rcases hact with rfl | rfl | hact | rfl
      · exact ⟨rfl, (by rintro _ ⟨⟩)⟩
      · exact ⟨rfl, (by rintro _ ⟨⟩)⟩
      · obtain ⟨hlabels, htarget⟩ := target_of_mem_leaving hact
        refine ⟨hlabels, fun target hsome => ?_⟩
        obtain ⟨o, ho, heq⟩ := htarget target hsome
        exact ⟨o, List.mem_reverse.mp ho, .inr (.inr heq)⟩
      · exact ⟨rfl, (by rintro _ ⟨⟩)⟩

/-! ### Switches -/

/-- The body of every clause is passed. -/
theorem here_mem_bodies {i : Nat} (h : index ≤ i) (hi : i < index + clauses.length) :
    .here (bodyLabel i) ∈ bodies index clauses := by
  induction clauses generalizing index with
  | nil => simp at hi; omega
  | cons clause clauses ih =>
    rw [bodies]
    rcases Nat.lt_or_eq_of_le h with hlt | rfl
    · exact List.mem_append_right _ (ih hlt (by simp only [List.length_cons] at hi; omega))
    · exact List.mem_cons_self ..

theorem fallbackLabel_cases (label : Nat) (index : Nat) (clauses : List Case) :
    fallbackLabel label index clauses = label ∨
      ∃ i, index ≤ i ∧ i < index + clauses.length ∧
        fallbackLabel label index clauses = bodyLabel i := by
  induction clauses generalizing label index with
  | nil => exact .inl rfl
  | cons clause clauses ih =>
    rw [fallbackLabel]
    rcases ih (if clause.test.isNone then bodyLabel index else label) (index + 1) with heq | hbody
    · rw [heq]
      split
      · exact .inr ⟨index, Nat.le_refl _, by simp, rfl⟩
      · exact .inl rfl
    · obtain ⟨i, hlo, hhi, heq⟩ := hbody
      exact .inr ⟨i, by omega, by simp only [List.length_cons]; omega, heq⟩

/-- A table leads to bodies. -/
theorem mem_tableArms {low : Int} {arms : Array (Option Nat)}
    (h : some label ∈ tableArms t low arms index clauses) :
    some label ∈ arms ∨ ∃ i, index ≤ i ∧ i < index + clauses.length ∧ label = bodyLabel i := by
  induction clauses generalizing arms index with
  | nil => exact .inl h
  | cons clause clauses ih =>
    rw [tableArms] at h
    split at h
    · rcases ih h with hold | ⟨i, hlo, hhi, heq⟩
      · exact .inl hold
      · exact .inr ⟨i, by omega, by simp only [List.length_cons]; omega, heq⟩
    · rcases ih h with hold | ⟨i, hlo, hhi, heq⟩
      · rcases Array.mem_or_eq_of_mem_setIfInBounds hold with hold | heq
        · exact .inl hold
        · exact .inr ⟨index, Nat.le_refl _, by simp, Option.some.inj heq⟩
      · exact .inr ⟨i, by omega, by simp only [List.length_cons]; omega, heq⟩

/-- The pairs of a lookup lead to bodies. -/
theorem mem_casePairs {pairs : List (Literal × Nat)} (h : casePairs t index clauses = some pairs)
    {pair : Literal × Nat} (hmem : pair ∈ pairs) :
    ∃ i, index ≤ i ∧ i < index + clauses.length ∧ pair.2 = bodyLabel i := by
  induction clauses generalizing index pairs with
  | nil =>
    cases h
    cases hmem
  | cons clause clauses ih =>
    have hnext : ∀ {pairs : List (Literal × Nat)}, casePairs t (index + 1) clauses = some pairs →
        pair ∈ pairs → ∃ i, index ≤ i ∧ i < index + (clause :: clauses).length ∧
          pair.2 = bodyLabel i := by
      intro pairs h hmem
      obtain ⟨i, hlo, hhi, heq⟩ := ih h hmem
      exact ⟨i, by omega, by simp only [List.length_cons]; omega, heq⟩
    rw [casePairs] at h
    split at h
    · exact hnext h hmem
    · simp only [Option.bind_eq_bind, Option.bind_eq_some_iff, Option.pure_def,
        Option.some.injEq] at h
      obtain ⟨key, -, rest, hrest, rfl⟩ := h
      rcases List.mem_cons.mp hmem with rfl | hmem
      · exact ⟨index, Nat.le_refl _, by simp, rfl⟩
      · exact hnext hrest hmem

/-- Labels of a switch: its end and the bodies of its clauses. -/
def InSwitch (clauses : List Case) (label : Nat) : Prop :=
  label = 1 ∨ ∃ i < clauses.length, label = bodyLabel i

theorem inSwitch_fallback (clauses : List Case) : InSwitch clauses (fallbackLabel 1 0 clauses) := by
  rcases fallbackLabel_cases 1 0 clauses with heq | ⟨i, -, hi, heq⟩
  · exact .inl heq
  · exact .inr ⟨i, by omega, heq⟩

theorem inSwitch_bodies (hact : act ∈ bodies index clauses) :
    (∀ label ∈ act.labels, label = 1) ∧ act.target? = none := by
  induction clauses generalizing index with
  | nil => cases hact
  | cons clause clauses ih =>
    rw [bodies] at hact
    simp only [List.cons_append, List.mem_cons, List.mem_append, List.mem_map] at hact
    rcases hact with rfl | ⟨id, -, rfl⟩ | hact
    · exact ⟨(by rintro _ ⟨⟩), rfl⟩
    · exact ⟨fun label hlabel => List.mem_singleton.mp hlabel, rfl⟩
    · exact ih hact

theorem inSwitch_caseTests (hact : act ∈ caseTests index clauses) :
    (∀ label ∈ act.labels, label = 1 ∨ ∃ i < index + clauses.length, label = bodyLabel i) ∧
      act.target? = none := by
  induction clauses generalizing index with
  | nil => cases hact
  | cons clause clauses ih =>
    rw [caseTests] at hact
    rcases List.mem_append.mp hact with hact | hact
    · cases htest : clause.test with
      | none =>
        rw [htest] at hact
        cases hact
      | some test =>
        simp only [htest, Option.map_some, Option.getD_some, List.mem_cons, List.not_mem_nil,
          or_false] at hact
        rcases hact with rfl | rfl
        · exact ⟨fun label hlabel => .inl (List.mem_singleton.mp hlabel), rfl⟩
        · exact ⟨fun label hlabel => .inr ⟨index, by simp, List.mem_singleton.mp hlabel⟩, rfl⟩
    · obtain ⟨hlabels, htarget⟩ := ih hact
      refine ⟨fun label hlabel => ?_, htarget⟩
      rcases hlabels label hlabel with heq | ⟨i, hi, heq⟩
      · exact .inl heq
      · exact .inr ⟨i, by simp only [List.length_cons]; omega, heq⟩

theorem inSwitch_head {head : List Action} (h : switchHead t clauses plan = some head)
    (hact : act ∈ head) : (∀ label ∈ act.labels, InSwitch clauses label) ∧ act.target? = none := by
  cases plan with
  | table low high =>
    rw [switchHead] at h
    split at h
    · cases h
      obtain rfl := List.mem_singleton.mp hact
      refine ⟨fun label hlabel => ?_, rfl⟩
      rcases List.mem_cons.mp hlabel with rfl | hlabel
      · exact inSwitch_fallback clauses
      · obtain ⟨arm, harm, hsome⟩ := List.mem_filterMap.mp hlabel
        obtain rfl : arm = some label := hsome
        rcases mem_tableArms (Array.mem_toList_iff.mp harm) with hold | ⟨i, -, hi, heq⟩
        · simp at hold
        · exact .inr ⟨i, by omega, heq⟩
    · cases h
  | lookup =>
    simp only [switchHead, Option.bind_eq_bind, Option.bind_eq_some_iff, Option.pure_def,
      Option.some.injEq] at h
    obtain ⟨pairs, hpairs, rfl⟩ := h
    obtain rfl := List.mem_singleton.mp hact
    refine ⟨fun label hlabel => ?_, rfl⟩
    rcases List.mem_cons.mp hlabel with rfl | hlabel
    · exact inSwitch_fallback clauses
    · obtain ⟨pair, hpair, rfl⟩ := List.mem_map.mp hlabel
      obtain ⟨i, -, hi, heq⟩ := mem_casePairs hpairs hpair
      exact .inr ⟨i, by omega, heq⟩
  | conditional =>
    cases h
    simp only [List.cons_append, List.mem_cons, List.mem_append, List.not_mem_nil, or_false] at hact
    rcases hact with rfl | hact | rfl
    · exact ⟨(by rintro _ ⟨⟩), rfl⟩
    · obtain ⟨hlabels, htarget⟩ := inSwitch_caseTests hact
      refine ⟨fun label hlabel => ?_, htarget⟩
      rcases hlabels label hlabel with heq | ⟨i, hi, heq⟩
      · exact .inl heq
      · exact .inr ⟨i, by omega, heq⟩
    · refine ⟨fun label hlabel => ?_, rfl⟩
      obtain rfl := List.mem_singleton.mp hlabel
      exact inSwitch_fallback clauses

theorem binds_switch {discriminant : NodeId} (h : switch t plan discriminant clauses = some acts) :
    ctx.Binds acts := by
  simp only [switch, Option.bind_eq_bind, Option.bind_eq_some_iff, Option.pure_def,
    Option.some.injEq] at h
  obtain ⟨head, hhead, rfl⟩ := h
  have hpassed : ∀ label, InSwitch clauses label →
      .here label ∈ part discriminant :: head ++ bodies 0 clauses ++ [.here 1] := by
    rintro label (rfl | ⟨i, hi, rfl⟩)
    · simp
    · have := @here_mem_bodies 0 clauses i (Nat.zero_le i) (by omega)
      simp [this]
  have hall : ∀ act ∈ part discriminant :: head ++ bodies 0 clauses ++ [.here 1],
      (∀ label ∈ act.labels, InSwitch clauses label) ∧ act.target? = none := by
    intro act hact
    simp only [List.cons_append, List.mem_cons, List.mem_append, List.not_mem_nil, or_false] at hact
    rcases hact with rfl | (hact | hact) | rfl
    · exact ⟨(by rintro _ ⟨⟩), rfl⟩
    · exact inSwitch_head hhead hact
    · obtain ⟨hlabels, htarget⟩ := inSwitch_bodies hact
      exact ⟨fun label hlabel => .inl (hlabels label hlabel), htarget⟩
    · exact ⟨(by rintro _ ⟨⟩), rfl⟩
  refine ⟨fun act hact label hlabel => hpassed label ((hall act hact).1 label hlabel),
    fun _ _ act hact target htarget => ?_⟩
  rw [(hall act hact).2] at htarget
  cases htarget

/-- Every construct binds its labels. -/
theorem binds_node {node : Node} (h : Lowering.node t ctx plan node = some acts) :
    ctx.Binds acts := by
  rw [Lowering.node] at h
  cases hkind : node.kind with
  | block body => rw [hkind] at h; cases h; exact binds_block body
  | var bindings => rw [hkind] at h; cases h; exact binds_var bindings
  | ifElse test consequent alternative =>
    rw [hkind] at h
    cases h
    exact binds_ifElse test consequent alternative
  | whileLoop test body => rw [hkind] at h; cases h; exact .of_labels [0, 1, 2, 3] rfl rfl
  | doWhile body test => rw [hkind] at h; cases h; exact .of_labels [0, 1, 2] rfl rfl
  | forLoop init test update body =>
    simp only [hkind, Option.bind_eq_bind, Option.bind_eq_some_iff, Option.pure_def,
      Option.some.injEq] at h
    obtain ⟨ending, -, rfl⟩ := h
    exact binds_forLoop ending init test update body
  | forIn declared target object body =>
    simp only [hkind] at h
    split at h <;> cases h
    exact binds_forIn declared _ object body
  | «switch» discriminant clauses =>
    rw [hkind] at h
    exact binds_switch h
  | labeled label body => rw [hkind] at h; cases h; exact .of_labels [1] rfl rfl
  | breakTo label =>
    simp only [hkind, Option.bind_eq_bind, Option.bind_eq_some_iff] at h
    obtain ⟨index, -, h⟩ := h
    exact binds_leaveTo h fun _ => .inl rfl
  | continueTo label =>
    simp only [hkind, Option.bind_eq_bind, Option.bind_eq_some_iff] at h
    obtain ⟨index, -, h⟩ := h
    exact binds_leaveTo h fun _ => .inr rfl
  | returnValue value =>
    simp only [hkind] at h
    split at h <;> cases h
    exact binds_returnValue value
  | tryBlock body handler finalizer =>
    rw [hkind] at h
    cases h
    exact binds_tryBlock body handler finalizer
  | letBlock bindings body => rw [hkind] at h; cases h; exact binds_letBlock bindings body
  | bool value => cases value <;> (rw [hkind] at h; cases h; exact .of_labels [] rfl rfl)
  | number value =>
    rw [hkind] at h
    cases h
    refine .of_labels [] rfl ?_
    simp only [number]
    (repeat' split) <;> rfl
  | assign binary target value => rw [hkind] at h; exact binds_assign h
  | logical operator operands => rw [hkind] at h; exact binds_logical h
  | conditional test consequent alternative =>
    rw [hkind] at h
    cases h
    exact .of_labels [0, 1] rfl rfl
  | call callee args | new callee args =>
    simp only [hkind] at h
    split at h <;> cases h
    exact binds_call _ callee args
  | comma values => rw [hkind] at h; cases h; exact binds_comma values
  | _ => rw [hkind] at h; cases h; exact .of_labels [] rfl rfl

end Lowering

/-! ## Jumps stay inside -/

/-- Code that is the run of some actions leads nowhere but into the code and to the places of
the statements around. -/
theorem Run.dests_le {t : Tree} {P : Program} {ps : Parts} {ctx : Ctx}
    {lab : Nat → Mark} {acts : List Action} {x z : Mark} (h : Run t P ps ctx lab acts x z)
    (hz : z.pos ≤ limit) (hctx : ctx.Within limit)
    (hlabels : ∀ act ∈ acts, ∀ label ∈ act.labels, (lab label).pos ≤ limit)
    (htargets : ∀ act ∈ acts, ∀ target, act.target? = some target → target ≤ limit) {k : Nat}
    (hlo : x.pos ≤ k) (hhi : k < z.pos) (hk : P.main[k]? = some c) : ∀ d ∈ c.dests, d ≤ limit := by
  have htail : ∀ {act : Action} {acts : List Action} {p : Action → Prop},
      (∀ b ∈ act :: acts, p b) → ∀ b ∈ acts, p b := fun hall b hb =>
    hall b (List.mem_cons_of_mem _ hb)
  induction h with
  | nil => omega
  | @emit ctx lab act acts x y z c' next his hstep hrest ih =>
    rcases Nat.lt_or_eq_of_le hlo with hlt | rfl
    · exact ih hz hctx (htail hlabels) (htail htargets) (by rw [hstep.pos]; omega) hhi
    · obtain ⟨wide, hat⟩ := hstep.stands
      obtain rfl := Option.some.inj (hat.symm.trans hk)
      intro d hd
      rcases his.dests hd with ⟨label, hlabel, rfl⟩ | htarget | rfl
      · exact hlabels act (List.mem_cons_self ..) label hlabel
      · exact htargets act (List.mem_cons_self ..) d htarget
      · omega
  | @child ctx lab lab' openings id node plan inner acts x y z hnode _ hinner hrun hrest ih₁ ih₂ =>
    rcases Nat.lt_or_ge k y.pos with hlt | hge
    · have hbinds := Lowering.binds_node hinner
      have hy : y.pos ≤ limit := Nat.le_trans hrest.pos_le hz
      have hinside : (ctx.enter lab openings).Within limit :=
        hctx.enter fun label hlabel => hlabels _ (List.mem_cons_self ..) label hlabel
      refine ih₁ hy hinside (fun act hact label hlabel => ?_) (hbinds.targets limit hinside) hlo hlt
      exact Nat.le_trans (hrun.here_le (hbinds.labels act hact label hlabel)).2 hy
    · exact ih₂ hz hctx (htail hlabels) (htail htargets) hge hhi
  | here _ _ ih => exact ih hz hctx (htail hlabels) (htail htargets) hlo hhi
  | declare _ _ _ ih => exact ih hz hctx (htail hlabels) (htail htargets) hlo hhi
  | define _ _ _ _ _ ih => exact ih hz hctx (htail hlabels) (htail htargets) hlo hhi
  | region _ _ _ ih => exact ih hz hctx (htail hlabels) (htail htargets) hlo hhi

end ScriptCompiler
