import ScriptCompiler.Proofs.Unit.Enclosing

/-!
# Regions nest

A region is closed behind all the code that it may cover, by the construct that
it belongs to, and it covers whole parts of this construct. So two regions are
apart or one is inside of the other, and then the inner one comes first.
-/

namespace ScriptCompiler

open Bytes

variable {finalizer : Option (List NodeId)} {plan : SwitchPlan} {k label : Nat} {e : Extent}

/-! ## Constructs that close regions -/

/-- Whether an action closes a region. -/
def Action.guards : Action → Bool
  | .region .. => true
  | _ => false

/-- No action closes a region. -/
def unguarded (acts : List Action) : Bool := acts.all fun act => !act.guards

theorem unguarded_cons (act : Action) (acts : List Action) :
    unguarded (act :: acts) = (!act.guards && unguarded acts) := List.all_cons

theorem unguarded_append (front back : List Action) :
    unguarded (front ++ back) = (unguarded front && unguarded back) := List.all_append

theorem unguarded_children (openings : List Opening) (ids : List NodeId) :
    unguarded (ids.map (.child openings)) := by
  rw [unguarded, List.all_map]
  exact List.all_eq_true.mpr fun _ _ => rfl

namespace Lowering

variable {t : Tree} {ctx : Ctx} {acts : List Action}

/-- The statement that a try statement opens around its block and its catch clause. -/
def trying (finalizer : Option (List NodeId)) : Opening :=
  { kind := if finalizer.isSome then .finallyClause else .tryBlock, gosubs := 4 }

/-- The block of a try statement and the way out of it. -/
def tried (body : List NodeId) (finalizer : Option (List NodeId)) : List Action :=
  body.map (.child [trying finalizer]) ++ callFinally finalizer.isSome ++ [.jump .goto 5 .flow]

/-- The clauses of a try statement. -/
def clauses (handler : Option CatchClause) (finalizer : Option (List NodeId)) : List Action :=
  (handler.map fun clause => catchClause (trying finalizer) clause ++
    (callFinally finalizer.isSome ++ [.jump .goto 5 .flow])).getD [] ++
    ((finalizer.map finallyClause).getD [] ++ [plain .nop, .here 5])

/-- A try statement is its code and then its regions. -/
theorem tryBlock_eq (body : List NodeId) (handler : Option CatchClause)
    (finalizer : Option (List NodeId)) : tryBlock body handler finalizer =
      (.here 0 :: plain .tryMark :: .here 1 :: (tried body finalizer ++ .here 2 ::
        clauses handler finalizer)) ++
      ((if handler.isSome then [.region .catchBlock 0 1 2] else []) ++
        if finalizer.isSome then [.region .finallyClause 0 1 4] else []) := by
  simp [tryBlock, tried, clauses, trying]

theorem unguarded_tryFront (body : List NodeId) (handler : Option CatchClause)
    (finalizer : Option (List NodeId)) :
    unguarded (.here 0 :: plain .tryMark :: .here 1 :: (tried body finalizer ++ .here 2 ::
      clauses handler finalizer)) := by
  cases handler <;> cases finalizer <;>
    simp [unguarded, tried, clauses, callFinally, catchClause, finallyClause, plain, counted,
      Action.guards]

theorem here_mem_clauses (handler : Option CatchClause) (h : finalizer.isSome) :
    .here 4 ∈ clauses handler finalizer := by
  obtain ⟨body, rfl⟩ := Option.isSome_iff_exists.mp h
  simp [clauses, finallyClause]

/-- Regions are closed by for-in loops and try statements only. -/
theorem unguarded_node {node : Node} (h : Lowering.node t ctx plan node = some acts)
    (hforIn : ∀ declared target object body, node.kind ≠ .forIn declared target object body)
    (htry : ∀ body handler finalizer, node.kind ≠ .tryBlock body handler finalizer) :
    unguarded acts := by
  refine List.all_eq_true.mpr fun act hact => ?_
  have hchild := opensAround_child h act hact
  cases act with
  | region =>
    cases hkind : node.kind with
    | forIn declared target object body => exact absurd hkind (hforIn _ _ _ _)
    | tryBlock body handler finalizer => exact absurd hkind (htry _ _ _)
    | _ =>
      rw [hkind] at hchild
      cases hchild
  | _ => rfl

end Lowering

/-! ## Stretches of cells that nest -/

namespace Extent

/-- No cell is in both. -/
def Apart (e e' : Extent) : Prop := e.stop ≤ e'.start ∨ e'.stop ≤ e.start

/-- All cells of one are cells of the other. -/
def Inside (e e' : Extent) : Prop := e'.start ≤ e.start ∧ e.stop ≤ e'.stop

end Extent

section Guarded

variable {P : Program} {x y z : Mark}

/-- The regions closed between two marks cover cells between these marks, and they nest. -/
structure Guarded (P : Program) (x z : Mark) : Prop where
  pos : x.pos ≤ z.pos
  closed : x.closed ≤ z.closed
  within : ∀ (i : Nat) (e : Extent), x.closed ≤ i → i < z.closed → P.regions[i]? = some e →
    x.pos ≤ e.start ∧ e.start ≤ e.stop ∧ e.stop ≤ z.pos
  nest : ∀ (i j : Nat) (e e' : Extent), x.closed ≤ i → i < j → j < z.closed →
    P.regions[i]? = some e → P.regions[j]? = some e' → e.Apart e' ∨ e.Inside e'

/-- No region closed between two marks covers cells on both sides of an index. -/
def Unsplit (P : Program) (x z : Mark) (k : Nat) : Prop :=
  ∀ (i : Nat) (e : Extent), x.closed ≤ i → i < z.closed → P.regions[i]? = some e →
    e.stop ≤ k ∨ k ≤ e.start

theorem Guarded.refl (P : Program) {x z : Mark} (hpos : x.pos ≤ z.pos) (hclosed : z.closed = x.closed) :
    Guarded P x z where
  pos := hpos
  closed := Nat.le_of_eq hclosed.symm
  within := fun i e hlo hhi => by omega
  nest := fun i j e e' hlo hij hhi => by omega

theorem Guarded.trans (h : Guarded P x y) (h' : Guarded P y z) : Guarded P x z where
  pos := Nat.le_trans h.pos h'.pos
  closed := Nat.le_trans h.closed h'.closed
  within := fun i e hlo hhi he => by
    have hpos := h.pos
    have hpos' := h'.pos
    rcases Nat.lt_or_ge i y.closed with hlt | hge
    · have := h.within i e hlo hlt he
      omega
    · have := h'.within i e hge hhi he
      omega
  nest := fun i j e e' hlo hij hhi he he' => by
    rcases Nat.lt_or_ge j y.closed with hlt | hge
    · exact h.nest i j e e' hlo hij hlt he he'
    · rcases Nat.lt_or_ge i y.closed with hlt' | hge'
      · have hleft := h.within i e hlo hlt' he
        have hright := h'.within j e' hge hhi he'
        exact .inl (.inl (by omega))
      · exact h'.nest i j e e' hge' hij hhi he he'

theorem Guarded.unsplit_left (h : Guarded P x z) (hk : k ≤ x.pos) : Unsplit P x z k :=
  fun i e hlo hhi he => .inr (Nat.le_trans hk (h.within i e hlo hhi he).1)

theorem Guarded.unsplit_right (h : Guarded P x z) (hk : z.pos ≤ k) : Unsplit P x z k :=
  fun i e hlo hhi he => .inl (Nat.le_trans (h.within i e hlo hhi he).2.2 hk)

theorem Unsplit.trans (h : Unsplit P x y k) (h' : Unsplit P y z k) : Unsplit P x z k :=
  fun i e hlo hhi he => by
    rcases Nat.lt_or_ge i y.closed with hlt | hge
    · exact h i e hlo hlt he
    · exact h' i e hge hhi he

/-- A region that is closed around whole parts of what has been closed before. -/
theorem Guarded.close (h : Guarded P x y) (he : P.regions[y.closed]? = some e)
    (hstart : x.pos ≤ e.start) (hle : e.start ≤ e.stop) (hstop : e.stop ≤ y.pos)
    (hleft : Unsplit P x y e.start) (hright : Unsplit P x y e.stop) : Guarded P x y.guarded where
  pos := h.pos
  closed := Nat.le_succ_of_le h.closed
  within := fun i d hlo hhi hd => by
    rcases Nat.lt_or_eq_of_le (Nat.le_of_lt_succ hhi) with hlt | rfl
    · exact h.within i d hlo hlt hd
    · obtain rfl := Option.some.inj (he.symm.trans hd)
      exact ⟨hstart, hle, hstop⟩
  nest := fun i j d d' hlo hij hhi hd hd' => by
    rcases Nat.lt_or_eq_of_le (Nat.le_of_lt_succ hhi) with hlt | rfl
    · exact h.nest i j d d' hlo hij hlt hd hd'
    · obtain rfl := Option.some.inj (he.symm.trans hd')
      rcases hleft i d hlo hij hd with hbefore | hfrom
      · exact .inl (.inl hbefore)
      · rcases hright i d hlo hij hd with huntil | hbehind
        · exact .inr ⟨hfrom, huntil⟩
        · exact .inl (.inr hbehind)

theorem Unsplit.close (h : Unsplit P x y k) (he : P.regions[y.closed]? = some e)
    (hk : e.stop ≤ k ∨ k ≤ e.start) : Unsplit P x y.guarded k := fun i d hlo hhi hd => by
  rcases Nat.lt_or_eq_of_le (Nat.le_of_lt_succ hhi) with hlt | rfl
  · exact h i d hlo hlt hd
  · obtain rfl := Option.some.inj (he.symm.trans hd)
    exact hk

end Guarded

/-! ## Runs -/

section Runs

variable {t : Tree} {P : Program} {ps : Parts} {ctx : Ctx}
  {lab : Nat → Mark} {acts : List Action} {x z : Mark}

/-- The first action of a run is an instruction. -/
theorem Run.of_op {code : Opcode} {bytes : List UInt8} {next : Next}
    (h : Run t P ps ctx lab (.op code bytes next :: acts) x z) :
    ∃ y, P.At x.pos (.plain code bytes x.frame) ∧ y.pos = x.pos + 1 ∧
      Run t P ps ctx lab acts y z := by
  cases h with
  | emit his hstep hrest =>
    obtain ⟨-, rfl⟩ := his
    exact ⟨_, hstep.stands, hstep.pos, hrest⟩

/-- The first action of a run is a label. -/
theorem Run.of_here (h : Run t P ps ctx lab (.here label :: acts) x z) :
    lab label = x ∧ Run t P ps ctx lab acts x z := by
  cases h with
  | emit his _ _ => cases his
  | here hlabel hrest => exact ⟨hlabel, hrest⟩

/-- A label that is passed in front of another one stands in front of it. -/
theorem Run.here_le_here (h : Run t P ps ctx lab acts x z) {front back : List Action} {label' : Nat}
    (hacts : acts = front ++ .here label :: back) (hmem : .here label' ∈ back) :
    (lab label).pos ≤ (lab label').pos := by
  rw [hacts] at h
  obtain ⟨y, -, hback⟩ := h.of_append
  obtain ⟨hlabel, hrest⟩ := hback.of_here
  rw [hlabel]
  exact (hrest.here_le hmem).1

/-- The first action of a run closes a region. -/
theorem Run.of_region {kind : RegionKind} {depth start stop : Nat}
    (h : Run t P ps ctx lab (.region kind depth start stop :: acts) x z) :
    ∃ n, P.regions[x.closed]? = some ⟨kind, n, (lab start).pos, (lab stop).pos⟩ ∧
      Run t P ps ctx lab acts x.guarded z := by
  cases h with
  | emit his _ _ => cases his
  | region _ hregion hrest => exact ⟨_, hregion, hrest⟩

theorem Run.guarded_of_instructs (h : Run t P ps ctx lab acts x z)
    (hacts : ∀ act ∈ acts, act.instructs) : Guarded P x z :=
  .refl P h.pos_le (h.closed_eq hacts)

/-- The code of a construct is guarded in front of the regions that it closes, and its labels stand
between whole parts of it. -/
def FrontGuarded (t : Tree) (P : Program) (ps : Parts) (ctx : Ctx)
    (lab : Nat → Mark) (acts : List Action) (x z : Mark) : Prop :=
  ∀ front back, acts = front ++ back → unguarded front = true →
    ∃ y, Run t P ps ctx lab front x y ∧ Run t P ps ctx lab back y z ∧ Guarded P x y ∧
      ∀ label, .here label ∈ front → Unsplit P x y (lab label).pos

namespace FrontGuarded

theorem of_unguarded (h : FrontGuarded t P ps ctx lab acts x z) (hacts : unguarded acts) :
    Guarded P x z := by
  obtain ⟨y, -, hback, hguarded, -⟩ := h acts [] (List.append_nil _).symm hacts
  rw [← hback.eq_of_nil]
  exact hguarded

theorem forIn {declared : Bool} {name : String} {object body : NodeId}
    (h : FrontGuarded t P ps ctx lab (Lowering.forIn declared name object body) x z) :
    Guarded P x z := by
  let loop : Opening := { kind := .forInLoop, breaks := 3, continues := 2 }
  let hoisted : List Action := if declared then [.declare name] else []
  let head : List Action := hoisted ++ [.child [loop] object, .op .iter [1] .flow, .jump .goto 2 .flow]
  let round : List Action := [Lowering.plain .iterNext, Lowering.store [loop] name,
    Lowering.plain .pop, .child [loop] body, .here 2, Lowering.plain .moreIter, .jump .ifNe 1 .flow,
    .here 3]
  obtain ⟨y, hfront, hback, hguarded, hunsplit⟩ := h (head ++ .here 1 :: round)
    [.region .iterator 3 1 3, Lowering.plain .endIter]
    (by simp [Lowering.forIn, loop, head, round, hoisted])
    (by simp only [head, hoisted]; cases declared <;> rfl)
  have hone : .here 1 ∈ head ++ .here 1 :: round := by simp
  have hthree : .here 3 ∈ head ++ .here 1 :: round := by simp [round]
  obtain ⟨n, hregion, hlast⟩ := hback.of_region
  have hclosed := hguarded.close hregion (hfront.here_le hone).1
    (hfront.here_le_here rfl (by simp [round])) (hfront.here_le hthree).2 (hunsplit 1 hone)
    (hunsplit 3 hthree)
  exact hclosed.trans (hlast.guarded_of_instructs (by simp [Lowering.plain, Action.instructs]))

theorem tryBlock {body : List NodeId} {handler : Option CatchClause}
    (h : FrontGuarded t P ps ctx lab (Lowering.tryBlock body handler finalizer) x z) :
    Guarded P x z := by
  let front : List Action := .here 0 :: Lowering.plain .tryMark :: .here 1 ::
    (Lowering.tried body finalizer ++ .here 2 :: Lowering.clauses handler finalizer)
  obtain ⟨y, hfront, hback, hguarded, hunsplit⟩ := h front _ (Lowering.tryBlock_eq ..)
    (Lowering.unguarded_tryFront ..)
  obtain ⟨y', hcatch, hfinally⟩ := hback.of_append
  have hone : .here 1 ∈ front := by simp [front]
  have htwo : .here 2 ∈ front := by simp [front]
  have hle : (lab 1).pos ≤ (lab 2).pos :=
    @Run.here_le_here _ _ _ _ _ _ _ _ _ hfront [.here 0, Lowering.plain .tryMark] _ _ rfl (by simp)
  -- the region of the catch clause ends where the clause starts, in front of any finally clause
  have hcatches : Guarded P x y' ∧ y'.pos = y.pos ∧ ∀ k, Unsplit P x y k →
      (lab 2).pos ≤ k ∨ k ≤ (lab 1).pos → Unsplit P x y' k := by
    split at hcatch
    · obtain ⟨n, hregion, hrest⟩ := hcatch.of_region
      obtain rfl := hrest.eq_of_nil
      exact ⟨hguarded.close hregion (hfront.here_le hone).1 hle (hfront.here_le htwo).2
        (hunsplit 1 hone) (hunsplit 2 htwo), rfl, fun k hk hout => hk.close hregion hout⟩
    · obtain rfl := hcatch.eq_of_nil
      exact ⟨hguarded, rfl, fun k hk _ => hk⟩
  obtain ⟨hguarded', hpos, hunsplit'⟩ := hcatches
  split at hfinally
  · rename_i hsome
    have hmem := Lowering.here_mem_clauses handler hsome
    have hfour : .here 4 ∈ front := by simp [front, hmem]
    have hbehind : (lab 2).pos ≤ (lab 4).pos :=
      @Run.here_le_here _ _ _ _ _ _ _ _ _ hfront
        (.here 0 :: Lowering.plain .tryMark :: .here 1 :: Lowering.tried body finalizer) _ _ rfl hmem
    obtain ⟨n, hregion, hrest⟩ := hfinally.of_region
    obtain rfl := hrest.eq_of_nil
    refine hguarded'.close hregion (hfront.here_le hone).1 (Nat.le_trans hle hbehind) ?_
      (hunsplit' _ (hunsplit 1 hone) (.inr (Nat.le_refl _)))
      (hunsplit' _ (hunsplit 4 hfour) (.inl hbehind))
    rw [hpos]
    exact (hfront.here_le hfour).2
  · obtain rfl := hfinally.eq_of_nil
    exact hguarded'

/-- A construct whose code is guarded in front of its regions is guarded. -/
theorem node {nd : Node} (h : FrontGuarded t P ps ctx lab acts x z)
    (hnode : Lowering.node t ctx plan nd = some acts) : Guarded P x z := by
  by_cases hforIn : ∃ declared target object body, nd.kind = .forIn declared target object body
  · obtain ⟨declared, target, object, body, hkind⟩ := hforIn
    rw [Lowering.node, hkind] at hnode
    simp only at hnode
    split at hnode <;> cases hnode
    exact h.forIn
  · by_cases htry : ∃ body handler finalizer, nd.kind = .tryBlock body handler finalizer
    · obtain ⟨body, handler, finalizer, hkind⟩ := htry
      rw [Lowering.node, hkind] at hnode
      cases hnode
      exact h.tryBlock
    · refine h.of_unguarded (Lowering.unguarded_node hnode ?_ ?_)
      · exact fun declared target object body hkind => hforIn ⟨declared, target, object, body, hkind⟩
      · exact fun body handler finalizer hkind => htry ⟨body, handler, finalizer, hkind⟩

/-- One action in front of others. -/
theorem cons {act : Action} {y : Mark} (hact : Run t P ps ctx lab [act] x y)
    (hguarded : act.guards = false → Guarded P x y) (hlabel : ∀ label, act = .here label → lab label = x)
    (hrest : Run t P ps ctx lab acts y z) (h : FrontGuarded t P ps ctx lab acts y z) :
    FrontGuarded t P ps ctx lab (act :: acts) x z := by
  intro front back hsplit hunguarded
  cases front with
  | nil =>
    refine ⟨x, .nil x, ?_, .refl P (Nat.le_refl _) rfl, fun label hmem => by cases hmem⟩
    rw [List.nil_append] at hsplit
    rw [← hsplit]
    exact hact.append hrest
  | cons act' front =>
    obtain ⟨rfl, rfl⟩ := List.cons.inj hsplit
    rw [unguarded_cons, Bool.and_eq_true, Bool.not_eq_true'] at hunguarded
    obtain ⟨y', hfront, hback, hguarded', hunsplit⟩ := h front back rfl hunguarded.2
    have hfirst := hguarded hunguarded.1
    refine ⟨y', hact.append hfront, hback, hfirst.trans hguarded', fun label hmem => ?_⟩
    rcases List.mem_cons.mp hmem with rfl | hmem
    · rw [hlabel label rfl]
      exact (hfirst.trans hguarded').unsplit_left (Nat.le_refl _)
    · exact (hfirst.unsplit_right (hfront.here_le hmem).1).trans (hunsplit label hmem)

end FrontGuarded

/-- What one step does to the regions, and from it, what a whole run does. -/
theorem Run.frontGuarded (h : Run t P ps ctx lab acts x z) :
    FrontGuarded t P ps ctx lab acts x z := by
  induction h with
  | nil x =>
    intro front back hsplit _
    obtain ⟨rfl, rfl⟩ := List.append_eq_nil_iff.mp hsplit.symm
    exact ⟨x, .nil x, .nil x, .refl P (Nat.le_refl _) rfl, fun label hmem => by cases hmem⟩
  | emit his hstep hrest ih =>
    refine .cons (.emit his hstep (.nil _)) (fun _ => ?_) ?_ hrest ih
    · exact .refl P (by rw [hstep.pos]; exact Nat.le_succ _) hstep.closed
    · rintro label rfl
      cases his
  | child hnode hvisit hinner hrun hrest ihrun ih =>
    exact .cons (.child hnode hvisit hinner hrun (.nil _)) (fun _ => ihrun.node hinner)
      (fun label hact => by cases hact) hrest ih
  | here hlabel hrest ih =>
    refine .cons (.here hlabel (.nil _)) (fun _ => .refl P (Nat.le_refl _) rfl) ?_ hrest ih
    rintro label ⟨⟩
    exact hlabel
  | declare hliteral hmem hrest ih =>
    exact .cons (.declare hliteral hmem (.nil _)) (fun _ => .refl P (Nat.le_refl _) rfl)
      (fun label hact => by cases hact) hrest ih
  | define hi hfunction hscript hmem hrest ih =>
    exact .cons (.define hi hfunction hscript hmem (.nil _))
      (fun _ => .refl P (Nat.le_refl _) rfl) (fun label hact => by cases hact) hrest ih
  | region hdepth hregion hrest ih =>
    exact .cons (.region hdepth hregion (.nil _)) (fun hguards => by cases hguards)
      (fun label hact => by cases hact) hrest ih

end Runs

end ScriptCompiler
