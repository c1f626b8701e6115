import ScriptCompiler.Proofs.Lowering.Depths
import ScriptCompiler.Proofs.Lowering.Labels
import ScriptCompiler.Proofs.Unit.Regions

/-!
# Stack depths along runs

Where the constructs of a tree are balanced, a run goes through its cells at the
depths that its actions say, and every edge of the code leads to a cell at the
depth with which it arrives.
-/

namespace ScriptCompiler

open Bytes

variable {openings : List Opening} {nd : Node} {plan : SwitchPlan}

/-- All constructs of a tree are balanced, wherever they stand. -/
def Tree.Balanced (t : Tree) : Prop :=
  ∀ (T : Nat → Int → Prop) (b : Int) (id : NodeId) (nd : Node) (ctx : Ctx) (plan : SwitchPlan)
    (acts : List Action), t.get? id = some nd → Lowering.node t ctx plan nd = some acts → 0 ≤ b →
    (nd.kind.isStatement = true → Inside T ctx.opens.reverse b →
      ∃ ℓ, Flows t T ℓ (some b) [] acts b b) ∧
    (nd.kind.isExpression = true → ∃ ℓ, Flows t T ℓ none [] acts b (b + 1))

/-- The cell at an index of the body is reached at a depth. -/
def Program.DepthAt (P : Program) (k : Nat) (d : Int) : Prop :=
  ∃ c, P.main[k]? = some c ∧ c.frame.depth = d

/-! ## One instruction -/

/-- What the depths along actions say about the instruction of the first one. -/
structure Flows.Instruction (t : Tree) (T : Nat → Int → Prop) (ℓ : Nat → Int) (β : Option Int)
    (seen : List Nat) (lab : Nat → Mark) (act : Action) (acts : List Action) (x : Mark) (c : Cell Nat)
    (next : Next) (d e m : Int) : Prop where
  rest : Flows t T ℓ β seen acts e m
  uses : c.uses ≤ d
  frame : c.frame = x.frame
  goes : next.Goes ℓ seen c.uses c.defs d e
  dests : ∀ dest ∈ c.dests, (∃ label ∈ act.labels, dest = (lab label).pos ∧ ℓ label = d - c.op.taken) ∨
    T dest (d - c.op.taken) ∨ dest = x.pos ∧ c.op = .tableSwitch ∧ ∃ label ∈ act.labels,
      c.dests.head? = some (lab label).pos ∧ ℓ label = d - c.op.taken

section Instructions

variable {t : Tree} {P : Program} {ps : Parts} {T : Nat → Int → Prop}
  {ℓ : Nat → Int} {β : Option Int} {d m : Int} {seen : List Nat} {ctx : Ctx} {lab : Nat → Mark} {act : Action}
  {acts : List Action} {x : Mark} {c : Cell Nat} {next : Next}

/-- An instruction whose counts the specification gives. -/
theorem Cell.counts_of_spec {δ : Type} {c : Cell δ} {p q : Nat} (hp : c.op.spec.uses = some p)
    (hq : c.op.spec.defs = some q) : c.uses = p ∧ c.defs = q := by
  rw [Cell.uses, Cell.defs, hp, hq]
  exact ⟨rfl, rfl⟩

theorem Flows.instruction (h : Flows t T ℓ β seen (act :: acts) d m)
    (his : act.Is P ps ctx lab x c next) :
    ∃ e, Flows.Instruction t T ℓ β seen lab act acts x c next d e m := by
  obtain _ | @⟨_, _, _, _, e, _, hact, hrest⟩ := h
  refine ⟨e, ?_⟩
  -- an instruction whose counts the specification gives
  have hspec {p q : Nat} {code : Opcode} {i : Nat} (hp : code.spec.uses = some p)
      (hq : code.spec.defs = some q) (hd : p ≤ d) (he : e = d - p + q)
      (hrest : Flows t T ℓ β seen acts e m) :
      Flows.Instruction t T ℓ β seen lab act acts x (.plain code (le16 i).toList x.frame) .flow d e m := by
    obtain ⟨huses, hdefs⟩ := Cell.counts_of_spec (c := (.plain code (le16 i).toList x.frame : Cell Nat)) hp hq
    exact ⟨hrest, by rwa [huses], rfl, show e = _ by rw [huses, hdefs, he], by rintro _ ⟨⟩⟩
  cases act with
  | op code bytes next =>
    obtain ⟨rfl, rfl⟩ := his
    exact ⟨hrest, hact.1, rfl, hact.2, by rintro _ ⟨⟩⟩
  | literal code value =>
    obtain ⟨rfl, i, -, rfl⟩ := his
    obtain ⟨p, q, hp, hq, hd, he⟩ := hact
    exact hspec hp hq hd he hrest
  | access openings slot named name =>
    obtain ⟨rfl, his⟩ := his
    obtain ⟨p, q, hcode, hd, he⟩ := hact
    split at his
    · obtain ⟨-, rfl⟩ := his
      obtain ⟨hp, hq⟩ := hcode _ (List.mem_cons_self ..)
      exact hspec hp hq hd he hrest
    · obtain ⟨code, i, rfl, -, rfl⟩ := his
      obtain ⟨hp, hq⟩ := hcode code (by simp)
      exact hspec hp hq hd he hrest
  | jump code label next =>
    obtain ⟨rfl, rfl⟩ := his
    exact ⟨hrest, hact.1, rfl, hact.2.2, fun dest hdest =>
      .inl ⟨_, List.mem_singleton.mpr rfl, List.mem_singleton.mp hdest, hact.2.1⟩⟩
  | exit code target next =>
    obtain ⟨rfl, rfl⟩ := his
    refine ⟨hrest, hact.1, rfl, hact.2.2, fun dest hdest => .inr (.inl ?_)⟩
    rw [List.mem_singleton.mp hdest]
    exact hact.2.1
  | table low high fallback arms =>
    obtain ⟨rfl, rfl⟩ := his
    obtain ⟨hd, rfl, hlabels⟩ := hact
    refine ⟨hrest, hd, rfl, show d - 1 = d - (1 : Nat) + (0 : Nat) by omega, fun dest hdest => ?_⟩
    have hfallback := hlabels fallback (List.mem_cons_self ..)
    rcases List.mem_cons.mp hdest with rfl | hdest
    · exact .inl ⟨_, List.mem_cons_self .., rfl, hfallback⟩
    · obtain ⟨arm, harm, rfl⟩ := List.mem_map.mp hdest
      cases arm with
      | none => exact .inr (.inr ⟨rfl, rfl, _, List.mem_cons_self .., rfl, hfallback⟩)
      | some label =>
        have hmem := List.mem_cons_of_mem fallback (List.mem_filterMap.mpr ⟨_, harm, id_eq (some label)⟩)
        exact .inl ⟨label, hmem, rfl, hlabels label hmem⟩
  | lookup fallback pairs =>
    obtain ⟨rfl, literals, -, rfl⟩ := his
    obtain ⟨hd, rfl, hlabels⟩ := hact
    refine ⟨hrest, hd, rfl, show d - 1 = d - (1 : Nat) + (0 : Nat) by omega, fun dest hdest => .inl ?_⟩
    rcases List.mem_cons.mp hdest with rfl | hdest
    · exact ⟨_, List.mem_cons_self .., rfl, hlabels fallback (List.mem_cons_self ..)⟩
    · obtain ⟨pair, hpair, rfl⟩ := List.mem_map.mp hdest
      have hmem := List.mem_cons_of_mem fallback (List.mem_map_of_mem (f := Prod.snd) hpair)
      exact ⟨pair.2, hmem, rfl, hlabels pair.2 hmem⟩
  | lambda f line =>
    obtain ⟨rfl, i, script, -, -, -, rfl⟩ := his
    obtain ⟨hd, rfl⟩ := hact
    exact ⟨hrest, hd, rfl, show d + 1 = d - (0 : Nat) + (1 : Nat) by omega, by rintro _ ⟨⟩⟩
  | _ => cases his

end Instructions

/-! ## Depths of marks -/

/-- A mark at a depth that the frame of the program has room for, with enough on the stack for all
instructions up to there. -/
structure Mark.Stands (P : Program) (x : Mark) (d : Int) : Prop where
  quiet : x.quiet
  depth : x.frame.depth = d
  nonneg : 0 ≤ d
  room : d ≤ P.high

section Runs

variable {t : Tree} {P : Program} {ps : Parts} {T : Nat → Int → Prop}
  {ℓ : Nat → Int} {β : Option Int} {b d e m : Int} {seen : List Nat} {ctx : Ctx} {lab : Nat → Mark} {act : Action}
  {acts : List Action} {x y z : Mark} {c : Cell Nat} {next : Next}

/-- No depth that the frame has room for is cut off. -/
theorem StackDepth.after_eq_of_room {high : Nat} (hhigh : high < 2147483647) {uses defs : Nat}
    (huses : uses ≤ d) (hroom : (StackDepth.after d uses defs).toNat ≤ high) :
    StackDepth.after d uses defs = d - uses + defs ∧ d - uses + defs ≤ high := by
  simp only [StackDepth.after, StackDepth.least, StackDepth.greatest] at hroom ⊢
  omega

theorem Mark.Stands.hoisted (hhigh : P.high < 2147483647) (h : x.Stands P d) :
    x.hoisted.Stands P d := by
  obtain ⟨hquiet, rfl, hnonneg, hroom⟩ := h
  refine ⟨⟨hquiet, hnonneg⟩, ?_, hnonneg, hroom⟩
  simp only [Mark.hoisted, StackDepth.after, StackDepth.least, StackDepth.greatest]
  omega

theorem Mark.Stands.guarded (h : x.Stands P d) : x.guarded.Stands P d :=
  ⟨h.quiet, h.depth, h.nonneg, h.room⟩

/-- The mark behind an instruction stands at the depth with which the actions go on. -/
theorem Step.stands_behind (hhigh : P.high < 2147483647) (hstep : Step P lab x c next y)
    (hx : x.Stands P d) (huses : c.uses ≤ d) (hframe : c.frame = x.frame)
    (hgoes : next.Goes ℓ seen c.uses c.defs d e)
    (hseen : ∀ label ∈ seen, (lab label).frame.depth = ℓ label) : y.Stands P e := by
  have hbehind := hstep.behind
  have hdepth : c.frame.depth = d := by rw [hframe, hx.depth]
  rw [hstep.frame] at hbehind
  have hquiet : y.quiet := by
    refine hstep.quiet hx.quiet (by rw [hx.depth]; exact huses) fun label hnext => ?_
    subst hnext
    obtain ⟨hlabel, hl, -⟩ := hgoes
    rw [hseen _ hlabel]
    exact hl
  cases next with
  | flow =>
    obtain rfl := hgoes
    simp only [Next.frame, Cell.out, hdepth] at hbehind
    obtain ⟨heq, hroom⟩ := StackDepth.after_eq_of_room hhigh huses hbehind
    refine ⟨hquiet, ?_, by omega, hroom⟩
    rw [hstep.frame]
    simp only [Next.frame, Cell.out, hdepth, heq]
  | back label =>
    obtain ⟨hlabel, hl, rfl⟩ := hgoes
    simp only [Next.frame, hseen _ hlabel] at hbehind
    obtain ⟨heq, hroom⟩ := StackDepth.after_eq_of_room hhigh
      (show ((0 : Nat) : Int) ≤ _ by omega) hbehind
    refine ⟨hquiet, ?_, by omega, by omega⟩
    rw [hstep.frame]
    simp only [Next.frame, hseen _ hlabel, heq]
    omega
  | drop =>
    obtain ⟨hzero, hdefs, hd, rfl⟩ := hgoes
    have hroom := hx.room
    have hafter : StackDepth.after d 0 0 = d := by
      simp only [StackDepth.after, StackDepth.least, StackDepth.greatest]
      omega
    refine ⟨hquiet, ?_, by omega, by omega⟩
    rw [hstep.frame]
    simp only [Next.frame, Cell.out, hdepth, hzero, hdefs, hafter]

/-- Inside the statements opened by a construct. -/
theorem Inside.enter (hin : Inside T ctx.opens.reverse b)
    (hentered : Entered ℓ b openings.reverse d)
    (hlab : ∀ label ∈ openings.flatMap Opening.labels, T (lab label).pos (ℓ label)) :
    Inside T (ctx.enter lab openings).opens.reverse d := by
  simp only [Ctx.enter, List.reverse_append, ← List.map_reverse]
  have hlab' : ∀ o ∈ openings.reverse, ∀ label ∈ o.labels, T (lab label).pos (ℓ label) :=
    fun o ho label hlabel => hlab label (List.mem_flatMap.mpr ⟨o, List.mem_reverse.mp ho, hlabel⟩)
  generalize openings.reverse = os at hentered hlab'
  induction os generalizing d with
  | nil =>
    obtain rfl := hentered
    exact hin
  | cons o os ih =>
    obtain ⟨hbreaks, hcontinues, hgosubs, houter⟩ := hentered
    obtain ⟨hlabels, hrest⟩ := List.forall_mem_cons.mp hlab'
    refine ⟨fun htakes => ?_, fun hloop => ?_, fun hfinally => ?_, ?_⟩
    · have htakes : o.kind.takesBreaks := htakes
      rw [← hbreaks htakes]
      simpa [Opening.place, htakes] using hlabels o.breaks (by simp [Opening.labels, htakes])
    · have hloop : o.kind.isLoop := hloop
      rw [← hcontinues hloop]
      simpa [Opening.place, hloop] using hlabels o.continues (by simp [Opening.labels, hloop])
    · have hfinally : o.kind = .finallyClause := hfinally
      rw [← hgosubs hfinally]
      simpa [Opening.place, hfinally] using hlabels o.gosubs (by simp [Opening.labels, hfinally])
    · rw [Opening.weight_place]
      exact ih houter hrest

/-- The depths along a child, and along what follows it. -/
theorem Flows.child {T' : Nat → Int → Prop} {id : NodeId} {inner : List Action}
    (h : Flows t T ℓ β seen (.child openings id :: acts) d m) (hbalanced : t.Balanced)
    (hnode : t.get? id = some nd)
    (hinner : Lowering.node t (ctx.enter lab openings) plan nd = some inner) (hd : 0 ≤ d)
    (hin : ∀ b, β = some b → Inside T' ctx.opens.reverse b)
    (hlab : ∀ label ∈ openings.flatMap Opening.labels, T' (lab label).pos (ℓ label)) :
    ∃ ℓ' β' e, Flows t T' ℓ' β' [] inner d e ∧
      (∀ b, β' = some b → Inside T' (ctx.enter lab openings).opens.reverse b) ∧
      Flows t T ℓ β seen acts e m := by
  obtain ⟨hstatement, hexpression⟩ := hbalanced T' d id nd _ plan inner hnode hinner hd
  obtain _ | ⟨⟨hkind, ⟨b, hbase, hentered⟩, rfl⟩ | ⟨hkind, rfl⟩, hrest⟩ := h
  · rw [Tree.holds, hnode] at hkind
    have hinside := (hin _ hbase).enter hentered hlab
    obtain ⟨ℓ', hflows'⟩ := hstatement hkind hinside
    exact ⟨ℓ', _, _, hflows', fun b hb => Option.some.inj hb ▸ hinside, hrest⟩
  · rw [Tree.holds, hnode] at hkind
    obtain ⟨ℓ', hflows'⟩ := hexpression hkind
    exact ⟨ℓ', _, _, hflows', by rintro _ ⟨⟩, hrest⟩

/-- The end of a run and its labels have the depths that its actions say, and if the run ends at a
cell with its depth, it starts at one, and so do its labels. -/
structure Passes (P : Program) (lab : Nat → Mark) (ℓ : Nat → Int) (acts : List Action)
    (x z : Mark) (d m : Int) : Prop where
  stands : z.Stands P m
  depths : ∀ label, .here label ∈ acts → (lab label).frame.depth = ℓ label
  lands : P.DepthAt z.pos m →
    P.DepthAt x.pos d ∧ ∀ label, .here label ∈ acts → P.DepthAt (lab label).pos (ℓ label)

/-- One more action in front, which is no label. -/
theorem Passes.cons (h : Passes P lab ℓ acts y z e m) (hact : ∀ label, .here label ≠ act)
    (hx : P.DepthAt y.pos e → P.DepthAt x.pos d) : Passes P lab ℓ (act :: acts) x z d m where
  stands := h.stands
  depths label hmem := h.depths label ((List.mem_cons.mp hmem).resolve_left (hact label))
  lands hz := ⟨hx (h.lands hz).1, fun label hmem =>
    (h.lands hz).2 label ((List.mem_cons.mp hmem).resolve_left (hact label))⟩

theorem Run.passes (hbalanced : t.Balanced) (hhigh : P.high < 2147483647)
    (h : Run t P ps ctx lab acts x z) (hflows : Flows t T ℓ β seen acts d m) (hx : x.Stands P d)
    (hin : ∀ b, β = some b → Inside (fun _ _ => True) ctx.opens.reverse b)
    (hseen : ∀ label ∈ seen, (lab label).frame.depth = ℓ label) :
    Passes P lab ℓ acts x z d m := by
  induction h generalizing T ℓ β seen d m with
  | nil x =>
    cases hflows with
    | nil hd => exact ⟨hd ▸ hx, by rintro _ ⟨⟩, fun hz => ⟨hd ▸ hz, by rintro _ ⟨⟩⟩⟩
  | emit his hstep _ ih =>
    obtain ⟨e, hinstruction⟩ := hflows.instruction his
    have hy := hstep.stands_behind hhigh hx hinstruction.uses hinstruction.frame hinstruction.goes hseen
    obtain ⟨wide, hat⟩ := hstep.stands
    refine (ih hinstruction.rest hy hin hseen).cons ?_ fun _ =>
      ⟨_, hat, (congrArg Frame.depth hinstruction.frame).trans hx.depth⟩
    rintro _ rfl
    exact his.elim
  | @child ctx lab lab' openings id node plan inner acts x y z hnode hvisit hinner hrun hrest ihrun
      ihrest =>
    obtain ⟨ℓ', β', e, hflows', hin', hflows⟩ := hflows.child hbalanced hnode hinner hx.nonneg hin
      fun _ _ => trivial
    have hchild := ihrun hflows' hx hin' (by rintro _ ⟨⟩)
    exact (ihrest hflows hchild.stands hin hseen).cons (by rintro _ ⟨⟩) fun hy => (hchild.lands hy).1
  | here hlabel _ ih =>
    obtain _ | ⟨⟨hl, rfl⟩, hflows⟩ := hflows
    have hpassed := (congrArg (·.frame.depth) hlabel).trans (hx.depth.trans hl.symm)
    have hrest := ih hflows hx hin (List.forall_mem_cons.mpr ⟨hpassed, hseen⟩)
    refine ⟨hrest.stands, fun label hmem => ?_, fun hz => ⟨(hrest.lands hz).1, fun label hmem => ?_⟩⟩
    · rcases List.mem_cons.mp hmem with heq | hmem
      · cases heq
        exact hpassed
      · exact hrest.depths label hmem
    · rcases List.mem_cons.mp hmem with heq | hmem
      · cases heq
        rw [hlabel, hl]
        exact (hrest.lands hz).1
      · exact (hrest.lands hz).2 label hmem
  | declare _ _ _ ih | define _ _ _ _ _ ih =>
    obtain _ | ⟨rfl, hflows⟩ := hflows
    exact (ih hflows (hx.hoisted hhigh) hin hseen).cons (by rintro _ ⟨⟩) id
  | region _ _ _ ih =>
    obtain _ | ⟨⟨-, rfl⟩, hflows⟩ := hflows
    exact (ih hflows hx.guarded hin hseen).cons (by rintro _ ⟨⟩) id

end Runs

/-! ## Edges -/

/-- A cell has what it pops, and leads to cells at the depths with which it arrives there. An arm of
a table that leads to the table itself is a hole, which stands for the fallback. -/
structure Program.Flowing (P : Program) (k : Nat) (c : Cell Nat) : Prop where
  uses : c.uses ≤ c.frame.depth
  room : c.frame.depth ≤ P.high
  falls : c.op.fallsThrough = true → P.DepthAt (k + 1) (c.frame.depth - c.uses + c.defs)
  dests : ∀ dest ∈ c.dests, P.DepthAt dest (c.frame.depth - c.op.taken) ∨
    dest = k ∧ c.op = .tableSwitch ∧ ∃ fallback, c.dests.head? = some fallback ∧
      P.DepthAt fallback (c.frame.depth - c.op.taken)

/-- The labels of a region are passed in its construct. -/
theorem Lowering.region_passed {t : Tree} {ctx : Ctx} {acts : List Action}
    (h : Lowering.node t ctx plan nd = some acts) {kind : RegionKind} {depth start stop : Nat}
    (hmem : .region kind depth start stop ∈ acts) (hkind : kind ≠ .iterator) :
    .here depth ∈ acts ∧ .here stop ∈ acts := by
  rcases Lowering.region_mem h hmem with ⟨_, _, _, _, _, -, -, hiterator, -⟩ |
    ⟨body, handler, finalizer, -, rfl, hclause⟩
  · exact absurd hiterator hkind
  · have hdepth : depth = 0 := by
      rw [tryBlock_eq, List.mem_append, List.mem_append] at hmem
      rcases hmem with hmem | hmem | hmem
      · cases List.all_eq_true.mp (unguarded_tryFront body handler finalizer) _ hmem
      · split at hmem
        · cases List.mem_singleton.mp hmem
          rfl
        · cases hmem
      · split at hmem
        · cases List.mem_singleton.mp hmem
          rfl
        · cases hmem
    subst hdepth
    refine ⟨by simp [tryBlock], ?_⟩
    rcases hclause with ⟨-, -, rfl, -⟩ | ⟨-, -, rfl, hsome⟩
    · simp [tryBlock]
    · obtain ⟨inner, rfl⟩ := Option.isSome_iff_exists.mp hsome
      simp [tryBlock, finallyClause]

section Edges

variable {t : Tree} {P : Program} {ps : Parts} {ℓ : Nat → Int}
  {β : Option Int} {b d e m : Int} {seen : List Nat} {ctx : Ctx} {lab : Nat → Mark} {act : Action}
  {acts : List Action} {x y z : Mark} {c : Cell Nat} {next : Next}

/-- The cells and regions of a stretch fit the depths of the program. -/
structure Program.Sealed (P : Program) (x z : Mark) : Prop where
  cells : ∀ k c, x.pos ≤ k → k < z.pos → P.main[k]? = some c → P.Flowing k c
  regions : ∀ i e, x.closed ≤ i → i < z.closed → P.regions[i]? = some e → e.kind ≠ .iterator →
    P.DepthAt e.stop e.depth

theorem Program.Sealed.refl (P : Program) (hpos : z.pos ≤ x.pos) (hclosed : z.closed ≤ x.closed) :
    P.Sealed x z :=
  ⟨fun _ _ hlo hhi _ => by omega, fun _ _ hlo hhi _ _ => by omega⟩

theorem Program.Sealed.trans (h : P.Sealed x y) (h' : P.Sealed y z) : P.Sealed x z where
  cells k c hlo hhi hk := by
    rcases Nat.lt_or_ge k y.pos with hlt | hge
    · exact h.cells k c hlo hlt hk
    · exact h'.cells k c hge hhi hk
  regions i e hlo hhi he hkind := by
    rcases Nat.lt_or_ge i y.closed with hlt | hge
    · exact h.regions i e hlo hlt he hkind
    · exact h'.regions i e hge hhi he hkind

/-- What the labels of a list of actions have to fit. -/
structure Labeled (P : Program) (lab : Nat → Mark) (ℓ : Nat → Int) (acts : List Action) : Prop where
  jumps : ∀ act ∈ acts, ∀ label ∈ act.labels, P.DepthAt (lab label).pos (ℓ label)
  regions : ∀ kind depth start stop, .region kind depth start stop ∈ acts → kind ≠ .iterator →
    (lab depth).frame.depth = ℓ depth ∧ P.DepthAt (lab stop).pos (ℓ stop)

theorem Labeled.tail (h : Labeled P lab ℓ (act :: acts)) : Labeled P lab ℓ acts where
  jumps act hact := h.jumps act (List.mem_cons_of_mem _ hact)
  regions kind depth start stop hmem := h.regions kind depth start stop (List.mem_cons_of_mem _ hmem)

/-- The labels of a node fit once its run does. -/
theorem Run.labeled {T : Nat → Int → Prop} (hbalanced : t.Balanced) (hhigh : P.high < 2147483647)
    (hnode : Lowering.node t ctx plan nd = some acts) (h : Run t P ps ctx lab acts x z)
    (hflows : Flows t T ℓ β [] acts d m) (hx : x.Stands P d)
    (hin : ∀ b, β = some b → Inside (fun _ _ => True) ctx.opens.reverse b) (hz : P.DepthAt z.pos m) :
    Labeled P lab ℓ acts := by
  obtain ⟨-, hdepths, hlands⟩ := h.passes hbalanced hhigh hflows hx hin (by rintro _ ⟨⟩)
  have hlands := (hlands hz).2
  refine ⟨fun act hact label hlabel => hlands label ((Lowering.binds_node hnode).labels act hact label hlabel),
    fun kind depth start stop hmem hkind => ?_⟩
  obtain ⟨hdepth, hstop⟩ := Lowering.region_passed hnode hmem hkind
  exact ⟨hdepths depth hdepth, hlands stop hstop⟩

/-- A region that closes fits the depths once its end does. -/
theorem Program.Sealed.guarded {r : Extent} (hregion : P.regions[x.closed]? = some r)
    (h : r.kind ≠ .iterator → P.DepthAt r.stop r.depth) : P.Sealed x x.guarded where
  cells k _ hlo hhi _ := by
    have hsame : x.guarded.pos = x.pos := rfl
    omega
  regions i _ hlo hhi he hkind := by
    have hsame : x.guarded.closed = x.closed + 1 := rfl
    obtain rfl : i = x.closed := by omega
    obtain rfl := Option.some.inj (hregion.symm.trans he)
    exact h hkind

end Edges

end ScriptCompiler
