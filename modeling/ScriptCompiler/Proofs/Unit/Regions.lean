import ScriptCompiler.Proofs.Unit.Guards
import ScriptCompiler.Proofs.Unit.WellFormed

/-!
# Where regions are

Each region of a script belongs to a try statement or to a for-in loop in the
tree of the script, and its ends are where the code of this construct says. By
the nesting of the constructs, regions nest.
-/

namespace ScriptCompiler

open Bytes Lowering

variable {x z : Mark} {ctx : Ctx} {lab : Nat → Mark} {acts : List Action} {k : Nat} {op : Opcode}
  {frame : Frame} {body : List NodeId} {handler : Option CatchClause}
  {finalizer : Option (List NodeId)}

/-! ## Where regions come from -/

/-- The actions of a stretch close the region at an index. -/
def Stretch.Closes (P : Program) (s : Stretch) (i : Nat) : Prop :=
  ∃ kind depth start stop n, .region kind depth start stop ∈ s.acts ∧
    P.regions[i]? = some ⟨kind, n, (s.lab start).pos, (s.lab stop).pos⟩

section Closing

variable {tree : Tree} {P : Program} {i : Nat}

/-- Some actions, or those of an occurrence in them, close the region at an index. -/
def Stretch.ClosesWithin (tree : Tree) (P : Program) (s : Stretch) (i : Nat) : Prop :=
  s.Closes P i ∨ ∃ path occ, Path tree P s path occ ∧ occ.Closes P i

theorem Stretch.ClosesWithin.behind {s : Stretch} (h : s.ClosesWithin tree P i) {act : Action}
    (hact : Run tree P tree.parts s.ctx s.lab [act] x s.first) :
    (s.behind [act] x).ClosesWithin tree P i := by
  rcases h with ⟨kind, depth, start, stop, n, hmem, hregion⟩ | ⟨path, occ, hpath, hcloses⟩
  · exact .inl ⟨kind, depth, start, stop, n, List.mem_append_right _ hmem, hregion⟩
  · exact .inr ⟨path, occ, hpath.behind hact, hcloses⟩

/-- Every region is closed by some occurrence. -/
theorem Run.covers (h : Run tree P tree.parts ctx lab acts x z) (hlo : x.closed ≤ i)
    (hhi : i < z.closed) : Stretch.ClosesWithin tree P ⟨ctx, lab, acts, x, z⟩ i := by
  induction h with
  | nil => omega
  | emit his hstep _ ih =>
    exact (ih (by rw [hstep.closed]; exact hlo) hhi).behind (.emit his hstep (.nil _))
  | @child ctx lab lab' openings id node plan inner acts x y z hnode hvisit hinner hrun hrest ihrun
      ih =>
    rcases Nat.lt_or_ge i y.closed with hlt | hge
    · have hchild : Stretch.Child tree P ⟨ctx, lab, .child openings id :: acts, x, z⟩ openings
          ⟨⟨ctx.enter lab openings, lab', inner, x, y⟩, id, node, plan⟩ :=
        ⟨⟨[], acts, rfl, hnode, .nil x, hrest⟩, rfl, hinner, hrun, hvisit⟩
      rcases ihrun hlo hlt with hcloses | ⟨path, occ, hpath, hcloses⟩
      · exact .inr ⟨[], _, .child hchild, hcloses⟩
      · exact .inr ⟨_, occ, .inner hchild hpath, hcloses⟩
    · exact (ih hge hhi).behind (.child hnode hvisit hinner hrun (.nil _))
  | here hlabel _ ih => exact (ih hlo hhi).behind (.here hlabel (.nil _))
  | declare hliteral hmem _ ih => exact (ih hlo hhi).behind (.declare hliteral hmem (.nil _))
  | define hi hfunction hscript hmem _ ih =>
    exact (ih hlo hhi).behind (.define hi hfunction hscript hmem (.nil _))
  | @region ctx lab kind depth start stop acts x z n hdepth hregion hrest ih =>
    rcases Nat.lt_or_eq_of_le hlo with hlt | rfl
    · exact (ih hlt hhi).behind (.region hdepth hregion (.nil _))
    · exact .inl ⟨kind, depth, start, stop, n, List.mem_cons_self .., hregion⟩

end Closing

/-- The constructs that close regions, with the labels of these. -/
theorem Lowering.region_mem {t : Tree} {plan : SwitchPlan} {nd : Node}
    (h : Lowering.node t ctx plan nd = some acts) {kind : RegionKind} {depth start stop : Nat}
    (hmem : .region kind depth start stop ∈ acts) :
    (∃ declared target name object body, nd.kind = .forIn declared target object body ∧
      acts = forIn declared name object body ∧ kind = .iterator ∧ start = 1 ∧ stop = 3) ∨
    ∃ body handler finalizer, nd.kind = .tryBlock body handler finalizer ∧
      acts = tryBlock body handler finalizer ∧
      (kind = .catchBlock ∧ start = 1 ∧ stop = 2 ∧ handler.isSome = true ∨
        kind = .finallyClause ∧ start = 1 ∧ stop = 4 ∧ finalizer.isSome) := by
  by_cases hforIn : ∃ declared target object body, nd.kind = .forIn declared target object body
  · obtain ⟨declared, target, object, body, hkind⟩ := hforIn
    rw [Lowering.node, hkind] at h
    simp only at h
    split at h <;> cases h
    rename_i name hname
    obtain ⟨hregion, -, hstart, hstop⟩ : kind = .iterator ∧ depth = 3 ∧ start = 1 ∧ stop = 3 := by
      cases declared <;> simpa [forIn, store, plain] using hmem
    exact .inl ⟨declared, target, name, object, body, hkind, rfl, hregion, hstart, hstop⟩
  · by_cases htry : ∃ body handler finalizer, nd.kind = .tryBlock body handler finalizer
    · obtain ⟨body, handler, finalizer, hkind⟩ := htry
      rw [Lowering.node, hkind] at h
      cases h
      refine .inr ⟨body, handler, finalizer, hkind, rfl, ?_⟩
      rw [tryBlock_eq, List.mem_append, List.mem_append] at hmem
      rcases hmem with hmem | hmem | hmem
      · cases List.all_eq_true.mp (unguarded_tryFront body handler finalizer) _ hmem
      · split at hmem
        · rename_i hsome
          cases List.mem_singleton.mp hmem
          exact .inl ⟨rfl, rfl, rfl, hsome⟩
        · cases hmem
      · split at hmem
        · rename_i hsome
          cases List.mem_singleton.mp hmem
          exact .inr ⟨rfl, rfl, rfl, hsome⟩
        · cases hmem
    · have hunguarded := unguarded_node h (fun _ _ _ _ hkind => hforIn ⟨_, _, _, _, hkind⟩)
        fun _ _ _ hkind => htry ⟨_, _, _, hkind⟩
      cases List.all_eq_true.mp hunguarded _ hmem

/-! ## Regions of a script -/

/-- An instruction with an opcode stands at an offset. -/
def Script.OpAt (s : Script) (pc : Nat) (op : Opcode) : Prop :=
  ∃ i ∈ instructions s.code, i.pc = pc ∧ i.op = op

namespace Region

/-- No byte is in both. -/
def Apart (r r' : Region) : Prop :=
  r.start + r.length ≤ r'.start ∨ r'.start + r'.length ≤ r.start

/-- All bytes of one are bytes of the other. -/
def Inside (r r' : Region) : Prop :=
  r'.start ≤ r.start ∧ r.start + r.length ≤ r'.start + r'.length

variable (tree : Tree) (P : Program) (s : Script) (occ : Occurrence) (r : Region)

/-- From behind the opcode of a try statement up to the code of its catch clause. -/
def GuardsTry : Prop :=
  ∃ body clause finalizer opening front back y,
    occ.node.kind = .tryBlock body (some clause) finalizer ∧
    s.OpAt (P.offset occ.first.pos) .tryMark ∧
    s.mainOffset + r.start = P.offset occ.first.pos + 1 ∧
    occ.Splits tree P front (Lowering.catchClause opening clause ++ back) y ∧
    s.OpAt (P.offset y.pos) .enterBlock ∧
    s.mainOffset + r.start + r.length = P.offset y.pos

/-- From behind the opcode of a try statement up to the code of its finally clause. -/
def GuardsCatch : Prop :=
  ∃ body handler finalizer front back y,
    occ.node.kind = .tryBlock body handler (some finalizer) ∧
    s.OpAt (P.offset occ.first.pos) .tryMark ∧
    s.mainOffset + r.start = P.offset occ.first.pos + 1 ∧
    occ.Splits tree P front (Lowering.finallyClause finalizer ++ back) y ∧
    s.OpAt (P.offset y.pos) .finallyMark ∧
    s.mainOffset + r.start + r.length = P.offset y.pos

/-- From the instruction that fetches the next key of a for-in loop up to the one that ends it,
which is the last one of the loop. -/
def GuardsLoop : Prop :=
  ∃ declared target object body front back y k,
    occ.node.kind = .forIn declared target object body ∧
    occ.Splits tree P front (Lowering.plain .iterNext :: back) y ∧
    s.OpAt (P.offset y.pos) .iterNext ∧
    s.mainOffset + r.start = P.offset y.pos ∧
    occ.last.pos = k + 1 ∧
    s.OpAt (P.offset k) .endIter ∧
    s.mainOffset + r.start + r.length = P.offset k

/-- A region is where the code of an occurrence says. -/
def Guards : Prop :=
  match r.kind with
  | .catchBlock => GuardsTry tree P s occ r
  | .finallyClause => GuardsCatch tree P s occ r
  | .iterator => GuardsLoop tree P s occ r

end Region

/-- What can be relied on in the regions of one script. -/
structure Script.WellGuarded (tree : Tree) (inFunction : Bool) (body : List NodeId) (s : Script) :
    Prop where
  /-- Regions nest, inner ones first. -/
  nest : ∀ (i j : Nat) (r r' : Region), i < j → s.regions[i]? = some r → s.regions[j]? = some r' →
    r.Apart r' ∨ r.Inside r'
  /-- Regions lie between instructions of the main section. -/
  bounds : ∀ r ∈ s.regions, s.IsTarget (s.mainOffset + r.start) ∧
    s.IsTarget (s.mainOffset + r.start + r.length)
  /-- Each region is that of a construct in the unit. -/
  placed : ∃ P root, Laid tree P inFunction body s root ∧ ∀ r ∈ s.regions, ∃ path occ,
    Path tree P root path occ ∧ r.Guards tree P s occ

section Placing

variable {tree : Tree} {P : Program} {s : Script} {occ : Occurrence}

theorem Encodes.opAt (h : Encodes s P) {bytes : List UInt8} (hat : P.At k (.plain op bytes frame)) :
    k < P.main.length ∧ s.OpAt (P.offset k) op := by
  obtain ⟨wide, hk⟩ := hat
  exact ⟨lt_of_getElem? hk, _, h.instruction hk, rfl,
    (h.shaped hk).opcode_plain rfl⟩

/-- The instruction of an opcode without operands takes one byte. -/
theorem Program.offset_succ_of_op (hat : P.At k (.plain op [] frame)) :
    P.offset (k + 1) = P.offset k + 1 := by
  obtain ⟨wide, hk⟩ := hat
  rw [Program.offset_succ hk]
  rfl

/-- How the code of a try statement starts. -/
theorem Run.of_tryBlock {ps : Parts}
    (h : Run tree P ps ctx lab (Lowering.tryBlock body handler finalizer) x z) :
    P.At x.pos (.plain .tryMark [] x.frame) ∧ (lab 1).pos = x.pos + 1 := by
  rw [Lowering.tryBlock_eq] at h
  obtain ⟨-, h⟩ := h.of_here
  obtain ⟨y, hat, hpos, h⟩ := h.of_op
  obtain ⟨hlabel, -⟩ := h.of_here
  exact ⟨hat, by rw [hlabel, hpos]⟩

/-- Where the code of a catch clause starts. -/
theorem Stretch.Runs.catchClause {s : Stretch} (h : s.Runs tree P) {clause : CatchClause}
    (hacts : s.acts = Lowering.tryBlock body (some clause) finalizer) :
    ∃ front back y, s.Splits tree P front
      (Lowering.catchClause (trying finalizer) clause ++ back) y ∧
      P.At y.pos (.plain .enterBlock (le16 1).toList y.frame) ∧ s.lab 2 = y := by
  let front : List Action := .here 0 :: Lowering.plain .tryMark :: .here 1 ::
    tried body finalizer
  let back : List Action := callFinally finalizer.isSome ++ [.jump .goto 5 .flow] ++
    ((finalizer.map Lowering.finallyClause).getD [] ++ [Lowering.plain .nop, .here 5]) ++
    (.region .catchBlock 0 1 2 ::
      if finalizer.isSome then [.region .finallyClause 0 1 4] else [])
  have hshape : s.acts = (front ++ [.here 2]) ++
      (Lowering.catchClause (trying finalizer) clause ++ back) := by
    rw [hacts, Lowering.tryBlock_eq]
    simp [front, back, clauses]
  obtain ⟨y, hsplits⟩ := h.splits hshape
  obtain ⟨y', -, hhere⟩ := hsplits.front.of_append
  obtain ⟨hlabel, hnil⟩ := hhere.of_here
  obtain rfl := hnil.eq_of_nil
  obtain ⟨-, hat, -, -⟩ := Run.of_op hsplits.back
  exact ⟨_, back, _, hsplits, hat, hlabel⟩

/-- Where the code of a finally clause starts. -/
theorem Stretch.Runs.finallyClause {s : Stretch} (h : s.Runs tree P) {final : List NodeId}
    (hacts : s.acts = Lowering.tryBlock body handler (some final)) :
    ∃ front back y, s.Splits tree P front (Lowering.finallyClause final ++ back) y ∧
      P.At y.pos (.plain .finallyMark [] y.frame) ∧ s.lab 4 = y := by
  let front : List Action := .here 0 :: Lowering.plain .tryMark :: .here 1 ::
    (tried body (some final) ++ .here 2 :: (handler.map fun clause =>
      Lowering.catchClause (trying (some final)) clause ++
        (callFinally true ++ [.jump .goto 5 .flow])).getD [])
  let back : List Action := [Lowering.plain .nop, .here 5] ++
    ((if handler.isSome then [.region .catchBlock 0 1 2] else []) ++ [.region .finallyClause 0 1 4])
  have hshape : s.acts = front ++ (Lowering.finallyClause final ++ back) := by
    rw [hacts, Lowering.tryBlock_eq]
    simp [front, back, clauses]
  obtain ⟨y, hsplits⟩ := h.splits hshape
  obtain ⟨hlabel, hclause⟩ := Run.of_here hsplits.back
  obtain ⟨-, hat, -, -⟩ := hclause.of_op
  exact ⟨front, back, y, hsplits, hat, hlabel⟩

/-- Where the rounds of a for-in loop start, and where the loop ends. -/
theorem Stretch.Runs.forIn {s : Stretch} (h : s.Runs tree P) {declared : Bool} {name : String}
    {object body : NodeId} (hacts : s.acts = Lowering.forIn declared name object body) :
    (∃ front back y, s.Splits tree P front (Lowering.plain .iterNext :: back) y ∧
      P.At y.pos (.plain .iterNext [] y.frame) ∧ s.lab 1 = y) ∧
    P.At (s.lab 3).pos (.plain .endIter [] (s.lab 3).frame) ∧ s.last.pos = (s.lab 3).pos + 1 := by
  let loop : Opening := { kind := .forInLoop, breaks := 3, continues := 2 }
  let head : List Action := (if declared then [.declare name] else []) ++
    [.child [loop] object, .op .iter [1] .flow, .jump .goto 2 .flow]
  let round : List Action := [Lowering.store [loop] name, Lowering.plain .pop, .child [loop] body,
    .here 2, Lowering.plain .moreIter, .jump .ifNe 1 .flow]
  let ending : List Action := [.here 3, .region .iterator 3 1 3, Lowering.plain .endIter]
  have hshape : s.acts = (head ++ [.here 1]) ++ (Lowering.plain .iterNext :: (round ++ ending)) := by
    rw [hacts]
    simp [Lowering.forIn, head, round, ending, loop]
  obtain ⟨y, hsplits⟩ := h.splits hshape
  obtain ⟨y', -, hhere⟩ := hsplits.front.of_append
  obtain ⟨hone, hnil⟩ := hhere.of_here
  obtain rfl := hnil.eq_of_nil
  obtain ⟨y₁, hnext, -, hrounds⟩ := Run.of_op hsplits.back
  refine ⟨⟨_, _, _, hsplits, hnext, hone⟩, ?_⟩
  obtain ⟨w, -, hending⟩ := hrounds.of_append
  obtain ⟨hthree, hregion⟩ := hending.of_here
  obtain ⟨-, -, hlast⟩ := hregion.of_region
  obtain ⟨w', hat, hpos, hnil⟩ := hlast.of_op
  rw [← hnil.eq_of_nil, hpos, hthree]
  exact ⟨hat, rfl⟩

/-- The region that an occurrence closes is where its code says. -/
theorem Stretch.Closes.guards {i : Nat} {r : Region} (h : occ.Closes P i) (hencodes : Encodes s P)
    (hlowered : Lowering.node tree occ.ctx occ.plan occ.node = some occ.acts)
    (hruns : occ.Runs tree P) {e : Extent} (he : P.regions[i]? = some e) (hr : P.Protects r e) :
    r.Guards tree P s occ ∧ e.stop < P.main.length := by
  obtain ⟨kind, depth, start, stop, n, hmem, hregion⟩ := h
  obtain rfl := Option.some.inj (he.symm.trans hregion)
  obtain ⟨hkind, -, hstart, hstop⟩ := hr
  rw [← hencodes.start] at hstart hstop
  rw [Region.Guards, hkind]
  rcases Lowering.region_mem hlowered hmem with
    ⟨declared, target, name, object, body, hnode, hacts, rfl, rfl, rfl⟩ |
    ⟨body, handler, finalizer, hnode, hacts, ⟨rfl, rfl, rfl, hsome⟩ | ⟨rfl, rfl, rfl, hsome⟩⟩
  · obtain ⟨⟨front, back, y, hsplits, hnext, rfl⟩, hend, hlast⟩ := hruns.forIn hacts
    exact ⟨⟨declared, target, object, body, front, back, _, _, hnode, hsplits,
      (hencodes.opAt hnext).2, hstart, hlast, (hencodes.opAt hend).2, hstop⟩, (hencodes.opAt hend).1⟩
  · obtain ⟨clause, rfl⟩ := Option.isSome_iff_exists.mp hsome
    obtain ⟨hopen, hone⟩ := Run.of_tryBlock (hruns.of_eq hacts)
    obtain ⟨front, back, y, hsplits, hat, rfl⟩ := hruns.catchClause hacts
    refine ⟨⟨body, clause, finalizer, _, front, back, _, hnode, (hencodes.opAt hopen).2, ?_, hsplits,
      (hencodes.opAt hat).2, hstop⟩, (hencodes.opAt hat).1⟩
    rw [hstart, hone, Program.offset_succ_of_op hopen]
  · obtain ⟨final, rfl⟩ := Option.isSome_iff_exists.mp hsome
    obtain ⟨hopen, hone⟩ := Run.of_tryBlock (hruns.of_eq hacts)
    obtain ⟨front, back, y, hsplits, hat, rfl⟩ := hruns.finallyClause hacts
    refine ⟨⟨body, handler, final, front, back, _, hnode, (hencodes.opAt hopen).2, ?_, hsplits,
      (hencodes.opAt hat).2, hstop⟩, (hencodes.opAt hat).1⟩
    rw [hstart, hone, Program.offset_succ_of_op hopen]

end Placing

/-- The regions of a compiled unit. -/
theorem Laid.wellGuarded {tree : Tree} {P : Program} {inFunction : Bool} {body : List NodeId}
    {s : Script} {root : Stretch} (h : Laid tree P inFunction body s root) :
    s.WellGuarded tree inFunction body := by
  have hunguarded : unguarded root.acts := by
    rw [h.acts, Lowering.unit, unguarded_append,
      show unguarded (body.map part) = true from unguarded_children [] body]
    rfl
  have hguarded : Guarded P root.first root.last := (Run.frontGuarded h.runs).of_unguarded hunguarded
  have hcount := h.encodes.regions.length_eq
  have hextent : ∀ (i : Nat) (r : Region), s.regions[i]? = some r → ∃ e, P.regions[i]? = some e ∧
      P.Protects r e ∧ i < root.last.closed := fun i r hr => by
    obtain ⟨hi, rfl⟩ := Array.getElem?_eq_some_iff.mp hr
    have hi' : i < P.regions.length := by rwa [← hcount, Array.length_toList]
    refine ⟨_, List.getElem?_eq_getElem hi', ?_, by rw [h.closed]; exact hi'⟩
    simpa using h.encodes.regions.get (by simpa using hi) hi'
  have hwithin : ∀ (i : Nat) (e : Extent), P.regions[i]? = some e → i < root.last.closed →
      e.start ≤ e.stop ∧ e.stop ≤ P.main.length := fun i e he hi => by
    have hpos := h.pos
    have := hguarded.within i e (by rw [h.first]; exact Nat.zero_le _) hi he
    omega
  have hplaced : ∀ (i : Nat) (r : Region) (e : Extent), P.regions[i]? = some e → P.Protects r e →
      i < root.last.closed → (∃ path occ, Path tree P root path occ ∧ r.Guards tree P s occ) ∧
        e.stop < P.main.length := fun i r e he hr hi => by
    rcases Run.covers h.runs (by rw [h.first]; exact Nat.zero_le _) hi with
      ⟨kind, depth, start, stop, n, hmem, -⟩ | ⟨path, occ, hpath, hcloses⟩
    · cases List.all_eq_true.mp hunguarded _ hmem
    · obtain ⟨hlowered, hruns, -, -⟩ := hpath.found
      obtain ⟨hguards, hlt⟩ := hcloses.guards h.encodes hlowered hruns he hr
      exact ⟨⟨path, occ, hpath, hguards⟩, hlt⟩
  refine ⟨fun i j r r' hij hr hr' => ?_, fun r hr => ?_, ⟨P, root, h, fun r hr => ?_⟩⟩
  · obtain ⟨e, he, hprotects, hi⟩ := hextent i r hr
    obtain ⟨e', he', hprotects', hj⟩ := hextent j r' hr'
    obtain ⟨-, -, hstart, hstop⟩ := hprotects
    obtain ⟨-, -, hstart', hstop'⟩ := hprotects'
    obtain ⟨hle, hlast⟩ := hwithin i e he hi
    obtain ⟨hle', hlast'⟩ := hwithin j e' he' hj
    rcases hguarded.nest i j e e' (by rw [h.first]; exact Nat.zero_le _) hij hj he he' with
      (happart | happart) | ⟨hfrom, huntil⟩
    · have := Program.offset_le (P := P) happart (by omega)
      exact .inl (.inl (by omega))
    · have := Program.offset_le (P := P) happart (by omega)
      exact .inl (.inr (by omega))
    · have hbefore := Program.offset_le (P := P) hfrom (by omega)
      have hbehind := Program.offset_le (P := P) huntil (by omega)
      exact .inr ⟨by omega, by omega⟩
  · obtain ⟨i, hi⟩ := Array.mem_iff_getElem?.mp hr
    obtain ⟨e, he, hprotects, hlt⟩ := hextent i r hi
    obtain ⟨-, hstop⟩ := hplaced i r e he hprotects hlt
    have hle := (hwithin i e he hlt).1
    rw [h.encodes.start, hprotects.stop, hprotects.start]
    exact ⟨h.encodes.isTarget (by omega), h.encodes.isTarget hstop⟩
  · obtain ⟨i, hi⟩ := Array.mem_iff_getElem?.mp hr
    obtain ⟨e, he, hprotects, hlt⟩ := hextent i r hi
    exact (hplaced i r e he hprotects hlt).1

/-- In every script that compiles, and in all functions in it, regions nest, inner ones first, and
each is exactly where the construct that it belongs to says. -/
theorem compileScript_wellGuarded {tree : Tree} {filename : String} {limits : Limits}
    {script : Script} (h : compileScript tree filename limits = .ok script) :
    script.Throughout tree fun inFunction body s => s.WellGuarded tree inFunction body :=
  throughout_of_compiles h fun _ hcompiles =>
    let ⟨_, hlaid⟩ := hcompiles.laid
    hlaid.wellGuarded

/-- `try {} catch (e) { for (e in null); } finally {}` -/
def Tree.guardedLoop : Tree where
  nodes := #[⟨.null, 1⟩, ⟨.name "e", 1⟩, ⟨.empty, 1⟩, ⟨.forIn false ⟨1⟩ ⟨0⟩ ⟨2⟩, 1⟩,
    ⟨.tryBlock [] (some ⟨"e", [⟨3⟩]⟩) (some []), 1⟩]
  body := [⟨4⟩]

theorem compileScript_wellGuarded_guardedLoop :
    ∃ script, compileScript .guardedLoop "try.js" ⟨none, 10⟩ = .ok script ∧
      script.regions = #[⟨.iterator, 2, 20, 9⟩, ⟨.catchBlock, 0, 1, 6⟩, ⟨.finallyClause, 0, 1, 38⟩] ∧
      script.WellGuarded .guardedLoop false [⟨4⟩] := by
  obtain ⟨script, hok, hregions⟩ := exists_ok (x := compileScript .guardedLoop "try.js" ⟨none, 10⟩)
    (p := fun s => s.regions =
      #[⟨.iterator, 2, 20, 9⟩, ⟨.catchBlock, 0, 1, 6⟩, ⟨.finallyClause, 0, 1, 38⟩])
    (by decide +kernel)
  exact ⟨script, hok, of_decide_eq_true hregions,
    (compileScript_wellGuarded hok).holds _ _ _ .script⟩

end ScriptCompiler
