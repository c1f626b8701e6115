import ScriptCompiler.Proofs.Draft.Hoisting
import ScriptCompiler.Proofs.Walk.Basic

/-!
# Strands

A construct is emitted step by step, and no step knows yet where the labels of
the construct will be. A strand is what has been emitted so far, together with
what has to hold of the labels and of the holes in the end. A step that fills a
hole tells what is in it from then on.
-/

namespace ScriptCompiler

open Bytes Emit Draft

variable {more : List Action} {o : Opened} {hole : Hole} {kind : StatementKind} {i top : Nat}
  {outer : List Opened}

/-- What has to hold of the holes, the statements around and the labels. -/
abbrev Terms := (Hole → Nat) → Ctx → (Nat → Mark) → Prop

/-- Some actions have led from the draft `a` to the one that a generator holds, on some terms. -/
structure Strand (w : Walk) (ps : Parts) (a : Draft) (terms : Terms)
    (acts : List Action) (g : Generator) (b : Draft) : Prop where
  drafted : Drafted g b
  nested : b.nested = nestedIn ps
  grown : Follows a b
  run : ∀ {fill : Hole → Nat} {P : Program} {n : Nat} {ctx : Ctx} {lab : Nat → Mark},
    n ≤ a.main.length → Fills fill P n b → ctx.inFunction = w.inFunction → terms fill ctx lab →
    Run w.tree P ps ctx lab acts a.mark b.mark

/-- Two stretches of code, one after the other. -/
theorem Reaches.andThen {r : Setting} {acts : List Action} {g g' : Generator} {a : Draft}
    (h : Reaches r acts a g)
    (hmore : ∀ {b : Draft}, Drafted g b → b.nested = a.nested → Reaches r more b g') :
    Reaches r (acts ++ more) a g' := by
  obtain ⟨b, hb, hleads⟩ := h
  obtain ⟨d, hd, hleads'⟩ := hmore hb hleads.grown.nested
  exact ⟨d, hd, hleads.append hleads'⟩

/-- A statement is opened the way it is placed. -/
theorem place_eq {opening : Opening} {fill : Hole → Nat} {lab : Nat → Mark}
    (hkind : o.kind = opening.kind) (hlabel : o.label = opening.label)
    (hscope : o.scope = opening.names.map fun names => ⟨(lab opening.top).frame.depth.toNat, names⟩)
    (hfinally : opening.kind ≠ .finallyClause)
    (hjumps : (o.kind.takesBreaks →
        fill (.chain o.serial .breaks) = (lab opening.breaks).pos) ∧
      (o.kind.isLoop → fill (.chain o.serial .continues) = (lab opening.continues).pos)) :
    opening.place lab = o.place fill := by
  rw [hkind] at hjumps
  simp only [Opening.place, Opened.place, hkind, hlabel, hscope, hfinally, if_false]
  congr 1
  · split_ifs with h
    · exact (hjumps.1 h).symm
    · rfl
  · split_ifs with h
    · exact (hjumps.2 h).symm
    · rfl

namespace Strand

variable {w : Walk} {ps : Parts} {g g' : Generator} {a b : Draft}
  {terms : Terms} {acts : List Action} {op : Opcode} {k pc : Nat}

theorem start (h : Drafted g a) (hnested : a.nested = nestedIn ps) :
    Strand w ps a (fun _ _ _ => True) [] g a :=
  ⟨h, hnested, Grown.refl _ _ _, fun _ _ _ _ => .nil _⟩

section

variable (s : Strand w ps a terms acts g b)

include s

/-- A step without code. -/
theorem still {b' : Draft} (h : Drafted g' b') (hgrown : Grown a.main.length a.serial b b')
    (hmark : b'.mark = b.mark) : Strand w ps a terms acts g' b' :=
  ⟨h, hgrown.nested.trans s.nested, s.grown.trans hgrown, fun hn hfills hin hterms => by
    rw [hmark]
    exact s.run hn (hfills.before hgrown.extends) hin hterms⟩

/-- What is known of the holes need not be asked for. -/
theorem knowing (known : (Hole → Nat) → Prop)
    (hknown : ∀ {fill : Hole → Nat} {P : Program} {n : Nat}, Fills fill P n b → known fill) :
    Strand w ps a (fun fill ctx lab => known fill → terms fill ctx lab) acts g b :=
  ⟨s.drafted, s.nested, s.grown, fun hn hfills hin hterms =>
    s.run hn hfills hin (hterms (hknown hfills))⟩

/-- Terms may be replaced by stronger ones. -/
theorem asking {terms' : Terms}
    (hterms : ∀ {fill : Hole → Nat} {ctx : Ctx} {lab : Nat → Mark}, terms' fill ctx lab →
      terms fill ctx lab) : Strand w ps a terms' acts g b :=
  { s with run := fun hn hfills hin h => s.run hn hfills hin (hterms h) }

theorem noted (h : Noted g g') : Strand w ps a terms acts g' b :=
  { s with drafted := s.drafted.noted h }

/-- A label is passed. -/
theorem here (label : Nat) :
    Strand w ps a (fun fill ctx lab => lab label = b.mark ∧ terms fill ctx lab)
      (acts ++ [.here label]) g b :=
  ⟨s.drafted, s.nested, s.grown, fun hn hfills hin hterms =>
    (s.run hn hfills hin hterms.2).append (.here hterms.1 (.nil _))⟩

/-- A stretch of code within the statements `openings`. -/
theorem reach (openings : List Opening) (h : Reaches (w.setting ps openings) more b g') :
    ∃ d, Strand w ps a (fun fill ctx lab =>
        (ctx.enter lab openings).opens = b.opens.map (Opened.place fill) ∧ terms fill ctx lab)
      (acts ++ more) g' d ∧ Follows b d ∧ d.opens = b.opens := by
  obtain ⟨d, hd, hleads⟩ := h
  refine ⟨d, ⟨hd, hleads.grown.nested.trans s.nested, s.grown.follow hleads.grown,
    fun hn hfills hin hterms => ?_⟩, hleads.grown, hleads.opens⟩
  exact (s.run hn (hfills.before hleads.grown.extends) hin hterms.2).append
    (hleads.run (Nat.le_trans hn s.grown.length) hfills hin hterms.1)

theorem child (hvisits : Visits w.tree ps w.visit) (openings : List Opening) {id : NodeId}
    (hok : w.child id g = .ok () g') :
    ∃ d, Strand w ps a (fun fill ctx lab =>
        (ctx.enter lab openings).opens = b.opens.map (Opened.place fill) ∧ terms fill ctx lab)
      (acts ++ [.child openings id]) g' d ∧ Follows b d ∧ d.opens = b.opens :=
  s.reach openings (hvisits.child openings s.drafted s.nested hok)

/-- A jump to a label, through a hole that is filled later. -/
theorem leap (h : Drafted g' (b.emit (.jump op hole b.frame)))
    (hnew : (∀ serial chain, hole ≠ .chain serial chain) → ¬ hole.Old a.main.length a.serial)
    (label : Nat) :
    Strand w ps a (fun fill ctx lab => fill hole = (lab label).pos ∧ terms fill ctx lab)
      (acts ++ [.jump op label .flow]) g' (b.emit (.jump op hole b.frame)) := by
  have hgrown {n m : Nat} (hnew : (∀ serial chain, hole ≠ .chain serial chain) → ¬ hole.Old n m) :
      Grown n m b (b.emit (.jump op hole b.frame)) :=
    grown_emit fun hole' hmem hne => by
      rw [List.mem_singleton.mp hmem] at hne ⊢
      exact hnew hne
  have hextends : Extends b (b.emit (.jump op hole b.frame)) :=
    hgrown fun _ => by cases hole <;> exact Nat.not_lt_zero _
  refine ⟨h, s.nested, s.grown.trans (hgrown hnew), fun hn hfills hin hterms => ?_⟩
  exact (s.run hn (hfills.before hextends) hin hterms.2).append
    (hfills.jump s.drafted.built.sound (Nat.le_trans hn s.grown.length) hterms.1 (.nil _))

/-- A jump to a label further on. -/
theorem begin (hok : beginJump op g = .ok pc g') (hop : op.format = .jump)
    (hfinal : op.spec.placeholder = false) (label : Nat) :
    Strand w ps a (fun fill ctx lab =>
        fill (.arm b.main.length 0) = (lab label).pos ∧ terms fill ctx lab)
      (acts ++ [.jump op label .flow]) g' (b.jump op) ∧
      (b.jump op).Waits op b.frame b.main.length pc := by
  obtain ⟨h, hwaits⟩ := s.drafted.begin hok hop hfinal
  have hnew : ¬ Hole.Old a.main.length a.serial (.arm b.main.length 0) :=
    Nat.not_lt.mpr s.grown.length
  exact ⟨s.leap h (fun _ => hnew) label, hwaits⟩

/-- A hole is filled. -/
theorem filling {t : Nat} (h : Drafted g' (b.fill hole t)) (hopen : b.filled hole = none)
    (hnew : ¬ hole.Old a.main.length a.serial) :
    Strand w ps a (fun fill ctx lab => fill hole = t → terms fill ctx lab) acts g' (b.fill hole t) ∧
      Extends b (b.fill hole t) :=
  ⟨(s.still h (grown_fill hopen hnew) rfl).knowing _ fun hfills =>
    hfills.filled _ _ filled_fill_self, extends_fill hopen⟩

/-- A jump that has waited leads here. -/
theorem land {frame : Frame} (hwaits : b.Waits op frame k pc) (hk : a.main.length ≤ k)
    (hok : landHere pc g = .ok () g') :
    Strand w ps a (fun fill ctx lab => fill (.arm k 0) = b.main.length → terms fill ctx lab) acts g'
      (b.fill (.arm k 0) b.main.length) ∧ Extends b (b.fill (.arm k 0) b.main.length) :=
  s.filling (s.drafted.land hwaits hok) hwaits.unfilled (Nat.not_lt.mpr hk)

/-- A jump back to a label. -/
theorem back {pc' : Nat} (hplaced : b.Placed k pc) (hok : jumpTo op pc g = .ok pc' g')
    (hop : op.format = .jump) (hfinal : op.spec.placeholder = false) (label : Nat) :
    Strand w ps a (fun fill ctx lab => k = (lab label).pos ∧ terms fill ctx lab)
      (acts ++ [.jump op label .flow]) g' ((b.jump op).fill (.arm b.main.length 0) k) ∧
      Extends b ((b.jump op).fill (.arm b.main.length 0) k) := by
  have hsound := s.drafted.built.sound
  have hfilled : Extends (b.jump op) ((b.jump op).fill (.arm b.main.length 0) k) :=
    extends_fill (hsound.arm_open 0)
  refine ⟨⟨(s.drafted.back hplaced hok hop hfinal).1, s.nested, s.grown.back hsound op k,
    fun hn hfills hin hterms => ?_⟩, (extends_jump op).trans hfilled⟩
  have hfills' := hfills.before hfilled
  refine (s.run hn (hfills'.before (extends_jump op)) hin hterms.2).append
    (hfills'.jump hsound (Nat.le_trans hn s.grown.length) ?_ (.nil _))
  exact (hfills.filled _ _ filled_fill_self).trans hterms.1

/-- A statement is opened. -/
theorem push (hok : pushStatement kind top g = .ok i g')
    (htop : kind.isLoop → top = position b.main b.main.length) :
    i = b.opens.length ∧ Strand w ps a terms acts g' (b.open kind none) :=
  (s.drafted.pushStatement hok htop).imp_right fun h => s.still h (grown_open ..) rfl

/-- A statement with names is opened. -/
theorem pushBlock {names : List String} (hok : pushBlockScope kind top names g = .ok i g')
    (htop : kind.isLoop = false) :
    i = b.opens.length ∧
      Strand w ps a terms acts g' (b.open kind (some ⟨b.depth.depth.toNat, names⟩)) :=
  (s.drafted.pushBlockScope hok htop).imp_right fun h => s.still h (grown_open ..) rfl

/-- The innermost statement is changed. -/
theorem retop (h : Drafted g' (b.withTop outer o)) :
    Strand w ps a terms acts g' (b.withTop outer o) :=
  s.still h grown_withTop rfl

/-- The innermost statement is closed, and its jumps have got their destinations. -/
theorem close (hopens : b.opens = outer ++ [o]) (hserial : a.serial ≤ o.serial)
    (hkind : o.kind ≠ .finallyClause) (hok : popStatement g = .ok () g') :
    Strand w ps a (fun fill ctx lab =>
      ((o.kind.takesBreaks → fill (.chain o.serial .breaks) = b.main.length) ∧
        (o.kind.isLoop → fill (.chain o.serial .continues) = o.update)) →
      terms fill ctx lab) acts g' (b.close outer o) ∧ Extends b (b.close outer o) := by
  have hgrown {n m : Nat} (hm : m ≤ o.serial) : Grown n m b (b.close outer o) :=
    grown_close s.drafted.built.sound (by simp [hopens]) hm
  exact ⟨(s.still (s.drafted.popStatement hopens hkind hok) (hgrown hserial) rfl).knowing _
    fun hfills => ⟨fun h => hfills.filled _ _ (filled_close_breaks h),
      fun h => hfills.filled _ _ (filled_close_continues h)⟩, hgrown (Nat.zero_le _)⟩

/-- A region is closed on a condition. -/
theorem protectIf {p : Bool} {kind : RegionKind} {depth : Int} {j start stop : Nat}
    (hi : b.Placed i start) (hj : p → b.Placed j stop)
    (hok : (if p then regionAtDepth kind depth start stop else pure ()) g = .ok () g')
    (level first last : Nat) :
    ∃ d, Strand w ps a (fun fill ctx lab =>
        (p → (lab level).frame.depth = depth ∧ i = (lab first).pos ∧ j = (lab last).pos) ∧
          terms fill ctx lab)
      (acts ++ if p then [.region kind level first last] else []) g' d ∧
      (∀ n m, Grown n m b d) ∧ d.opens = b.opens := by
  cases p with
  | false =>
    obtain ⟨-, rfl⟩ := pure_ok.mp hok
    refine ⟨b, ⟨s.drafted, s.nested, s.grown, fun hn hfills hin hterms => ?_⟩,
      fun n m => Grown.refl n m b, rfl⟩
    rw [if_neg Bool.false_ne_true, List.append_nil]
    exact s.run hn hfills hin hterms.2
  | true =>
    obtain ⟨n, hdepth, h⟩ := s.drafted.protect hi (hj rfl) hok
    refine ⟨_, ⟨h, s.nested, s.grown.trans (grown_protect _ _ _),
      fun hn hfills hin hterms => ?_⟩, fun n m => grown_protect n m _, rfl⟩
    obtain ⟨hlevel, hfirst, hlast⟩ := hterms.1 rfl
    rw [mark_protect]
    refine (s.run hn (hfills.before (grown_protect _ _ _)) hin hterms.2).append
      (.region (hlevel.trans hdepth) ?_ (.nil _))
    rw [hfills.extent, hfirst, hlast]

end

/-- A node has been emitted, with its labels at the marks `lab`. -/
theorem lowers {node : Node} (s : Strand w ps a terms acts g' b) (hopens : b.opens = a.opens)
    (hnode : ∀ ctx : Ctx, ctx.inFunction = w.inFunction →
      Lowering.node w.tree ctx .conditional node = some acts) (lab : Nat → Mark)
    (hterms : ∀ {fill : Hole → Nat} {ctx : Ctx}, ctx.opens = a.opens.map (Opened.place fill) →
      terms fill ctx lab) : Lowers w ps node a g' :=
  ⟨b, s.drafted, s.grown, hopens, fun {_ _ _ ctx} hn hfills hin hctx =>
    ⟨.conditional, acts, lab, hnode ctx hin, s.run hn hfills hin (hterms hctx)⟩⟩

end Strand

end ScriptCompiler
