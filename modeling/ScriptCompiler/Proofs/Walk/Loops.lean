import ScriptCompiler.Compile.Statements
import ScriptCompiler.Proofs.Draft.Hoisting
import ScriptCompiler.Proofs.Walk.Strand

/-!
# Loops emit what they are lowered to
-/

namespace ScriptCompiler

open Bytes Emit Draft

variable {node : Node} {body test : NodeId} {update init : Option NodeId}

variable {w : Walk} {ps : Parts} {g g' : Generator} {a : Draft}

variable (hvisits : Visits w.tree ps w.visit)

include hvisits

/-- A while loop. -/
theorem Visits.whileLoop (h : Drafted g a) (hnested : a.nested = nestedIn ps)
    (hkind : node.kind = .whileLoop test body) (hok : w.whileLoop test body g = .ok () g') :
    Lowers w ps node a g' := by
  simp only [Walk.whileLoop, bind_ok] at hok
  obtain ⟨top, g₁, htop, index, g₂, hpush, note, g₃, hnote, entry, g₄, hentry, loopTop, g₅,
    hloopTop, _, g₆, hbody, _, g₇, hland, _, g₈, htest, back, g₉, hback, n, g₁₀, hdistance, _, g₁₁,
    hset, hpop⟩ := hok
  let loop : Opening := { kind := .whileLoop, breaks := 3, continues := 0 }
  let o : Opened := ⟨.whileLoop, none, none, a.serial, a.main.length⟩
  obtain ⟨rfl, rfl⟩ := h.built.offset_ok htop
  obtain ⟨-, s⟩ := ((Strand.start h hnested).here 0).push hpush fun _ => rfl
  obtain ⟨s, hwaits⟩ := (s.noted (note_noted hnote)).begin hentry rfl rfl 2
  obtain ⟨hplaced, rfl⟩ := s.drafted.built.placed hloopTop
  obtain ⟨a₁, s, hfollows₁, hopens₁⟩ := (s.here 1).child hvisits [loop] hbody
  have hwaits₁ := hwaits.follows hfollows₁
  obtain ⟨s, hextends⟩ := s.land hwaits₁ (Nat.le_refl _) hland
  obtain ⟨a₂, s, hfollows₂, hopens₂⟩ := (s.here 2).child hvisits [loop] htest
  have hplaced₂ := ((hplaced.grown hfollows₁).grown hextends).grown hfollows₂
  have s := (s.back hplaced₂ hback rfl rfl 1).1.here 3
  obtain ⟨-, -, rfl⟩ := distance_ok hdistance
  have s := ((s.noted (setNote_noted hset)).close (o := o) (hopens₂.trans hopens₁) (Nat.le_refl _)
    (by rintro ⟨⟩) hpop).1
  let lab := marks [a.mark, ((a.open .whileLoop none).jump .goto).mark, a₁.mark, (a₂.jump .ifNe).mark]
  refine s.lowers rfl (fun _ _ => by rw [Lowering.node, hkind]; rfl) lab fun {fill _} hctx hjumps => ?_
  have hplace : loop.place lab = o.place fill := place_eq rfl rfl rfl (by rintro ⟨⟩) hjumps
  exact ⟨rfl, rfl, placed_one hctx hplace hopens₁, rfl, fun hentry =>
    ⟨placed_one hctx hplace rfl, rfl, hentry, rfl, trivial⟩⟩

/-- A do-while loop. -/
theorem Visits.doWhile (h : Drafted g a) (hnested : a.nested = nestedIn ps)
    (hkind : node.kind = .doWhile body test) (hok : w.doWhile body test g = .ok () g') :
    Lowers w ps node a g' := by
  simp only [Walk.doWhile, bind_ok] at hok
  obtain ⟨note, g₁, hnote, _, g₂, hnop, top, g₃, htop, index, g₄, hpush, _, g₅, hbody, update, g₆,
    hupdate, _, g₇, hset, _, g₈, htest, back, g₉, hback, n, g₁₀, hdistance, _, g₁₁, hsetNote,
    hpop⟩ := hok
  let loop : Opening := { kind := .doLoop, breaks := 2, continues := 1 }
  have s : Strand w ps a _ _ _ a := (Strand.start h hnested).noted (note_noted hnote)
  obtain ⟨a₁, s, hfollows₁, hopens₁⟩ := s.reach [] (s.drafted.op hnop (by decide))
  obtain ⟨hplaced, rfl⟩ := s.drafted.built.placed htop
  obtain ⟨rfl, s⟩ := (s.here 0).push hpush fun _ => hplaced.offset
  obtain ⟨a₂, s, hfollows₂, hopens₂⟩ := s.child hvisits [loop] hbody
  obtain ⟨rfl, rfl⟩ := s.drafted.built.offset_ok hupdate
  let o : Opened := ⟨.doLoop, none, none, a₁.serial, a₂.main.length⟩
  have s := ((s.here 1).retop (o := o) (s.drafted.setLoopUpdate hopens₂ hset))
  obtain ⟨a₃, s, hfollows₃, hopens₃⟩ := s.child hvisits [loop] htest
  have hplaced₃ : a₃.Placed a₁.main.length top :=
    (((hplaced.grown (follows_open _ _)).grown hfollows₂).grown (n := 0) (s := 0)
      grown_withTop).grown hfollows₃
  have s := (s.back hplaced₃ hback rfl rfl 0).1.here 2
  obtain ⟨-, -, rfl⟩ := distance_ok hdistance
  have s := ((s.noted (setNote_noted hsetNote)).close (o := o) hopens₃ hfollows₁.serial
    (by rintro ⟨⟩) hpop).1
  let lab := marks [a₁.mark, a₂.mark, (a₃.jump .ifNe).mark]
  refine s.lowers hopens₁ (fun _ _ => by rw [Lowering.node, hkind]; rfl) lab
    fun {fill ctx} hctx hjumps => ?_
  have hplace : loop.place lab = o.place fill := place_eq rfl rfl rfl (by rintro ⟨⟩) hjumps
  have hctx₁ : ctx.opens = a₁.opens.map (Opened.place fill) := by rw [hctx, hopens₁]
  exact ⟨rfl, rfl, placed_one hctx₁ hplace rfl, rfl,
    placed_one (o := { o with update := a₁.main.length }) hctx₁ hplace rfl, rfl, placed_nil hctx,
    trivial⟩

/-! ## For loops -/

/-- The initial part of a for loop. -/
theorem Visits.forInit (openings : List Opening) (h : Drafted g a)
    (hnested : a.nested = nestedIn ps) {ending : Opcode} (hok : w.forInit init g = .ok ending g') :
    Reaches (w.setting ps openings) (init.map (.child openings)).toList a g' ∧
      Lowering.forEnding w.tree init = some ending ∧ ending.Simple 0 := by
  cases init with
  | none =>
    obtain ⟨rfl, rfl⟩ := pure_ok.mp hok
    exact ⟨⟨a, h, .nil a⟩, rfl, by decide⟩
  | some init =>
    simp only [Walk.forInit, bind_ok] at hok
    obtain ⟨_, g₁, hinit, node, g₂, hnode, hending⟩ := hok
    obtain ⟨hget, rfl⟩ := node_ok hnode
    rw [Lowering.forEnding, hget]
    cases hkind : node.kind <;> rw [hkind] at hending <;> obtain ⟨rfl, rfl⟩ := pure_ok.mp hending <;>
      exact ⟨hvisits.child openings h hnested hinit, by simp only [Option.map_some, hkind],
        by decide⟩

/-- The update part of a for loop. -/
theorem Visits.forUpdate (openings : List Opening) (h : Drafted g a)
    (hnested : a.nested = nestedIn ps) (hok : w.forUpdate update g = .ok () g') :
    Reaches (w.setting ps openings)
      ((update.map fun update => [.child openings update, Lowering.plain .pop]).getD []) a g' := by
  cases update with
  | none =>
    obtain ⟨-, rfl⟩ := pure_ok.mp hok
    exact ⟨a, h, .nil a⟩
  | some update =>
    simp only [Walk.forUpdate, bind_ok] at hok
    obtain ⟨_, g₁, hupdate, hpop⟩ := hok
    obtain ⟨a₁, h₁, hleads₁⟩ := hvisits.child openings h hnested hupdate
    obtain ⟨a₂, h₂, hleads₂⟩ := h₁.op hpop (by decide)
    exact ⟨a₂, h₂, hleads₁.append hleads₂⟩

/-- The round of a for loop: its body and its update part, where continues lead. -/
theorem Visits.forRound (loop : Opening) {b : Draft} {terms : Terms} {acts : List Action}
    (s : Strand w ps a terms acts g b) {outer : List Opened} {o : Opened}
    (hopens : b.opens = outer ++ [o]) {top start : Nat} {g₁ g₂ g₃ g₄ g₅ : Generator}
    (htop : offset g = .ok top g₁) (hset : setTop outer.length top g₁ = .ok () g₂)
    (hbody : w.child body g₂ = .ok () g₃) (hstart : offset g₃ = .ok start g₄)
    (hmove : setLoopUpdate outer.length start g₄ = .ok () g₅)
    (hupdate : w.forUpdate update g₅ = .ok () g') :
    ∃ d mark, Strand w ps a (fun fill ctx lab =>
        (lab 1 = b.mark ∧ lab 2 = mark ∧
          (ctx.enter lab [loop]).opens = b.opens.map (Opened.place fill)) ∧
        terms fill ctx lab)
      (acts ++ [.here 1] ++ [.child [loop] body] ++ [.here 2] ++
        (update.map fun update => [.child [loop] update, Lowering.plain .pop]).getD []) g' d ∧
      Follows b d ∧ d.opens = outer ++ [{ o with update := mark.pos }] ∧
      d.Placed b.main.length top := by
  obtain ⟨hplaced, rfl⟩ := s.drafted.built.placed htop
  rw [hplaced.offset] at hset
  have s := (s.here 1).retop (s.drafted.setTop hopens hset)
  obtain ⟨a₁, s, hfollows₁, hopens₁⟩ := s.child hvisits [loop] hbody
  obtain ⟨rfl, rfl⟩ := s.drafted.built.offset_ok hstart
  have s := (s.here 2).retop (s.drafted.setLoopUpdate hopens₁ hmove)
  obtain ⟨a₂, s, hfollows₂, hopens₂⟩ :=
    s.reach [loop] (hvisits.forUpdate [loop] s.drafted s.nested hupdate)
  have hfollows : Follows b a₂ :=
    Grown.follow (Grown.trans (Grown.follow grown_withTop hfollows₁) grown_withTop) hfollows₂
  refine ⟨a₂, a₁.mark, s.asking fun hterms => ?_, hfollows, hopens₂, hplaced.grown hfollows⟩
  obtain ⟨⟨hone, htwo, hplace⟩, hterms⟩ := hterms
  rw [hopens, List.map_append] at hplace
  refine ⟨?_, htwo, ?_, hone, hterms⟩ <;> rw [hplace, withTop, List.map_append] <;> rfl

/-- A for loop. -/
theorem Visits.forLoop (h : Drafted g a) (hnested : a.nested = nestedIn ps) {test : Option NodeId}
    (hkind : node.kind = .forLoop init test update body)
    (hok : w.forLoop init test update body g = .ok () g') : Lowers w ps node a g' := by
  simp only [Walk.forLoop, bind_ok] at hok
  obtain ⟨start, g₁, hstart, index, g₂, hpush, ending, g₃, hinit, note, g₄, hnote, _, g₅, hending,
    head, g₆, hhead, entry, g₇, hentry, hok⟩ := hok
  obtain ⟨top, g₈, htop, _, g₉, hset, _, g₁₀, hbody, updateStart, g₁₁, hupdateStart, _, g₁₂, hmove, _,
    g₁₃, hupdate, hok⟩ := hok
  obtain ⟨testStart, g₁₄, htestStart, _, g₁₅, htest, stop, g₁₆, hstop, n₀, g₁₇, hn₀, _, g₁₈, hset₀, n₁,
    g₁₉, hn₁, _, g₂₀, hset₁, n₂, g₂₁, hn₂, _, g₂₂, hset₂, back, g₂₃, hback, hpop⟩ := hok
  let loop : Opening := { kind := .forLoop, breaks := 4, continues := 2 }
  obtain ⟨hplaced, rfl⟩ := h.built.placed hstart
  obtain ⟨rfl, s⟩ := (Strand.start h hnested).push hpush fun _ => hplaced.offset
  obtain ⟨hreaches, hforEnding, hsimple⟩ := hvisits.forInit [loop] s.drafted s.nested hinit
  obtain ⟨a₁, s, -, hopens₁⟩ :=
    s.reach [loop] (hreaches.andThen fun h _ => (h.note hnote).op hending hsimple)
  obtain ⟨-, rfl⟩ := s.drafted.built.offset_ok hhead
  obtain ⟨-, -, rfl⟩ := distance_ok hn₀
  obtain ⟨-, -, rfl⟩ := distance_ok hn₁
  obtain ⟨-, -, rfl⟩ := distance_ok hn₂
  have hnoted := ((setNote_noted hset₀).trans (setNote_noted hset₁)).trans (setNote_noted hset₂)
  cases test with
  | none =>
    obtain ⟨rfl, rfl⟩ := pure_ok.mp hentry
    obtain ⟨-, rfl⟩ := pure_ok.mp htest
    obtain ⟨a₃, mark, s, -, hopens₃, hplaced₃⟩ := hvisits.forRound loop s hopens₁ htop
      hset hbody hupdateStart hmove hupdate
    obtain ⟨-, rfl⟩ := s.drafted.built.offset_ok htestStart
    obtain ⟨-, rfl⟩ := s.drafted.built.offset_ok hstop
    let o : Opened := ⟨.forLoop, none, none, a.serial, mark.pos⟩
    have s := (((s.here 3).noted hnoted).back hplaced₃ hback rfl rfl 1).1.here 4
    have s := (s.close (o := o) hopens₃ (Nat.le_refl _) (by rintro ⟨⟩) hpop).1
    let lab := marks [a.mark, a₁.mark, mark, a₃.mark, (a₃.jump .goto).mark]
    refine s.lowers rfl (fun _ _ => ?_) lab fun {fill ctx} hctx hjumps => ?_
    · rw [Lowering.node, hkind]
      simp [hforEnding, Lowering.forLoop, loop]
    have hplace : loop.place lab = o.place fill := place_eq rfl rfl rfl (by rintro ⟨⟩) hjumps
    have hplaced {b : Draft} : b.opens = a.opens ++ [{ o with update := a.main.length }] →
        (ctx.enter lab [loop]).opens = b.opens.map (Opened.place fill) := placed_one hctx hplace
    exact ⟨rfl, rfl, rfl, ⟨rfl, rfl, hplaced hopens₁⟩, hplaced rfl, trivial⟩
  | some test =>
    simp only [Walk.forEntry, bind_ok, pure_ok] at hentry
    obtain ⟨pc, _, hbegin, rfl, rfl⟩ := hentry
    simp only [Walk.forTest, bind_ok] at htest
    obtain ⟨_, g₂₄, hland, htest⟩ := htest
    have hlength := s.grown.length
    obtain ⟨s, hwaits⟩ := s.begin hbegin rfl rfl 3
    obtain ⟨a₃, mark, s, hfollows₃, hopens₃, hplaced₃⟩ := hvisits.forRound loop s
      hopens₁ htop hset hbody hupdateStart hmove hupdate
    obtain ⟨-, rfl⟩ := s.drafted.built.offset_ok htestStart
    have hwaits₃ := hwaits.follows hfollows₃
    obtain ⟨s, hextends⟩ := s.land hwaits₃ hlength hland
    obtain ⟨a₄, s, hfollows₄, hopens₄⟩ := (s.here 3).child hvisits [loop] htest
    obtain ⟨-, rfl⟩ := s.drafted.built.offset_ok hstop
    have hplaced₄ := (hplaced₃.grown hextends).grown hfollows₄
    let o : Opened := ⟨.forLoop, none, none, a.serial, mark.pos⟩
    have s := ((s.noted hnoted).back hplaced₄ hback rfl rfl 1).1.here 4
    have s := (s.close (o := o) (hopens₄.trans hopens₃) (Nat.le_refl _) (by rintro ⟨⟩) hpop).1
    let lab := marks [a.mark, (a₁.jump .goto).mark, mark, a₃.mark, (a₄.jump .ifNe).mark]
    refine s.lowers rfl (fun _ _ => ?_) lab fun {fill ctx} hctx hjumps => ?_
    · rw [Lowering.node, hkind]
      simp [hforEnding, Lowering.forLoop, loop]
    have hplace : loop.place lab = o.place fill := place_eq rfl rfl rfl (by rintro ⟨⟩) hjumps
    have hplaced {b : Draft} : b.opens = a.opens ++ [{ o with update := a.main.length }] →
        (ctx.enter lab [loop]).opens = b.opens.map (Opened.place fill) := placed_one hctx hplace
    exact ⟨rfl, rfl, placed_one hctx hplace hopens₃, rfl, fun hentry =>
      ⟨⟨rfl, rfl, hplaced hopens₁⟩, hentry, hplaced rfl, trivial⟩⟩

/-! ## For-in loops -/

/-- A for-in loop. -/
theorem Visits.forIn (h : Drafted g a) (hnested : a.nested = nestedIn ps) {declared : Bool}
    {target object : NodeId} (hkind : node.kind = .forIn declared target object body)
    (hok : w.forIn declared target object body g = .ok () g') : Lowers w ps node a g' := by
  simp only [Walk.forIn, bind_ok] at hok
  obtain ⟨targetNode, g₁, hnode, hok⟩ := hok
  obtain ⟨hget, rfl⟩ := node_ok hnode
  obtain ⟨name, hname⟩ : ∃ name, targetNode.kind = .name name := by
    cases hname : targetNode.kind <;> rw [hname] at hok <;>
      first | exact ⟨_, rfl⟩ | exact absurd hok (by simp)
  rw [hname] at hok
  simp only [bind_ok, optional_ok] at hok
  obtain ⟨start, g₂, hstart, index, g₃, hpush, g₄, hdeclare, _, g₅, hobject, _, g₆, hiter, note, g₇,
    hnote, entry, g₈, hentry, hok⟩ := hok
  obtain ⟨top, g₉, htop, _, g₁₀, hset, _, g₁₁, hnext, _, g₁₂, hstore, assigned, g₁₃, hassigned, _, g₁₄,
    hdrop, _, g₁₅, hbody, hok⟩ := hok
  obtain ⟨update, g₁₆, hupdate, _, g₁₇, hmove, _, g₁₈, hland, _, g₁₉, hmore, back, g₂₀, hback, hok⟩ := hok
  obtain ⟨n₁, g₂₁, hn₁, _, g₂₂, hset₁, n₀, g₂₃, hn₀, _, g₂₄, hset₀, _, g₂₅, hpop, stop, g₂₆, hstop, _,
    g₂₇, hregion, hend⟩ := hok
  let loop : Opening := { kind := .forInLoop, breaks := 3, continues := 2 }
  obtain ⟨hplaced, rfl⟩ := h.built.placed hstart
  obtain ⟨rfl, s⟩ := (Strand.start h hnested).push hpush fun _ => hplaced.offset
  obtain ⟨a₁, s, -, hopens₁⟩ := s.reach [loop]
    (((Reaches.optional [.declare name] s.drafted hdeclare fun hx => s.drafted.declare hx).andThen
      fun h hn => hvisits.child [loop] h (hn.trans s.nested) hobject).andThen
      fun h _ => h.emits_simple hiter (by decide))
  have hlength := s.grown.length
  obtain ⟨s, hwaits⟩ := (s.noted (note_noted hnote)).begin hentry rfl rfl 2
  obtain ⟨hplaced, rfl⟩ := s.drafted.built.placed htop
  rw [hplaced.offset] at hset
  have s := (s.here 1).retop (s.drafted.setTop hopens₁ hset)
  -- the next name is stored in front of the body
  have hstored : Reaches (w.setting ps [loop]) _ _ g₁₂ :=
    (s.drafted.op hnext (by decide)).andThen fun h _ => h.storeName hstore
  obtain ⟨a₂, s, hfollows₂, hopens₂⟩ := s.reach [loop] hstored
  obtain ⟨-, rfl⟩ := s.drafted.built.offset_ok hassigned
  obtain ⟨a₃, s, hfollows₃, hopens₃⟩ := s.reach [loop]
    ((s.drafted.op hdrop (by decide)).andThen fun h hn =>
      hvisits.child [loop] h (hn.trans s.nested) hbody)
  have hround := hfollows₂.follow hfollows₃
  obtain ⟨rfl, rfl⟩ := s.drafted.built.offset_ok hupdate
  let o : Opened := ⟨.forInLoop, none, none, a.serial, a₃.main.length⟩
  have s := (s.here 2).retop (o := o) (s.drafted.setLoopUpdate (hopens₃.trans hopens₂) hmove)
  have hwaits₃ : (a₃.withTop a.opens o).Waits .goto a₁.frame a₁.main.length entry :=
    ((hwaits.grown (n := a₁.main.length + 1) (s := 0) grown_withTop
      (Nat.lt_succ_self _)).follows hround).grown (n := a₁.main.length + 1) (s := 0)
      grown_withTop (Nat.lt_succ_self _)
  obtain ⟨s, hextends₃⟩ := s.land hwaits₃ hlength hland
  obtain ⟨a₄, s, hfollows₄, hopens₄⟩ := s.reach [loop] (s.drafted.op hmore (by decide))
  have hplaced₄ : a₄.Placed (a₁.jump .goto).main.length top :=
    ((((hplaced.grown (n := 0) (s := 0) grown_withTop).grown hround).grown (n := 0)
      (s := 0) grown_withTop).grown hextends₃).grown hfollows₄
  obtain ⟨s, hextends₄⟩ := s.back hplaced₄ hback rfl rfl 1
  obtain ⟨-, -, rfl⟩ := distance_ok hn₁
  obtain ⟨-, -, rfl⟩ := distance_ok hn₀
  have s := (s.here 3).noted ((setNote_noted hset₁).trans (setNote_noted hset₀))
  obtain ⟨s, hextends⟩ := s.close (o := o) hopens₄ (Nat.le_refl _) (by rintro ⟨⟩) hpop
  obtain ⟨hplaced', rfl⟩ := s.drafted.built.placed hstop
  simp only [Emit.region, Emit.stackDepth, get_bind, bind_ok, pure_ok] at hregion
  obtain ⟨_, _, ⟨rfl, rfl⟩, hregion⟩ := hregion
  have hdepth := s.drafted.built.depth
  obtain ⟨a₅, s, -, hopens₅⟩ := s.protectIf (p := true)
    ((hplaced₄.grown hextends₄).grown hextends) (fun _ => hplaced') hregion 3 1 3
  obtain ⟨a₆, s, -, hopens₆⟩ := s.reach [] (s.drafted.op hend (by decide))
  let lab := marks [a.mark, (a₁.jump .goto).mark, a₃.mark, (a₄.jump .ifNe).mark]
  refine s.lowers (hopens₆.trans hopens₅) (fun _ _ => ?_) lab fun {fill ctx} hctx => ?_
  · rw [Lowering.node, hkind]
    simp [hget, hname, Lowering.forIn, loop, Walk.setting]
  refine ⟨?_, fun _ => ⟨?_, rfl, rfl⟩, fun hjumps => ?_⟩
  · rw [hopens₅]
    exact placed_nil hctx
  · rw [hdepth]
    rfl
  have hplace : loop.place lab = o.place fill := place_eq rfl rfl rfl (by rintro ⟨⟩) hjumps
  have hplaced {b : Draft} (update : Nat) : b.opens = a.opens ++ [{ o with update }] →
      (ctx.enter lab [loop]).opens = b.opens.map (Opened.place fill) := placed_one hctx hplace
  exact ⟨rfl, rfl, hplaced a₃.main.length rfl, fun hentry => ⟨rfl,
    hplaced (a₁.jump .goto).main.length hopens₂, hplaced (a₁.jump .goto).main.length rfl, rfl, hentry,
    hplaced a.main.length rfl, trivial⟩⟩

end ScriptCompiler
