import ScriptCompiler.Proofs.Draft.Trying
import ScriptCompiler.Proofs.Draft.Hoisting
import ScriptCompiler.Proofs.Walk.Blocks

/-!
# Try statements emit what they are lowered to

The ends of the try block and of the catch clause jump to behind the statement
through one chain of their own. Calls of the finally clause are chained to the
statement and get their destination where the clause starts.
-/

namespace ScriptCompiler

open Bytes Emit Lowering Draft Opened

variable {outer : List Opened} {o : Opened} {finalized : Bool} {k : Nat}
  {handler : Option CatchClause} {finalizer : Option (List NodeId)}

variable {w : Walk} {ps : Parts} {g g' : Generator} {a b : Draft}
  {terms : Terms} {acts : List Action}

/-- The finally clause of a statement is called. -/
theorem Drafted.callFinally (h : Drafted g a) (hopens : a.opens = outer ++ [o]) (around : Opening)
    (hkind : o.kind = .finallyClause) (haround : around.kind = .finallyClause)
    (hgosubs : around.gosubs = 4) (hok : Walk.callFinally outer.length g = .ok () g') :
    Reaches (w.setting ps [around]) [.jump .gosub 4 .flow] a g' := by
  simp only [Walk.callFinally, bind_ok] at hok
  obtain ⟨_, g₁, hnote, last, g₂, hlast, pc, g₃, hlink, hset⟩ := hok
  have ho : a.opens[outer.length]? = some o := by rw [hopens]; exact List.getElem?_concat_length
  obtain ⟨h₁, -⟩ := (h.note hnote).gosub (r := w.setting ps [around]) ho hkind hlast hlink hset
  refine ⟨_, h₁, Leads.of_emit h.built.sound rfl (fun hole hmem hne => ?_)
    fun {fill P n ctx lab} hfills hplaced => ⟨rfl, ?_⟩⟩
  · exact absurd (List.mem_singleton.mp hmem) (hne _ _)
  · have hplace : around.place lab = o.place fill := by
      rw [hopens, List.map_append, Ctx.enter, List.map_singleton] at hplaced
      exact (List.append_inj_right' hplaced rfl |> List.singleton_inj.mp)
    have hfinally : (lab 4).pos = fill (.chain o.serial .gosubs) := by
      have := congrArg Open.finallyAt hplace
      simpa [Opening.place, place, haround, hkind, hgosubs] using this
    simp only [Cell.closed, Cell.jump, Operands.closed, List.map_cons, List.map_nil, hfinally]
    rfl

/-- The finally clause of a statement is called if it has one. -/
theorem Drafted.callFinallyIf (h : Drafted g a) (hopens : a.opens = outer ++ [o]) (around : Opening)
    (hkind : finalized → o.kind = .finallyClause)
    (haround : finalized → around.kind = .finallyClause) (hgosubs : around.gosubs = 4)
    (hok : (if finalized then Walk.callFinally outer.length else pure ()) g = .ok () g') :
    Reaches (w.setting ps [around]) (Lowering.callFinally finalized) a g' := by
  cases finalized with
  | false =>
    obtain ⟨-, rfl⟩ := pure_ok.mp hok
    exact ⟨a, h, .nil a⟩
  | true => exact h.callFinally hopens around (hkind rfl) (haround rfl) hgosubs hok

/-- A catch clause. -/
theorem Visits.catchClause (hvisits : Visits w.tree ps w.visit) (around : Opening)
    (s : Strand w ps a terms acts g b) {clause : CatchClause}
    (hok : w.catchClause clause g = .ok () g') :
    ∃ d, Strand w ps a (fun fill ctx lab =>
        ((ctx.enter lab [around]).opens = b.opens.map (place fill) ∧ lab 2 = b.mark) ∧
          terms fill ctx lab)
      (acts ++ Lowering.catchClause around clause) g' d ∧ Follows b d ∧ d.opens = b.opens := by
  simp only [Walk.catchClause, bind_ok] at hok
  obtain ⟨note, g₁, hnote, start, g₂, hstart, index, g₃, hpush, count, g₄, hcount, _, g₅, henter, _,
    g₆, hexception, slot, g₇, hlookup, hok⟩ := hok
  let caught : Opening := { kind := .catchBlock, names := some [clause.param], top := 2 }
  have hserial := s.grown.serial
  have s := s.noted (note1_noted hnote)
  obtain ⟨-, rfl⟩ := s.drafted.built.offset_ok hstart
  obtain ⟨rfl, s⟩ := s.pushBlock hpush rfl
  obtain ⟨rfl, rfl⟩ := s.drafted.blockCount List.getElem?_concat_length rfl hcount
  cases slot with
  | none => exact absurd hok (by simp)
  | some slot =>
    simp only [bind_ok] at hok
    obtain ⟨_, g₈, hset, _, g₉, hbody, _, g₁₀, hleave, _, g₁₁, hpop, stop, g₁₂, hstop, n, g₁₃,
      hdistance, hsetNote⟩ := hok
    obtain ⟨a₁, s, hfollows₁, hopens₁⟩ := s.reach [around, caught]
      (((((s.drafted.emits_enterBlock henter).andThen fun h _ => h.op hexception (by decide)).andThen
        fun h _ => h.bindName .catchParameter hlookup hset).andThen fun h hn =>
        hvisits.children [around, caught] h (hn.trans s.nested) hbody).andThen fun h _ =>
        h.emits_simple hleave ⟨rfl, rfl, rfl, by decide, by decide⟩)
    have hsound := s.drafted.built.sound
    have s := (s.close hopens₁ hserial (by rintro ⟨⟩) hpop).1
    obtain ⟨-, rfl⟩ := s.drafted.built.offset_ok hstop
    obtain ⟨-, -, rfl⟩ := distance_ok hdistance
    refine ⟨_, (s.noted (setNote_noted hsetNote)).asking fun {fill ctx lab} hterms _ =>
      ⟨?_, hterms.2⟩, ((follows_open _ _).follow hfollows₁).trans
        (grown_close hsound (by simp [hopens₁, Draft.open]) (Nat.le_refl _)), rfl⟩
    have hplace : caught.place lab = place fill
        ⟨.catchBlock, none, some ⟨b.depth.depth.toNat, [clause.param]⟩, b.serial, b.main.length⟩ :=
      place_eq rfl rfl (by rw [hterms.1.2]; rfl) (by rintro ⟨⟩) ⟨by rintro ⟨⟩, by rintro ⟨⟩⟩
    rw [Draft.open, List.map_append, ← hterms.1.1, List.map_singleton, ← hplace]
    simp [Ctx.enter]

/-- The jump to behind the statement at the end of one of its parts. -/
theorem Drafted.exitPart (h : Drafted g a) {pc : Nat} {last : Option Nat} {note : Nat}
    {g₁ : Generator} (hk : k ≤ a.main.length) (hopen : a.filled (.exits k) = none)
    (hlast : a.head (.exits k) = last) (hnote : Emit.note .hidden g = .ok note g₁)
    (hlink : Emit.link .backpatch last g₁ = .ok pc g') :
    Drafted g' (a.emit (.jump .goto (.exits k) a.frame)) ∧
      (a.emit (.jump .goto (.exits k) a.frame)).head (.exits k) = some pc ∧
      ∀ s, Grown k s a (a.emit (.jump .goto (.exits k) a.frame)) := by
  obtain ⟨h₁, hhead⟩ := (h.note hnote).exit hk hopen hlast hlink
  refine ⟨h₁, hhead, fun s => grown_emit fun hole hmem _ => ?_⟩
  rw [List.mem_singleton.mp hmem]
  exact Nat.lt_irrefl _

/-- The catch part of a try statement whose exits are chained from the cell at `k` on. -/
theorem Visits.catchPart (hvisits : Visits w.tree ps w.visit) (around : Opening)
    (s : Strand w ps a terms acts g b) (hopens : b.opens = outer ++ [o])
    (hkind : finalized → o.kind = .finallyClause)
    (haround : finalized → around.kind = .finallyClause) (hgosubs : around.gosubs = 4)
    {exits exits' : Nat} (hle : a.main.length ≤ k) (hk : k < b.main.length)
    (hopen : b.filled (.exits k) = none) (hhead : b.head (.exits k) = some exits)
    (hok : w.catchPart outer.length finalized exits handler g = .ok exits' g') :
    ∃ d, Strand w ps a (fun fill ctx lab =>
        ((ctx.enter lab [around]).opens = b.opens.map (place fill) ∧ lab 2 = b.mark ∧
          fill (.exits k) = (lab 5).pos) ∧ terms fill ctx lab)
      (acts ++ (handler.map fun clause =>
        Lowering.catchClause around clause ++ Lowering.callFinally finalized ++
          [.jump .goto 5 .flow]).getD []) g' d ∧
      Extends b d ∧ d.opens = b.opens ∧ d.filled (.exits k) = none ∧
      d.head (.exits k) = some exits' := by
  cases handler with
  | none =>
    obtain ⟨rfl, rfl⟩ := pure_ok.mp hok
    refine ⟨b, ?_, Grown.refl _ _ _, rfl, hopen, hhead⟩
    rw [Option.map_none, Option.getD_none, List.append_nil]
    exact s.asking fun hterms => hterms.2
  | some clause =>
    simp only [Walk.catchPart, bind_ok, optional_ok] at hok
    obtain ⟨_, g₁, hclause, g₂, hcall, note, g₃, hnote, hlink⟩ := hok
    obtain ⟨a₁, s, hfollows₁, hopens₁⟩ := hvisits.catchClause around s hclause
    obtain ⟨a₂, s, hfollows₂, hopens₂⟩ := s.reach [around]
      (s.drafted.callFinallyIf (hopens₁.trans hopens) around hkind haround hgosubs hcall)
    have hfollows := hfollows₁.follow hfollows₂
    have hopen₂ : a₂.filled (.exits k) = none := (hfollows.kept (.exits k) hk).trans hopen
    obtain ⟨h₃, hhead₃, hgrown₃⟩ := s.drafted.exitPart
      (Nat.le_trans (Nat.le_of_lt hk) hfollows.length) hopen₂
      ((hfollows.head_exits hk).trans hhead) hnote hlink
    have s := s.leap h₃ (fun _ => Nat.not_lt.mpr hle) 5
    refine ⟨_, ?_, hfollows.extends.trans (hgrown₃ 0).extends, hopens₂.trans hopens₁, hopen₂, hhead₃⟩
    rw [Option.map_some, Option.getD_some, ← List.append_assoc, ← List.append_assoc]
    refine s.asking fun hterms => ?_
    obtain ⟨⟨hplaced, htwo, hfive⟩, hterms⟩ := hterms
    rw [hopens₁]
    exact ⟨hfive, hplaced, ⟨hplaced, htwo⟩, hterms⟩

theorem firstLine_noted {ids : List NodeId} (hok : w.firstLine ids g = .ok () g') : Noted g g' := by
  cases ids with
  | nil =>
    obtain ⟨-, rfl⟩ := pure_ok.mp hok
    exact .refl g
  | cons first rest =>
    simp only [Walk.firstLine, bind_ok] at hok
    obtain ⟨node, g₁, hnode, hline⟩ := hok
    obtain ⟨-, rfl⟩ := node_ok hnode
    exact updateLine_noted hline

theorem Draft.grown_reachFinally {n s : Nat} (hopen : a.filled (.chain o.serial .gosubs) = none)
    (hs : s ≤ o.serial) : Grown n s a (a.reachFinally outer o) :=
  (grown_fill hopen (Nat.not_lt.mpr hs)).trans grown_withTop

/-- The finally clause of a try statement, if it has one. -/
theorem Visits.finallyPart (hvisits : Visits w.tree ps w.visit) (s : Strand w ps a terms acts g b)
    (hopens : b.opens = outer ++ [o]) (hserial : a.serial ≤ o.serial)
    (hkind : o.kind = if finalizer.isSome then .finallyClause else .tryBlock)
    (hbare : o.label = none ∧ o.scope = none) {start stop : Nat}
    (hok : w.finallyPart outer.length stop finalizer g = .ok start g') :
    ∃ d o', Strand w ps a (fun fill ctx lab =>
        (finalizer.isSome → fill (.chain o.serial .gosubs) = b.main.length) →
        (ctx.opens = outer.map (place fill) ∧ lab 4 = b.mark) ∧ terms fill ctx lab)
      (acts ++ (finalizer.map finallyClause).getD []) g' d ∧
      Grown b.main.length o.serial b d ∧ d.opens = outer ++ [o'] ∧ o'.serial = o.serial ∧
      o'.kind ≠ .finallyClause ∧ (finalizer.isSome → d.Placed b.main.length start) := by
  cases finalizer with
  | none =>
    obtain ⟨rfl, rfl⟩ := pure_ok.mp hok
    have hkind' : o.kind = .tryBlock := hkind
    refine ⟨b, o, ?_, Grown.refl _ _ _, hopens, rfl, by rw [hkind']; rintro ⟨⟩, by rintro ⟨⟩⟩
    rw [Option.map_none, Option.getD_none, List.append_nil]
    exact s.asking fun hterms => (hterms (by rintro ⟨⟩)).2
  | some body =>
    have hkind' : o.kind = .finallyClause := hkind
    simp only [Walk.finallyPart, bind_ok, pure_ok] at hok
    obtain ⟨start, g₁, hstart, last, g₂, hlast, _, g₃, hresolve, _, g₄, hclear, _, g₅, hset, _, g₆,
      hline, _, g₇, hmark, _, g₈, hbody, _, _, hretSub, rfl, rfl⟩ := hok
    obtain ⟨hplaced, rfl⟩ := s.drafted.built.placed hstart
    rw [hplaced.offset] at hresolve
    have hmem : o ∈ b.opens := by simp [hopens]
    have hsound := s.drafted.built.sound
    have hopen := hsound.unfilled o hmem .gosubs (by rw [hkind']; rfl)
    have hgrown₁ {n m : Nat} (hm : m ≤ o.serial) : Grown n m b (b.reachFinally outer o) :=
      Draft.grown_reachFinally hopen hm
    have s := ((s.here 4).still (s.drafted.reachFinally hopens hkind' hlast hresolve hclear hset)
      (hgrown₁ hserial) rfl).noted (firstLine_noted hline)
    let opening : Opening := { kind := .subroutine }
    obtain ⟨a₁, s, hfollows₁, hopens₁⟩ := s.reach [opening]
      (((s.drafted.op hmark (by decide)).andThen fun h hn =>
        hvisits.children [opening] h (hn.trans s.nested) hbody).andThen fun h _ =>
        h.op hretSub (by decide))
    have hgrown : Grown b.main.length o.serial b a₁ :=
      (hgrown₁ (Nat.le_refl _)).trans
        (hfollows₁.mono (Nat.le_refl _) (Nat.le_of_lt (hsound.serials o hmem)))
    have s := s.knowing (fun fill => fill (.chain o.serial .gosubs) = b.main.length)
      fun hfills => hfills.filled _ _ (hfollows₁.filled _ _ filled_fill_self)
    refine ⟨a₁, { o with kind := .subroutine }, ?_, hgrown, hopens₁, rfl, (by rintro ⟨⟩),
      fun _ => hplaced.grown hgrown⟩
    rw [Option.map_some, Option.getD_some, finallyClause]
    have hshape : acts ++ ([.here 4, plain .finallyMark] ++ body.map (.child [opening]) ++
        [plain .retSub]) = acts ++ [.here 4] ++ ([plain .finallyMark] ++
        body.map (.child [opening]) ++ [plain .retSub]) := by simp
    rw [hshape]
    refine s.asking fun {fill ctx lab} hterms hgosubs => ?_
    obtain ⟨⟨hctx, hfour⟩, hterms⟩ := hterms fun _ => hgosubs
    refine ⟨?_, hfour, hterms⟩
    rw [Ctx.enter, hctx, reachFinally, withTop, List.map_append, hbare.1, hbare.2]
    rfl

/-- A try statement is opened the way it is placed. -/
theorem place_trying {kind : StatementKind} {serial update : Nat} {lab : Nat → Mark}
    {fill : Hole → Nat} (hkind : kind = .finallyClause ∨ kind = .tryBlock)
    (hgosubs : kind = .finallyClause → (lab 4).pos = fill (.chain serial .gosubs)) :
    Opening.place lab { kind, gosubs := 4 } =
      place fill ⟨kind, none, none, serial, update⟩ := by
  rcases hkind with rfl | rfl
  · simp only [Opening.place, place, hgosubs rfl]
    rfl
  · rfl

/-- A try statement. -/
theorem Visits.tryBlock (hvisits : Visits w.tree ps w.visit) (h : Drafted g a)
    (hnested : a.nested = nestedIn ps) {node : Node} {body : List NodeId}
    (hkind : node.kind = .tryBlock body handler finalizer)
    (hok : w.tryBlock body handler finalizer g = .ok () g') : Lowers w ps node a g' := by
  simp only [Walk.tryBlock, bind_ok, optional_ok] at hok
  obtain ⟨top, g₁, htop, index, g₂, hpush, depth, g₃, hdepth, _, g₄, htryMark, start, g₅, hstart, _,
    g₆, hbody, g₇, hcall, note, g₈, hnote, exits, g₉, hexits, hok⟩ := hok
  obtain ⟨stop, g₁₀, hstop, exits', g₁₁, hcatch, finallyStart, g₁₂, hfinally, hok⟩ := hok
  obtain ⟨_, g₁₃, hpop, _, g₁₄, hbrace, _, g₁₅, hnop, here, g₁₆, hhere, _, g₁₇, hresolve, g₁₈, hregion₁,
    hregion₂⟩ := hok
  let kind : StatementKind := if finalizer.isSome then .finallyClause else .tryBlock
  let around : Opening := { kind, gosubs := 4 }
  let o : Opened := ⟨kind, none, none, a.serial, a.main.length⟩
  have hloop : kind.isLoop = false := by
    simp only [kind]
    split <;> rfl
  have haround : finalizer.isSome → kind = .finallyClause := fun hsome => if_pos hsome
  obtain ⟨-, rfl⟩ := h.built.offset_ok htop
  obtain ⟨rfl, s⟩ := ((Strand.start h hnested).here 0).push hpush fun htrue => by
    rw [hloop] at htrue
    cases htrue
  simp only [Emit.stackDepth, get_bind, pure_ok] at hdepth
  obtain ⟨rfl, rfl⟩ := hdepth
  have hdepth := s.drafted.built.depth
  obtain ⟨a₁, s, -, hopens₁⟩ := s.reach [around] (s.drafted.op htryMark (by decide))
  obtain ⟨hplaced₁, rfl⟩ := s.drafted.built.placed hstart
  obtain ⟨a₂, s, hfollows₂, hopens₂⟩ :=
    (s.here 1).reach [around] (hvisits.children [around] s.drafted s.nested hbody)
  obtain ⟨a₃, s, hfollows₃, hopens₃⟩ := s.reach [around]
    (s.drafted.callFinallyIf (hopens₂.trans hopens₁) around haround haround rfl hcall)
  have hlength := s.grown.length
  obtain ⟨hopen₃, hhead₃⟩ := s.drafted.built.sound.exits_open
  let b := a₃.emit (.jump .goto (.exits a₃.main.length) a₃.frame)
  obtain ⟨h₄, hhead₄, hgrown₄⟩ : Drafted _ b ∧ _ :=
    s.drafted.exitPart (Nat.le_refl _) hopen₃ hhead₃ hnote hexits
  have s := s.leap h₄ (fun _ => Nat.not_lt.mpr hlength) 5
  have hk : a₃.main.length < b.main.length := by
    rw [length_emit]
    exact Nat.lt_succ_self _
  obtain ⟨hplaced₄, rfl⟩ := s.drafted.built.placed hstop
  have hopens₄ : b.opens = a.opens ++ [o] := hopens₃.trans (hopens₂.trans hopens₁)
  obtain ⟨a₅, s, hextends₅, hopens₅, hopen₅, hhead₅⟩ := hvisits.catchPart around (s.here 2) hopens₄
    haround haround rfl hlength hk hopen₃ hhead₄ hcatch
  have hk₅ := Nat.lt_of_lt_of_le hk hextends₅.length
  obtain ⟨a₆, o', s, hgrown₆, hopens₆, hserial, hkind', hplaced₆⟩ := hvisits.finallyPart s
    (hopens₅.trans hopens₄) (Nat.le_refl _) rfl ⟨rfl, rfl⟩ hfinally
  have hserial : o'.serial = a.serial := hserial
  have hgrown₇ : Grown a₅.main.length a.serial a₆ (a₆.close a.opens o') :=
    grown_close s.drafted.built.sound (by simp [hopens₆]) (Nat.le_of_eq hserial.symm)
  obtain ⟨s, hextends₇⟩ := s.close hopens₆ (Nat.le_of_eq hserial.symm) hkind' hpop
  have s := s.noted (note_noted hbrace)
  have hserial₇ := s.grown.serial
  obtain ⟨a₈, s, hfollows₈, hopens₈⟩ := s.reach [] (s.drafted.op hnop (by decide))
  obtain ⟨rfl, rfl⟩ := s.drafted.built.offset_ok hhere
  have hgrown₈ : Grown a₅.main.length a.serial a₅ a₈ :=
    (Grown.trans hgrown₆ hgrown₇).trans (hfollows₈.mono hgrown₆.length hserial₇)
  have hopen₈ : a₈.filled (.exits a₃.main.length) = none := (hgrown₈.kept (.exits _) hk₅).trans hopen₅
  have h₉ := s.drafted.resolveExits (Nat.lt_of_lt_of_le hk₅ hgrown₈.length) hopen₈
    ((hgrown₈.head_exits hk₅).trans hhead₅) hresolve
  obtain ⟨s, hextends₉⟩ := s.filling h₉ hopen₈ (Nat.not_lt.mpr hlength)
  have hextends₄ := (hextends₅.trans hgrown₈.extends).trans hextends₉
  have hplaced₁' := ((hplaced₁.grown (hfollows₂.follow hfollows₃)).grown (hgrown₄ 0)).grown hextends₄
  obtain ⟨b₁, s, hgrown, hopens'⟩ :=
    (s.here 5).protectIf hplaced₁' (fun _ => hplaced₄.grown hextends₄) hregion₁ 0 1 2
  obtain ⟨b₂, s, -, hopens''⟩ := s.protectIf (hplaced₁'.grown (hgrown 0 0)) (fun hsome =>
    (((hplaced₆ hsome).grown (hextends₇.trans hfollows₈.extends)).grown hextends₉).grown (hgrown 0 0))
    hregion₂ 0 1 4
  let lab := marks [a.mark, a₁.mark, b.mark, a.mark, a₅.mark, a₈.mark]
  refine s.lowers (hopens''.trans (hopens'.trans hopens₈)) (fun _ _ => ?_) lab
    fun {fill ctx} hctx => ?_
  · rw [Lowering.node, hkind]
    simp [Lowering.tryBlock, around, kind]
  have hlevel : (lab 0).frame.depth = (a.open kind none).depth.depth := rfl
  rw [hdepth]
  refine ⟨fun _ => ⟨hlevel, rfl, rfl⟩, fun _ => ⟨hlevel, rfl, rfl⟩, rfl, fun hfive =>
    ⟨placed_nil hctx, fun _ hgosubs => ?_⟩⟩
  have hplace : around.place lab = o.place fill := by
    refine place_trying ?_ fun hfinally => ?_
    · simp only [kind]
      split
      · exact .inl rfl
      · exact .inr rfl
    · refine (hgosubs ?_).symm
      by_contra hnone
      rw [show kind = .tryBlock from if_neg hnone] at hfinally
      cases hfinally
  have hplaced {b : Draft} : b.opens = a.opens ++ [o] →
      (ctx.enter lab [around]).opens = b.opens.map (place fill) := placed_one hctx hplace
  exact ⟨⟨hctx, rfl⟩, ⟨hplaced hopens₄, rfl, hfive⟩, rfl, hfive, hplaced (hopens₂.trans hopens₁),
    hplaced hopens₁, rfl, hplaced rfl, rfl, trivial⟩

end ScriptCompiler
