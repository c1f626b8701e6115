import ScriptCompiler.Compile.Statements
import ScriptCompiler.Proofs.Draft.Recode
import ScriptCompiler.Proofs.Walk.Basic

/-!
# Ways out emit what they are lowered to

Breaks and continues join a chain of the statement they leave, so where they
lead is said by how the hole of that chain is filled. A return is rewritten into
a saved value once it turns out that leaving the statements around takes code.
-/

namespace ScriptCompiler

open Bytes Emit Draft

variable {w : Walk} {ps : Parts} {g g' : Generator} {a b : Draft}
  {s i pc k : Nat} {o : Opened} {chain : Chain} {label : Option UInt16} {kind : Option NoteKind}

/-! ## Breaks and continues -/

/-- A jump out of statements. -/
theorem Drafted.jumpOut (h : Drafted g a) (ho : a.opens[i]? = some o) (hchain : chain.op = .goto)
    (htakes : o.kind.takes chain) (hok : Emit.leaveTo i chain label kind g = .ok pc g') :
    (∀ fill, Lowering.leavable 0
      ((a.opens.drop (i + 1)).map (Opened.place fill)).reverse) ∧
    ∃ a', Drafted g' a' ∧ Follows a a' ∧ a'.opens = a.opens ∧
      ∀ {fill : Hole → Nat} {P : Program} {n : Nat} {ctx : Ctx}, n ≤ a.main.length →
        Fills fill P n a' → ctx.inFunction = w.inFunction →
        ctx.opens = a.opens.map (Opened.place fill) →
        Run w.tree P ps ctx (fun _ => a.mark)
          (.here 0 :: Lowering.leaving 0 (ctx.opens.drop (i + 1)).reverse ++
            [.exit .goto (fill (.chain o.serial chain)) (.back 0)]) a.mark a'.mark := by
  obtain ⟨hleavable, a₁, h₁, hsound₁, hleads₁, -⟩ := h.leaveTo (r := w.setting ps []) ho htakes hok
  rw [hchain] at h₁
  let b : Draft := { a₁ with depth := a₁.depth.set a.depth.depth }
  let jump : Cell Hole := .jump .goto (.chain o.serial chain) a₁.frame
  have hgrown : ∀ n s, Grown n s a₁ (b.emit jump) := fun n s => (grown_depth _).trans <|
    grown_emit fun hole hmem hne => absurd (List.mem_singleton.mp hmem) (hne _ _)
  refine ⟨hleavable, b.emit jump, h₁, hleads₁.grown.trans (hgrown _ _), hleads₁.opens,
    fun {fill P n ctx} hn hfills hin hctx => .here rfl ?_⟩
  have hrun : Run w.tree P ps ctx (fun _ => a.mark) _ a.mark a₁.mark :=
    hleads₁.run hn (hfills.before (hgrown 0 0)) hin (placed_nil hctx)
  rw [List.map_drop, ← hctx] at hrun
  refine hrun.append (.emit ⟨rfl, rfl⟩ (hfills.turn hsound₁ ?_ getElem?_emit_last
    length_emit rfl (hgrown 0 0).high h₁.built.sound rfl
    (fun hquiet _ hback => ⟨hquiet, hback _ rfl⟩) ?_) (.nil _))
  · exact Nat.le_trans hn hleads₁.grown.length
  · rw [Draft.frame, Draft.emit, StackDepth.apply_depth]
    rfl

/-- Asking for literals first does not show. -/
theorem Lowers.of_literals {node : Node} {literals : List Literal} (hincl : a.literals <+: literals)
    (h : Lowers w ps node { a with literals } g') : Lowers w ps node a g' := by
  obtain ⟨a', hdrafted, hfollows, hopens, hrun⟩ := h
  exact ⟨a', hdrafted, (grown_literals _ _ hincl).trans hfollows, hopens, hrun⟩

/-- A jump out of statements is what a node is lowered to. -/
theorem Drafted.lowersExit (h : Drafted g a) {node : Node} (ho : a.opens[i]? = some o)
    (hchain : chain.op = .goto) (htakes : o.kind.takes chain) {place : Open → Nat}
    (hplace : ∀ fill, place (o.place fill) = fill (.chain o.serial chain))
    (hnode : ∀ (fill : Hole → Nat) (ctx : Ctx), ctx.opens = a.opens.map (Opened.place fill) →
      Lowering.node w.tree ctx .conditional node = Lowering.leaveTo ctx i place)
    (hok : Emit.leaveTo i chain label kind g = .ok pc g') : Lowers w ps node a g' := by
  obtain ⟨hleavable, a', h', hfollows, hopens, hrun⟩ := h.jumpOut (w := w) ho hchain htakes hok
  refine ⟨a', h', hfollows, hopens, fun {fill P n ctx} hn hfills hin hctx => ?_⟩
  have hget : ctx.opens[i]? = some (o.place fill) := by
    rw [hctx, List.getElem?_map, ho, Option.map_some]
  have hacts : Lowering.node w.tree ctx .conditional node = some
      (.here 0 :: Lowering.leaving 0 (ctx.opens.drop (i + 1)).reverse ++
        [.exit .goto (fill (.chain o.serial chain)) (.back 0)]) := by
    have hfits : Lowering.leavable 0 (ctx.opens.drop (i + 1)).reverse := by
      rw [hctx, ← List.map_drop]
      exact hleavable fill
    rw [hnode fill ctx hctx, Lowering.leaveTo, hget, ← hplace fill]
    simp only [Option.bind_eq_bind, Option.bind_some, hfits, if_true]
  exact ⟨_, _, _, hacts, hrun hn hfills hin hctx⟩

/-- A break. -/
theorem Drafted.breakTo (h : Drafted g a) {node : Node} {label : Option String}
    (hkind : node.kind = .breakTo label) (hok : Walk.breakTo label g = .ok () g') :
    Lowers w ps node a g' := by
  have hnode : ∀ {ctx : Ctx} {i : Nat}, ctx.breakTarget? label = some i →
      Lowering.node w.tree ctx .conditional node = Lowering.leaveTo ctx i Open.breakTo := by
    intro ctx i htarget
    rw [Lowering.node, hkind]
    simp only [htarget]
    rfl
  cases label with
  | none =>
    simp only [Walk.breakTo, get_bind] at hok
    cases htarget : g.statements.breakTarget? with
    | none => exact absurd hok (by simp [htarget])
    | some i =>
      simp only [htarget, bind_ok, pure_ok] at hok
      obtain ⟨e, g₁, hstatement, pc, _, hleave, -, rfl⟩ := hok
      obtain ⟨-, rfl⟩ := statement_ok hstatement
      obtain ⟨o, ho, htakes⟩ := h.stacked.takes_breaks none htarget
      exact h.lowersExit ho rfl htakes (fun fill => if_pos htakes)
        (fun fill ctx hctx => hnode ((h.stacked.breakTarget hctx).symm.trans htarget)) hleave
  | some label =>
    simp only [Walk.breakTo, get_bind] at hok
    cases htarget : g.statements.labeled? label with
    | none => exact absurd hok (by simp [htarget])
    | some i =>
      simp only [htarget, bind_ok, pure_ok] at hok
      obtain ⟨literal, g₁, hliteral, pc, _, hleave, -, rfl⟩ := hok
      obtain ⟨literals, hincl, -, h₁⟩ := h.literalIndex hliteral
      obtain ⟨o, ho, htakes⟩ := h.stacked.takes_breaks (some label) htarget
      exact (h₁.lowersExit ho rfl htakes (fun fill => if_pos htakes)
        (fun fill ctx hctx => hnode ((h.stacked.labeled hctx label).symm.trans htarget))
        hleave).of_literals hincl

/-- A continue. -/
theorem Drafted.continueTo (h : Drafted g a) {node : Node} {label : Option String}
    (hkind : node.kind = .continueTo label) (hok : Walk.continueTo label g = .ok () g') :
    Lowers w ps node a g' := by
  have hnode : ∀ {ctx : Ctx} {i : Nat}, ctx.continueTarget? label = some i →
      Lowering.node w.tree ctx .conditional node = Lowering.leaveTo ctx i Open.continueTo := by
    intro ctx i htarget
    rw [Lowering.node, hkind]
    simp only [htarget]
    rfl
  cases label with
  | none =>
    simp only [Walk.continueTo, get_bind] at hok
    cases htarget : g.statements.continueTarget? with
    | none => exact absurd hok (by simp [htarget])
    | some i =>
      simp only [htarget, bind_ok, pure_ok] at hok
      obtain ⟨pc, _, hleave, -, rfl⟩ := hok
      obtain ⟨o, ho, htakes⟩ := h.stacked.takes_continues none htarget
      exact h.lowersExit ho rfl htakes (fun fill => if_pos htakes)
        (fun fill ctx hctx => hnode ((h.stacked.continueTarget hctx).symm.trans htarget)) hleave
  | some label =>
    simp only [Walk.continueTo, get_bind] at hok
    cases htarget : g.statements.labeledLoop? label with
    | none => exact absurd hok (by simp [htarget])
    | some i =>
      simp only [htarget, bind_ok, pure_ok] at hok
      obtain ⟨literal, g₁, hliteral, pc, _, hleave, -, rfl⟩ := hok
      obtain ⟨literals, hincl, -, h₁⟩ := h.literalIndex hliteral
      obtain ⟨o, ho, htakes⟩ := h.stacked.takes_continues (some label) htarget
      exact (h₁.lowersExit ho rfl htakes (fun fill => if_pos htakes)
        (fun fill ctx hctx => hnode ((h.stacked.labeledLoop hctx label).symm.trans htarget))
        hleave).of_literals hincl

/-! ## Returns -/

theorem Lowering.flush_instructs (pops : Nat) :
    ∀ act ∈ Lowering.flush pops, act.instructs := by
  intro act hmem
  rw [flush] at hmem
  split at hmem
  · rw [List.mem_singleton.mp hmem]
    rfl
  · cases hmem

/-- Ways out consist of instructions. -/
theorem Lowering.leaving_instructs (pops : Nat) (opens : List Open) :
    ∀ act ∈ Lowering.leaving pops opens, act.instructs := by
  have hone : ∀ (pops : Nat) (last : Action), last.instructs →
      ∀ act ∈ Lowering.flush pops ++ [last], act.instructs := by
    intro pops last hlast act hmem
    rcases List.mem_append.mp hmem with hmem | hmem
    · exact flush_instructs pops act hmem
    · rwa [List.mem_singleton.mp hmem]
  induction opens generalizing pops with
  | nil => exact flush_instructs pops
  | cons o outer ih =>
    intro act hmem
    rw [leaving, List.mem_append, List.mem_append] at hmem
    rcases hmem with (hmem | hmem) | hmem
    · rw [leavingKind] at hmem
      cases hkind : o.kind <;> rw [hkind] at hmem <;>
        first | exact hone _ _ rfl act hmem | cases hmem
    · rw [leavingScope] at hmem
      cases hscope : o.scope <;> rw [hscope] at hmem
      · cases hmem
      · exact hone _ _ rfl act hmem
    · exact ih _ act hmem

/-- A cell that has come later may change. -/
theorem Grown.recode {n : Nat} (h : Grown n s a b) (hk : a.main.length ≤ k) (op' : Opcode)
    (bytes : List UInt8) (frame : Frame) : Grown n s a (b.recode k (.plain op' bytes frame)) := by
  refine { h with own := fun j c hj hole hmem hchain hold => ?_, main := fun j c hj => ?_,
                  length := ?_ }
  · rcases getElem?_recode hj with ⟨-, rfl⟩ | ⟨-, hj⟩
    · cases hmem
    · exact h.own j c hj hole hmem hchain hold
  · have hlt := lt_of_getElem? hj
    rw [Draft.recode, List.getElem?_set, if_neg (by omega)]
    exact h.main j c hj
  · rw [Draft.recode, List.length_set]
    exact h.length

/-- Cells behind the changed one are as before. -/
theorem Fills.of_recode {fill : Hole → Nat} {P : Program} {n : Nat} {c : Cell Hole}
    (h : Fills fill P n (a.recode k c)) (hn : n ≤ k) : Fills fill P (k + 1) a := by
  refine ⟨h.filled, fun j d hj hd => h.main j d (by omega) ?_, h.prolog, h.literals, h.functions,
    h.regions, h.high⟩
  rw [Draft.recode, List.getElem?_set, if_neg (by omega)]
  exact hd

/-- The value of a return. -/
theorem Visits.returned (hvisits : Visits w.tree ps w.visit) (h : Drafted g a)
    (hnested : a.nested = nestedIn ps) {value : Option NodeId}
    (hok : w.returned value g = .ok () g') :
    Reaches (w.setting ps []) [(value.map Lowering.part).getD (Lowering.plain .push)] a g' := by
  cases value with
  | none => exact h.op hok (by decide)
  | some value => exact hvisits.child [] h hnested hok

/-- No code stands between two equal offsets. -/
theorem Grown.length_eq_of_position {n : Nat} (h : Grown n s a b)
    (hposition : position b.main b.main.length = position a.main a.main.length) :
    b.main.length = a.main.length := by
  by_contra hne
  have hlt : a.main.length < b.main.length := Nat.lt_of_le_of_ne h.length (Ne.symm hne)
  have hsize := position_add_size (List.getElem?_eq_getElem hlt) hlt
  rw [h.position_eq (Nat.le_refl _)] at hsize
  have := (b.main[a.main.length]).size_pos
  omega

/-- A draft with a return behind it. -/
def Draft.returning (a : Draft) : Draft :=
  a.emit (.plain .returnTop [] a.frame)

theorem Draft.grown_returning {n : Nat} : Grown n s a a.returning :=
  grown_emit fun hole hmem => by cases hmem

theorem Draft.length_returning : a.returning.main.length = a.main.length + 1 :=
  length_emit

theorem Draft.position_returning :
    position a.returning.main a.returning.main.length = position a.main a.main.length + 1 := by
  rw [length_returning, returning, position_succ getElem?_emit_last, emit,
    position_append (Nat.le_refl _)]
  rfl

/-- A return that `a` ends before saves its value, behind the way out that `b` ends with. -/
def Draft.saving (a b : Draft) : Draft :=
  Draft.recode { b with depth := b.depth.set a.returning.depth.depth } a.main.length
    (.plain .setRval [] a.frame)

/-- The value of a return is in `a₁` and its way out in `a₂`, with the return itself between them. It
is not known yet whether that one stays. -/
structure Returning (w : Walk) (ps : Parts) (node : Node)
    (value : Option NodeId) (a a₁ a₂ : Draft) : Prop where
  kind : node.kind = .returnValue value
  sound : a₁.Sound
  returned : a₁.returning.Sound
  value : Emits (w.setting ps []) [(value.map Lowering.part).getD (Lowering.plain .push)] a a₁
  leavable : ∀ fill, Lowering.leavable 0 (a.opens.map (Opened.place fill)).reverse = true
  way : Leads (w.setting ps []) (fun fill => Lowering.leaving 0
    (a.opens.map (Opened.place fill)).reverse) a₁.returning a₂

namespace Returning

variable {node : Node} {value : Option NodeId} {a₁ a₂ : Draft} {fill : Hole → Nat} {P : Program}
  {n : Nat} {ctx : Ctx}

variable (h : Returning w ps node value a a₁ a₂)

include h

theorem follows : Follows a a₁.returning :=
  h.value.grown.trans Draft.grown_returning

theorem opens : a₂.opens = a.opens :=
  h.way.opens.trans h.value.opens

theorem lowered (hctx : ctx.opens = a.opens.map (Opened.place fill)) :
    Lowering.node w.tree ctx .conditional node = some (Lowering.returnValue ctx value) := by
  rw [Lowering.node, h.kind]
  simp only [hctx, h.leavable fill, if_true]

/-- The way out as a run. -/
theorem leaves (lab : Nat → Mark) (hn : n ≤ a₁.returning.main.length) (hfills : Fills fill P n a₂)
    (hin : ctx.inFunction = w.inFunction) (hctx : ctx.opens = a.opens.map (Opened.place fill)) :
    Run w.tree P ps ctx lab (Lowering.leaving 0 ctx.opens.reverse) a₁.returning.mark a₂.mark := by
  rw [hctx]
  exact h.way.run hn hfills hin (placed_nil (hctx.trans (congrArg _ h.value.opens.symm)))

/-- The return stays if no code leaves statements. -/
theorem stays (hdrafted : Drafted g' { a₂ with depth := a₂.depth.set a₁.returning.depth.depth })
    (hlength : a₂.main.length = a₁.returning.main.length) : Lowers w ps node a g' := by
  refine ⟨_, hdrafted, (h.follows.follow h.way.grown).trans (grown_depth _), h.opens,
    fun {fill P n ctx} hn hfills hin hctx => ?_⟩
  have hfills₂ := hfills.before (grown_depth _)
  have hfills₀ := hfills₂.before h.way.grown.extends
  have hleaving := h.leaves (fun _ => a.mark) (Nat.le_trans hn h.follows.length) hfills₂ hin hctx
  have hempty : Lowering.leaving 0 ctx.opens.reverse = [] := by
    have hpos : a₂.main.length = a₁.returning.main.length + _ :=
      hleaving.length (Lowering.leaving_instructs _ _)
    exact List.length_eq_zero_iff.mp (by omega)
  rw [hempty] at hleaving
  have hmark : mark { a₂ with depth := a₂.depth.set a₁.returning.depth.depth } =
      a₁.returning.mark := by
    obtain ⟨hpos, -, hclosed, hquiet⟩ := Mark.mk.inj hleaving.eq_of_nil
    rw [mark, mark, ← hpos, ← hclosed, ← hquiet]
    rfl
  refine ⟨_, _, fun _ => a.mark, h.lowered hctx, ?_⟩
  rw [hmark, Lowering.returnValue, hempty]
  refine (h.value.run hn (hfills₀.before Draft.grown_returning) hin (placed_nil hctx)).append
    (.emit ⟨rfl, rfl⟩ ?_ (.nil _))
  exact hfills₀.step h.sound (Nat.le_trans hn h.value.grown.length) rfl

/-- Otherwise it saves the value, and another return stands behind the code that leaves the
statements. -/
theorem saves (hsound : a₂.Sound) (hlength : a₂.main.length ≠ a₁.returning.main.length)
    (hdrafted : Drafted g' ((a₁.saving a₂).emit (.plain .retRval [] a₂.frame))) :
    Lowers w ps node a g' := by
  let b := a₁.saving a₂
  let c : Cell Hole := .plain .retRval [] a₂.frame
  have hgrown : ∀ n s, Grown n s b (b.emit c) := fun n s =>
    grown_emit fun hole hmem => by cases hmem
  have hgrown₁ : Grown a.main.length a.serial a₁ b :=
    Grown.recode ((Draft.grown_returning.trans
      (h.way.grown.mono h.follows.length h.follows.serial)).trans (grown_depth _))
      (Nat.le_refl _) _ _ _
  refine ⟨b.emit c, hdrafted, (h.value.grown.trans hgrown₁).trans (hgrown _ _), h.opens,
    fun {fill P n ctx} hn hfills hin hctx => ?_⟩
  have hn₁ : n ≤ a₁.main.length := Nat.le_trans hn h.value.grown.length
  have hfills' := hfills.before (hgrown 0 0)
  have hfills₁ := hfills'.before hgrown₁.extends
  have hfills₂ : Fills fill P (a₁.main.length + 1) a₂ :=
    (Fills.of_recode hfills' hn₁).before (grown_depth _)
  have hleaving := h.leaves (fun _ => a₁.returning.mark) (Nat.le_of_eq Draft.length_returning.symm)
    hfills₂ hin hctx
  have hsome : Lowering.leaving 0 ctx.opens.reverse ≠ [] := fun hempty => by
    rw [hempty] at hleaving
    exact hlength (congrArg Mark.pos hleaving.eq_of_nil).symm
  have hsame : b.main.length = a₂.main.length := List.length_set
  have hsaved : b.main[a₁.main.length]? = some (.plain .setRval [] a₁.frame) := by
    have hlt : a₁.main.length < a₂.main.length := by
      have := h.way.grown.length
      rwa [Draft.length_returning] at this
    rw [show b.main = a₂.main.set a₁.main.length _ from rfl, List.getElem?_set, if_pos rfl, if_pos hlt]
  refine ⟨_, _, fun _ => a₁.returning.mark, h.lowered hctx, ?_⟩
  rw [Lowering.returnValue, if_neg (by simpa using hsome)]
  refine (h.value.run hn hfills₁ hin (placed_nil hctx)).append (.emit ⟨rfl, rfl⟩ ?_ (.here rfl ?_))
  · exact
      { stands := hfills'.main _ _ hn₁ hsaved
        pos := length_emit
        frame := frame_emit (a := a₁) (c := .plain .returnTop [] a₁.frame) rfl
        closed := rfl
        quiet := fun hquiet huses _ => ⟨hquiet, huses⟩
        flows := .inl rfl
        before := hfills₁.room h.sound (Nat.le_refl _)
        behind := hfills₂.room h.returned h.way.grown.high }
  · refine hleaving.append (.emit ⟨rfl, rfl⟩ (hfills.turn (c := c) hsound ?_ ?_ ?_ rfl ?_
      hdrafted.built.sound rfl (fun hquiet _ hback => ⟨hquiet, hback _ rfl⟩) ?_) (.nil _))
    · exact Nat.le_trans hn (h.follows.follow h.way.grown).length
    · rw [← hsame]
      exact getElem?_emit_last
    · rw [← hsame]
      exact length_emit
    · have hhigh : a₂.depth.high ≤ b.depth.high := Nat.le_max_left _ _
      exact Nat.le_trans hhigh (hgrown 0 0).high
    · rw [Draft.frame, emit, StackDepth.apply_depth]
      rfl

end Returning

/-- A return. -/
theorem Visits.returnValue (hvisits : Visits w.tree ps w.visit) (h : Drafted g a)
    (hnested : a.nested = nestedIn ps) {node : Node} {value : Option NodeId}
    (hkind : node.kind = .returnValue value) (hok : w.returnValue value g = .ok () g') :
    Lowers w ps node a g' := by
  simp only [Walk.returnValue, bind_ok] at hok
  obtain ⟨_, g₁, hvalue, top, g₂, hreturn, _, g₃, hleave, stop, g₄, hstop, hok⟩ := hok
  obtain ⟨a₁, h₁, hleads₁⟩ := hvisits.returned h hnested hvalue
  obtain ⟨rfl, hb⟩ : _ ∧ Drafted _ a₁.returning := h₁.simple hreturn (by decide) a₁.frame
  obtain ⟨hleavable, a₂, h₂, hsound₂, hleads₂⟩ := hb.leaveUpTo (r := w.setting ps []) hleave
  obtain ⟨rfl, rfl⟩ := h₂.built.offset_ok hstop
  have hopens : a₁.returning.opens = a.opens := hleads₁.opens
  simp only [List.drop_zero, Option.map_none, Option.getD_none, hopens] at hleads₂ hleavable
  have hreturning : Returning w ps node value a a₁ a₂ :=
    ⟨hkind, h₁.built.sound, hb.built.sound, hleads₁, hleavable, hleads₂⟩
  have hstay : a₂.main.length = a₁.returning.main.length ↔
      position a₂.main a₂.main.length = position a₁.main a₁.main.length + 1 := by
    rw [← Draft.position_returning]
    refine ⟨fun hlength => ?_, hleads₂.grown.length_eq_of_position⟩
    rw [hlength, hleads₂.grown.position_eq (Nat.le_refl _)]
  by_cases hlength : a₂.main.length = a₁.returning.main.length
  · rw [if_neg (by simpa using hstay.mp hlength)] at hok
    obtain ⟨-, rfl⟩ := pure_ok.mp hok
    exact hreturning.stays h₂ hlength
  · rw [if_pos (by simpa using fun heq => hlength (hstay.mpr heq))] at hok
    simp only [Walk.op, bind_ok, pure_ok] at hok
    obtain ⟨_, g₅, hset, pc, _, hretRval, -, rfl⟩ := hok
    have hcell : a₂.main[a₁.main.length]? = some (.plain .returnTop [] a₁.frame) :=
      hleads₂.grown.main _ _ getElem?_emit_last
    have hposition : position a₂.main a₁.main.length = position a₁.main a₁.main.length := by
      rw [hleads₂.grown.position_eq (by rw [Draft.length_returning]; omega)]
      exact position_append (Nat.le_refl _)
    rw [← hposition] at hset
    have h₃ : Drafted _ (a₁.saving a₂) := h₂.recode hcell (hleads₂.grown.settled ▸ h₁.built.settled_le) (by decide) hset
    exact hreturning.saves hsound₂ hlength (h₃.simple hretRval (by decide) a₂.frame).2

end ScriptCompiler
