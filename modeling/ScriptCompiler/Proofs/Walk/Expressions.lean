import ScriptCompiler.Compile.Expressions
import ScriptCompiler.Proofs.Draft.Logic
import ScriptCompiler.Proofs.Walk.Strand

/-!
# Expressions emit what they are lowered to
-/

namespace ScriptCompiler

open Bytes Emit Lowering Draft

variable {w : Walk} {ps : Parts} {r : Setting} {openings : List Opening}
  {g g' : Generator} {a b : Draft} {binary : Option BinaryOp} {terms : Terms} {acts : List Action}
  {op : Opcode} {k : Nat} {frame : Frame} {operands values : List NodeId} {node : Node}

theorem Drafted.number (h : Drafted g a) {value : Binary64}
    (hok : Walk.number value g = .ok () g') : Reaches r [Lowering.number value] a g' := by
  rw [Walk.number] at hok
  rw [Lowering.number]
  cases hint : value.toInt32? with
  | none =>
    rw [hint] at hok
    exact h.emits_literalOp hok rfl rfl rfl
  | some z =>
    rw [hint] at hok
    simp only at hok ⊢
    split at hok
    · rename_i h0
      rw [if_pos h0]
      exact h.op hok (by decide)
    rename_i h0
    rw [if_neg h0]
    split at hok
    · rename_i h1
      rw [if_pos h1]
      exact h.op hok (by decide)
    rename_i h1
    rw [if_neg h1]
    split at hok
    · rename_i h2
      rw [if_pos h2]
      simp only [bind_ok, pure_ok] at hok
      obtain ⟨pc, _, hok, -, rfl⟩ := hok
      exact h.emits_simple hok ⟨rfl, rfl, rfl, by decide, by decide⟩
    rename_i h2
    rw [if_neg h2]
    split at hok
    · rename_i h3
      rw [if_pos h3]
      have hop := h.u16Op (r := r) hok (by decide)
      rwa [UInt16.toNat_ofNat', Nat.mod_eq_of_lt (by omega)] at hop
    · rename_i h3
      rw [if_neg h3]
      simp only [bind_ok, pure_ok] at hok
      obtain ⟨pc, _, hok, -, rfl⟩ := hok
      exact h.emits_simple hok ⟨rfl, rfl, rfl, by decide, by decide⟩

theorem BinaryOp.simple (operator : BinaryOp) : operator.opcode.Simple 0 := by
  cases operator <;> decide

theorem UnaryOp.simple (operator : UnaryOp) : operator.opcode.Simple 0 := by
  cases operator <;> decide

theorem Drafted.compoundOp (h : Drafted g a) (hok : Walk.compoundOp binary g = .ok () g') :
    Reaches r (compound binary) a g' := by
  cases binary with
  | none =>
    obtain ⟨-, rfl⟩ := pure_ok.mp hok
    exact ⟨a, h, .nil a⟩
  | some operator =>
    simp only [Walk.compoundOp, bind_ok] at hok
    obtain ⟨_, g₁, hnote, hop⟩ := hok
    exact (h.note hnote).op hop operator.simple

/-- An assignment. -/
theorem Visits.assign (hvisits : Visits w.tree ps w.visit) (h : Drafted g a)
    (hnested : a.nested = nestedIn ps) {target value : NodeId}
    (hok : w.assign binary target value g = .ok () g') :
    ∃ acts, Lowering.assign w.tree binary target value = some acts ∧
      Reaches (w.setting ps []) acts a g' := by
  simp only [Walk.assign, bind_ok] at hok
  obtain ⟨node, g₁, hnode, hok⟩ := hok
  obtain ⟨hget, rfl⟩ := node_ok hnode
  rw [Lowering.assign, hget, Option.map_some]
  cases hkind : node.kind with rw [hkind] at hok
  | name name =>
    simp only [optional_ok, bind_ok] at hok
    obtain ⟨g₂, hfirst, _, g₃, hvalue, _, g₄, hcompound, hstore⟩ := hok
    obtain ⟨a₁, h₁, hleads₁⟩ := Reaches.optional [part target] h hfirst
      fun hx => hvisits.child [] h hnested hx
    obtain ⟨a₂, h₂, hleads₂⟩ := hvisits.child [] h₁ (hleads₁.grown.nested.trans hnested) hvalue
    obtain ⟨a₃, h₃, hleads₃⟩ := h₂.compoundOp hcompound
    obtain ⟨a₄, h₄, hleads₄⟩ := h₃.storeName hstore
    exact ⟨_, rfl, a₄, h₄, (hleads₁.append (hleads₂.append hleads₃)).append hleads₄⟩
  | member object property =>
    simp only [optional_two_ok, bind_ok] at hok
    obtain ⟨_, g₂, hobject, g₃, hread, _, g₄, hvalue, _, g₅, hcompound, hset⟩ := hok
    obtain ⟨a₁, h₁, hleads₁⟩ := hvisits.child [] h hnested hobject
    obtain ⟨a₂, h₂, hleads₂⟩ := Reaches.optional (r := w.setting ps [])
      [plain .dup, .literal .getProp (.string property)] h₁ hread fun hx => by
        rw [bind_ok] at hx
        obtain ⟨_, g₆, hdup, hget⟩ := hx
        obtain ⟨b₁, k₁, hl₁⟩ := h₁.op hdup (by decide)
        obtain ⟨b₂, k₂, hl₂⟩ := k₁.emits_literalOp hget rfl rfl rfl
        exact ⟨b₂, k₂, hl₁.append hl₂⟩
    have hnested₂ := hleads₂.grown.nested.trans (hleads₁.grown.nested.trans hnested)
    obtain ⟨a₃, h₃, hleads₃⟩ := hvisits.child [] h₂ hnested₂ hvalue
    obtain ⟨a₄, h₄, hleads₄⟩ := h₃.compoundOp hcompound
    obtain ⟨a₅, h₅, hleads₅⟩ := h₄.emits_literalOp hset rfl rfl rfl
    exact ⟨_, rfl, a₅, h₅,
      ((hleads₁.append hleads₂).append (hleads₃.append hleads₄)).append hleads₅⟩
  | index object key =>
    simp only [optional_two_ok, bind_ok] at hok
    obtain ⟨_, g₂, hobject, _, g₃, hkey, g₄, hread, _, g₅, hvalue, _, g₆, hcompound, hset⟩ := hok
    obtain ⟨a₁, h₁, hleads₁⟩ := hvisits.child [] h hnested hobject
    have hnested₁ := hleads₁.grown.nested.trans hnested
    obtain ⟨a₂, h₂, hleads₂⟩ := hvisits.child [] h₁ hnested₁ hkey
    have hnested₂ := hleads₂.grown.nested.trans hnested₁
    obtain ⟨a₃, h₃, hleads₃⟩ := Reaches.optional (r := w.setting ps [])
      [plain .dup2, plain .getElem] h₂ hread fun hx => by
        rw [bind_ok] at hx
        obtain ⟨_, g₇, hdup, hget⟩ := hx
        obtain ⟨b₁, k₁, hl₁⟩ := h₂.op hdup (by decide)
        obtain ⟨b₂, k₂, hl₂⟩ := k₁.op hget (by decide)
        exact ⟨b₂, k₂, hl₁.append hl₂⟩
    have hnested₃ := hleads₃.grown.nested.trans hnested₂
    obtain ⟨a₄, h₄, hleads₄⟩ := hvisits.child [] h₃ hnested₃ hvalue
    obtain ⟨a₅, h₅, hleads₅⟩ := h₄.compoundOp hcompound
    obtain ⟨a₆, h₆, hleads₆⟩ := h₅.op hset (by decide)
    exact ⟨_, rfl, a₆, h₆, (((hleads₁.append hleads₂).append hleads₃).append
      (hleads₄.append hleads₅)).append hleads₆⟩
  | _ =>
    exact absurd hok (by simp)

/-! ## Short-circuit chains -/

theorem LogicalOp.opcode_cases (operator : LogicalOp) :
    operator.opcode = .and ∨ operator.opcode = .or := by
  cases operator with
  | and => exact .inl rfl
  | or => exact .inr rfl

/-- The middle operands of a chain, each with a jump that joins it. -/
theorem Visits.middleOperands (hvisits : Visits w.tree ps w.visit) {last : Nat} {js : List Nat}
    (s : Strand w ps a terms acts g b) (hle : a.main.length ≤ k)
    (hlinked : b.Linked op k (js ++ [last]))
    (hlast : b.main[last]? = some (.jump op (.logic k) frame)) (hk : k < b.main.length)
    (hok : w.middleOperands (position b.main last) operands g = .ok () g') :
    ∃ d js', Strand w ps a (fun fill ctx lab =>
        (ctx.opens = b.opens.map (Opened.place fill) ∧ fill (.logic k) = (lab 0).pos) ∧
          terms fill ctx lab)
      (acts ++ guarded op operands) g' d ∧ Extends b d ∧ d.opens = b.opens ∧
      d.Linked op k (js ++ [last] ++ js') ∧ js'.length = operands.length := by
  induction operands generalizing g b terms acts js last frame with
  | nil =>
    obtain ⟨-, rfl⟩ := pure_ok.mp hok
    refine ⟨b, [], ?_, Grown.refl _ _ _, rfl, by simpa using hlinked, rfl⟩
    rw [guarded, List.flatMap_nil, List.append_nil]
    exact s.asking fun hterms => hterms.2
  | cons operand operands ih =>
    simp only [Walk.middleOperands, bind_ok] at hok
    obtain ⟨_, g₁, hchild, next, g₂, hjump, delta, g₃, hspan, _, g₄, hset, hrest⟩ := hok
    obtain ⟨a₁, s, hfollows₁, hopens₁⟩ := s.child hvisits [] hchild
    have hlt := lt_of_getElem? hlast
    have hlinked₁ := hlinked.grown hfollows₁ hk
    have hk₁ : k < a₁.main.length := Nat.lt_of_lt_of_le hk hfollows₁.length
    rw [← hfollows₁.position_eq (Nat.le_of_lt hlt)] at hspan hset
    obtain ⟨rfl, h₂⟩ := s.drafted.nextOperand hlinked₁ (hfollows₁.main last _ hlast)
      (Nat.le_of_lt hk₁) hjump hspan hset
    have s := s.leap h₂ (fun _ => Nat.not_lt.mpr hle) 0
    have hextends₂ : Extends a₁ (a₁.emit (.jump op (.logic k) a₁.frame)) :=
      grown_emit fun hole hmem _ => by
        rw [List.mem_singleton.mp hmem]
        exact Nat.not_lt_zero _
    rw [← hextends₂.position_eq (Nat.le_refl _)] at hrest
    obtain ⟨d, js', s, hextends, hopens, hlinked', hlength⟩ := ih s (hlinked₁.emit a₁.frame)
      getElem?_emit_last (Nat.lt_of_lt_of_le hk₁ hextends₂.length) hrest
    refine ⟨d, a₁.main.length :: js', ?_, (hfollows₁.extends.trans hextends₂).trans hextends,
      hopens.trans hopens₁, by simpa using hlinked', by simp [hlength]⟩
    have hshape : acts ++ guarded op (operand :: operands) =
        acts ++ [part operand] ++ [.jump op 0 .flow] ++ guarded op operands := by
      simp [guarded]
    rw [hshape]
    refine s.asking fun {fill ctx lab} hterms => ?_
    obtain ⟨⟨hctx, hlabel⟩, hterms⟩ := hterms
    refine ⟨⟨hctx.trans (congrArg _ hopens₁.symm), hlabel⟩, hlabel, placed_nil hctx, hterms⟩

/-- A short-circuit chain. -/
theorem Visits.logical (hvisits : Visits w.tree ps w.visit) (h : Drafted g a)
    (hnested : a.nested = nestedIn ps) {operator : LogicalOp}
    (hkind : node.kind = .logical operator operands)
    (hok : w.logical operator operands g = .ok () g') : Lowers w ps node a g' := by
  cases operands with
  | nil => exact absurd hok (by simp [Walk.logical])
  | cons first others =>
    cases others with
    | nil => exact absurd hok (by simp [Walk.logical])
    | cons second rest =>
      simp only [Walk.logical, bind_ok] at hok
      obtain ⟨_, g₁, hfirst, top, g₂, htop, _, g₃, hmiddle, _, g₄, hlast, stop, g₅, hstop, hland⟩ :=
        hok
      obtain ⟨a₁, s, hfollows₁, hopens₁⟩ := (Strand.start h hnested).child hvisits [] hfirst
      obtain ⟨rfl, h₂, hlinked⟩ := s.drafted.firstOperand operator.opcode_cases htop
      let b := a₁.emit (.jump operator.opcode (.logic a₁.main.length) a₁.frame)
      have hposition : position b.main a₁.main.length = position a₁.main a₁.main.length :=
        position_append (Nat.le_refl _)
      rw [← hposition] at hmiddle hland
      have hk : a₁.main.length < b.main.length := by
        rw [length_emit]
        exact Nat.lt_succ_self _
      have s : Strand w ps a _ _ _ b := s.leap h₂ (fun _ => Nat.not_lt.mpr hfollows₁.length) 0
      have hlinked₁ : b.Linked operator.opcode a₁.main.length ([] ++ [a₁.main.length]) := hlinked
      obtain ⟨a₂, js, s, hextends₂, hopens₂, hlinked₂, hlength⟩ := hvisits.middleOperands s
        hfollows₁.length hlinked₁ getElem?_emit_last hk hmiddle
      have hk₂ := Nat.lt_of_lt_of_le hk hextends₂.length
      obtain ⟨a₃, s, hfollows₃, hopens₃⟩ := s.child hvisits [] hlast
      have hlinked₃ : a₃.Linked operator.opcode a₁.main.length (a₁.main.length :: js) := by
        simpa using hlinked₂.grown hfollows₃ hk₂
      obtain ⟨rfl, rfl⟩ := s.drafted.built.offset_ok hstop
      rw [← hextends₂.position_eq (Nat.le_of_lt hk), ← hfollows₃.position_eq (Nat.le_of_lt hk₂),
        ← hlength] at hland
      have s := (s.filling (s.drafted.landChain hlinked₃ hland) hlinked₃.unfilled
        (Nat.not_lt.mpr hfollows₁.length)).1.here 0
      refine s.lowers (hopens₃.trans (hopens₂.trans hopens₁)) (fun _ _ => ?_) (fun _ => a₃.mark)
        fun {fill ctx} hctx => ⟨rfl, fun hlabel => ?_⟩
      · rw [Lowering.node, hkind]
        simp [Lowering.logical, guarded, part]
      have hctx₁ : ctx.opens = b.opens.map (Opened.place fill) :=
        hctx.trans (congrArg _ hopens₁.symm)
      have hctx₂ : ctx.opens = a₂.opens.map (Opened.place fill) :=
        hctx₁.trans (congrArg _ hopens₂.symm)
      exact ⟨placed_nil hctx₂, ⟨hctx₁, hlabel⟩, hlabel, placed_nil hctx, trivial⟩

/-! ## Other expressions with several parts -/

/-- The jump over the second arm of a conditional expression. Behind it the first arm's value is not
there, and the jump to the second arm leads here. -/
theorem Strand.skip {pc pc' : Nat} {g₁ g₂ : Generator} (s : Strand w ps a terms acts g b)
    (hwaits : b.Waits op frame k pc) (hk : a.main.length ≤ k)
    (hjump : beginJump .goto g = .ok pc' g₁) (hland : landHere pc g₁ = .ok () g₂)
    (hset : setStackDepth (g₂.depth.depth - 1) g₂ = .ok () g') (label : Nat) :
    ∃ d, Strand w ps a (fun fill ctx lab => fill (.arm k 0) = d.main.length →
        fill (.arm b.main.length 0) = (lab label).pos ∧ terms fill ctx lab)
      (acts ++ [.jump .goto label .drop]) g' d ∧ d.Waits .goto b.frame b.main.length pc' ∧
      d.opens = b.opens := by
  obtain ⟨h₁, hwaits₁⟩ := s.drafted.begin hjump rfl rfl
  have hwaits' := hwaits.follows (Follows.jump (Grown.refl _ _ _) .goto)
  have h₂ := h₁.land hwaits' hland
  have h₃ := h₂.setStackDepth hset
  have hne : Hole.arm k 0 ≠ .arm b.main.length 0 := fun heq =>
    Nat.ne_of_lt hwaits.lt (Hole.arm.inj heq).1
  refine ⟨_, ⟨h₃, s.nested, (Follows.fill (Follows.jump s.grown .goto) hwaits'.unfilled
    (Nat.not_lt.mpr hk)).trans (grown_depth _), fun {fill P n ctx lab} hn hfills hin hterms => ?_⟩,
    (hwaits₁.fill hne).setDepth _, rfl⟩
  have hfills₂ := hfills.before (grown_depth _)
  have hfills₁ := hfills₂.before (extends_fill hwaits'.unfilled)
  obtain ⟨hlabel, hterms⟩ := hterms (hfills₂.filled _ _ filled_fill_self)
  refine (s.run hn (hfills₁.before (extends_jump _)) hin hterms).append (.emit ⟨rfl, ?_⟩
    (hfills.turn s.drafted.built.sound (Nat.le_trans hn s.grown.length) getElem?_emit_last
      length_emit rfl ?_ h₃.built.sound rfl (fun hquiet huses _ => ⟨hquiet, huses⟩) ?_) (.nil _))
  · simp only [Cell.closed, Cell.jump, Operands.closed, List.map_cons, List.map_nil, hlabel]
    rfl
  · exact Nat.le_trans (StackDepth.high_le_apply _ _ _ _) (Nat.le_max_left _ _)
  · rw [h₂.built.depth, ← frame_emit (a := b) rfl]
    rfl

variable (hvisits : Visits w.tree ps w.visit) (h : Drafted g a) (hnested : a.nested = nestedIn ps)

include hvisits h hnested

/-- A conditional expression. -/
theorem Visits.conditional {test consequent alternative : NodeId}
    (hkind : node.kind = .conditional test consequent alternative)
    (hok : w.conditional test consequent alternative g = .ok () g') : Lowers w ps node a g' := by
  simp only [Walk.conditional, Emit.stackDepth, get_bind, bind_ok, pure_ok] at hok
  obtain ⟨_, g₁, htest, note, g₂, hnote, branch, g₃, hbranch, _, g₄, hthen, skip, g₅, hskip, _, g₆,
    hland₁, depth, _, ⟨rfl, rfl⟩, _, g₇, hset, _, g₈, helse, _, g₉, hland₂, n, g₁₀, hdistance,
    hsetNote⟩ := hok
  obtain ⟨a₁, s, hfollows₁, hopens₁⟩ := (Strand.start h hnested).child hvisits [] htest
  obtain ⟨s, hwaits⟩ := (s.noted (note_noted hnote)).begin hbranch rfl rfl 0
  obtain ⟨a₂, s, hfollows₂, hopens₂⟩ := s.child hvisits [] hthen
  have hlength := s.grown.length
  obtain ⟨d, s, hwaits', hopens⟩ := s.skip (hwaits.follows hfollows₂) hfollows₁.length hskip hland₁ hset 1
  obtain ⟨a₃, s, hfollows₃, hopens₃⟩ := (s.here 0).child hvisits [] helse
  obtain ⟨-, -, rfl⟩ := distance_ok hdistance
  have s := ((s.land (hwaits'.follows hfollows₃) hlength hland₂).1.here 1).noted
    (setNote_noted hsetNote)
  refine s.lowers (hopens₃.trans (hopens.trans (hopens₂.trans hopens₁)))
    (fun _ _ => by rw [Lowering.node, hkind]; rfl) (marks [d.mark, a₃.mark])
    fun {fill ctx} hctx => ⟨rfl, fun hskip => ?_⟩
  have hctx₁ : ctx.opens = (a₁.jump .ifEq).opens.map (Opened.place fill) :=
    hctx.trans (congrArg _ hopens₁.symm)
  have hctx₂ : ctx.opens = d.opens.map (Opened.place fill) :=
    hctx₁.trans (congrArg _ (hopens.trans hopens₂).symm)
  exact ⟨placed_nil hctx₂, rfl, fun hbranch =>
    ⟨hskip, placed_nil hctx₁, hbranch, placed_nil hctx, trivial⟩⟩

/-- A call or a construction. -/
theorem Visits.call {code : Opcode} (hcode : code.Simple 2) {callee : NodeId} {args : List NodeId}
    (hok : w.call code callee args g = .ok () g') :
    args.length < 65536 ∧ Reaches (w.setting ps []) (Lowering.call code callee args) a g' := by
  simp only [Walk.call, guard_tooLarge_ok, bind_ok] at hok
  obtain ⟨start, g₁, hstart, _, g₂, hcallee, _, g₃, hargs, hlt, stop, g₄, hstop, base, g₅, hbase, _,
    g₆, hnote, hop⟩ := hok
  obtain ⟨-, rfl⟩ := h.built.offset_ok hstart
  obtain ⟨a₁, h₁, hleads₁⟩ := hvisits.child [] h hnested hcallee
  have hnested₁ := hleads₁.grown.nested.trans hnested
  obtain ⟨a₂, h₂, hleads₂⟩ := hvisits.children [] h₁ hnested₁ hargs
  obtain ⟨-, rfl⟩ := h₂.built.offset_ok hstop
  obtain ⟨-, -, rfl⟩ := distance_ok hbase
  obtain ⟨a₃, h₃, hleads₃⟩ := (h₂.noted (note1_noted hnote)).u16Op (r := w.setting ps []) hop hcode
  rw [UInt16.toNat_ofNat', Nat.mod_eq_of_lt (by omega)] at hleads₃
  exact ⟨by omega, a₃, h₃, (hleads₁.append hleads₂).append hleads₃⟩

/-- The values of a comma list behind the first. -/
theorem Visits.commaRest (hok : w.commaRest values g = .ok () g') :
    Reaches (w.setting ps [])
      (values.flatMap fun value => [plain .pop, part value]) a g' := by
  induction values generalizing g a with
  | nil =>
    obtain ⟨-, rfl⟩ := pure_ok.mp hok
    exact ⟨a, h, .nil a⟩
  | cons value values ih =>
    simp only [Walk.commaRest, bind_ok] at hok
    obtain ⟨here, g₁, hhere, note, g₂, hnote, _, g₃, hpop, _, g₄, hvalue, stop, g₅, hstop, n, g₆,
      hdistance, _, g₇, hset, hrest⟩ := hok
    obtain ⟨-, rfl⟩ := h.built.offset_ok hhere
    obtain ⟨a₁, h₁, hleads₁⟩ := (h.noted (note1_noted hnote)).op (r := w.setting ps []) hpop
      (by decide)
    obtain ⟨a₂, h₂, hleads₂⟩ := hvisits.child [] h₁ (hleads₁.grown.nested.trans hnested) hvalue
    obtain ⟨-, rfl⟩ := h₂.built.offset_ok hstop
    obtain ⟨-, -, rfl⟩ := distance_ok hdistance
    have hnested₂ := hleads₂.grown.nested.trans (hleads₁.grown.nested.trans hnested)
    obtain ⟨a₃, h₃, hleads₃⟩ := ih (h₂.noted (setNote_noted hset)) hnested₂ hrest
    exact ⟨a₃, h₃, (hleads₁.append hleads₂).append hleads₃⟩

theorem Visits.comma (hok : w.comma values g = .ok () g') :
    Reaches (w.setting ps []) (Lowering.comma values) a g' := by
  cases values with
  | nil => exact h.op hok (by decide)
  | cons value values =>
    simp only [Walk.comma, bind_ok] at hok
    obtain ⟨_, g₁, hvalue, hrest⟩ := hok
    obtain ⟨a₁, h₁, hleads₁⟩ := hvisits.child [] h hnested hvalue
    obtain ⟨a₂, h₂, hleads₂⟩ := hvisits.commaRest h₁ (hleads₁.grown.nested.trans hnested) hrest
    exact ⟨a₂, h₂, hleads₁.append hleads₂⟩

end ScriptCompiler
