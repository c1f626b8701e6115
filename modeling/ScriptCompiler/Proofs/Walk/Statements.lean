import ScriptCompiler.Compile.Statements
import ScriptCompiler.Proofs.Draft.Hoisting
import ScriptCompiler.Proofs.Walk.Strand

/-!
# Simple statements and branches emit what they are lowered to
-/

namespace ScriptCompiler

open Bytes Emit

variable {w : Walk} {ps : Parts} {g g' : Generator} {a : Draft}

/-- Hoisted names with their initial values. -/
theorem Visits.var (hvisits : Visits w.tree ps w.visit) (h : Drafted g a)
    (hnested : a.nested = nestedIn ps) {bindings : List Binding}
    (hok : w.var bindings g = .ok () g') :
    Reaches (w.setting ps []) (Lowering.var bindings) a g' := by
  induction bindings generalizing g a with
  | nil =>
    obtain ⟨-, rfl⟩ := pure_ok.mp hok
    exact ⟨a, h, .nil a⟩
  | cons binding bindings ih =>
    simp only [Walk.var, bind_ok] at hok
    obtain ⟨_, g₁, hdeclare, hok⟩ := hok
    obtain ⟨a₁, h₁, hleads₁⟩ := h.declare (r := w.setting ps []) hdeclare
    have hnested₁ := hleads₁.grown.nested.trans hnested
    rw [Lowering.var, List.flatMap_cons, ← Lowering.var]
    cases hinit : binding.init with
    | none =>
      rw [hinit] at hok
      obtain ⟨a₂, h₂, hleads₂⟩ := ih h₁ hnested₁ hok
      exact ⟨a₂, h₂, hleads₁.append hleads₂⟩
    | some init =>
      rw [hinit] at hok
      simp only [bind_ok] at hok
      obtain ⟨_, g₂, hchild, _, g₃, hstore, _, g₄, hpop, hrest⟩ := hok
      obtain ⟨a₂, h₂, hleads₂⟩ := hvisits.child [] h₁ hnested₁ hchild
      obtain ⟨a₃, h₃, hleads₃⟩ := h₂.storeName (r := w.setting ps []) hstore
      obtain ⟨a₄, h₄, hleads₄⟩ := h₃.op (r := w.setting ps []) hpop (by decide)
      have hparts := ((hleads₁.append hleads₂).append hleads₃).append hleads₄
      obtain ⟨a₅, h₅, hleads₅⟩ := ih h₄ (hparts.grown.nested.trans hnested) hrest
      exact ⟨a₅, h₅, hparts.append hleads₅⟩

/-- An expression as a statement. -/
theorem Visits.expressionStatement (hvisits : Visits w.tree ps w.visit) (h : Drafted g a)
    (hnested : a.nested = nestedIn ps) {value : NodeId} {g₁ : Generator} {op : Opcode}
    (hvalue : w.child value g = .ok () g₁) (hop : Walk.op op g₁ = .ok () g')
    (hsimple : op.Simple 0) :
    Reaches (w.setting ps []) [Lowering.part value, Lowering.plain op] a g' := by
  obtain ⟨a₁, h₁, hleads₁⟩ := hvisits.child [] h hnested hvalue
  obtain ⟨a₂, h₂, hleads₂⟩ := h₁.op (r := w.setting ps []) hop hsimple
  exact ⟨a₂, h₂, hleads₁.append hleads₂⟩

/-! ## Branches -/

/-- A jump out of nothing joins the chain right away. -/
theorem Drafted.leaveTop (h : Drafted g a) {outer : List Opened} {o : Opened}
    (hopens : a.opens = outer ++ [o]) {chain : Chain} (htakes : o.kind.takes chain) {pc : Nat}
    (hok : Emit.leaveTo outer.length chain none none g = .ok pc g') :
    pc = position a.main a.main.length ∧
      Drafted g' (a.emit (.jump chain.op (.chain o.serial chain) a.frame)) := by
  have hsize : g.statements.size - (outer.length + 1) = 0 := by
    rw [StatementStack.size, h.stacked.size, hopens]
    simp
  simp only [Emit.leaveTo, Emit.leaveUpTo, Emit.stackDepth, get_bind, guard_throw_ok, bind_ok,
    pure_ok] at hok
  obtain ⟨_, g₁, ⟨_, _, ⟨rfl, rfl⟩, -, pops, g₂, hleave, _, g₃, hflush, hset⟩, e, g₄, hstatement,
    _, g₅, hlink, _, _, hmodify, rfl, rfl⟩ := hok
  rw [hsize] at hleave
  obtain ⟨rfl, rfl⟩ := pure_ok.mp hleave
  obtain ⟨-, rfl⟩ := pure_ok.mp hflush
  have h₁ := h.setStackDepth hset
  rw [h.built.depth, StackDepth.set_self h.built.sound.high] at h₁
  obtain ⟨he, rfl⟩ := statement_ok hstatement
  have ho : a.opens[outer.length]? = some o := by rw [hopens]; exact List.getElem?_concat_length
  exact h₁.join ho htakes he hlink hmodify a.frame

/-- An if statement. -/
theorem Visits.ifElse (hvisits : Visits w.tree ps w.visit) (h : Drafted g a)
    (hnested : a.nested = nestedIn ps) {node : Node} {test consequent : NodeId}
    {alternative : Option NodeId} (hkind : node.kind = .ifElse test consequent alternative)
    (hok : w.ifElse test consequent alternative g = .ok () g') : Lowers w ps node a g' := by
  simp only [Walk.ifElse, bind_ok] at hok
  obtain ⟨top, g₁, htop, _, g₂, htest, index, g₃, hpush, note, g₄, hnote, branch, g₅, hbranch, _, g₆,
    hthen, hok⟩ := hok
  obtain ⟨-, rfl⟩ := h.built.offset_ok htop
  obtain ⟨a₁, s, hfollows₁, hopens₁⟩ := (Strand.start h hnested).child hvisits [] htest
  obtain ⟨rfl, s⟩ := s.push hpush (by rintro ⟨⟩)
  obtain ⟨s, hwaits⟩ := (s.noted (note_noted hnote)).begin hbranch rfl rfl 1
  cases alternative with
  | none =>
    simp only [bind_ok] at hok
    obtain ⟨_, g₇, hland, hpop⟩ := hok
    let opening : Opening := { kind := .ifBranch, breaks := 1 }
    let o : Opened := ⟨.ifBranch, none, none, a₁.serial, a₁.main.length⟩
    obtain ⟨a₂, s, hfollows₂, hopens₂⟩ := s.child hvisits [opening] hthen
    have s := (s.land (hwaits.follows hfollows₂) hfollows₁.length hland).1.here 1
    have s := (s.close (o := o) hopens₂ hfollows₁.serial (by rintro ⟨⟩) hpop).1
    refine s.lowers hopens₁ (fun _ _ => by rw [Lowering.node, hkind]; rfl) (fun _ => a₂.mark)
      fun {fill ctx} hctx hjumps => ⟨rfl, fun hskip => ?_⟩
    have hctx₁ : ctx.opens = a₁.opens.map (Opened.place fill) := by rw [hctx, hopens₁]
    have hplace : opening.place (fun _ => a₂.mark) = o.place fill :=
      place_eq rfl rfl rfl (by rintro ⟨⟩) ⟨hjumps.1, by rintro ⟨⟩⟩
    exact ⟨placed_one hctx₁ hplace rfl, hskip, placed_nil hctx, trivial⟩
  | some alternative =>
    simp only [bind_ok] at hok
    obtain ⟨_, g₇, hset, skip, g₈, hskip, _, g₉, hland, _, g₁₀, helse, n, g₁₁, hdistance, _, g₁₂,
      hsetNote, hpop⟩ := hok
    let first : Opening := { kind := .ifBranch, breaks := 2 }
    let second : Opening := { kind := .elseBranch, breaks := 2 }
    let o : Opened := ⟨.elseBranch, none, none, a₁.serial, a₁.main.length⟩
    obtain ⟨a₂, s, hfollows₂, hopens₂⟩ := s.child hvisits [first] hthen
    let b := a₂.withTop a₁.opens o
    have s := s.retop (s.drafted.setElse hopens₂ rfl hset)
    let jump : Cell Hole := .jump .goto (.chain a₁.serial .breaks) a₂.frame
    have s : Strand w ps a _ _ _ (b.emit jump) :=
      s.leap (s.drafted.leaveTop (o := o) rfl rfl hskip).2 (fun hne => absurd rfl (hne _ _)) 2
    have hgrown : Grown (a₁.main.length + 1) 0 b (b.emit jump) :=
      Draft.grown_emit fun hole hmem hne => absurd (List.mem_singleton.mp hmem) (hne _ _)
    have hwaits₂ : (b.emit jump).Waits .ifEq a₁.frame a₁.main.length branch :=
      ((hwaits.follows hfollows₂).grown (s := 0) Draft.grown_withTop
        (Nat.lt_succ_self _)).grown hgrown (Nat.lt_succ_self _)
    have s := (s.land hwaits₂ hfollows₁.length hland).1.here 1
    obtain ⟨a₃, s, -, hopens₃⟩ := s.child hvisits [second] helse
    obtain ⟨-, -, rfl⟩ := distance_ok hdistance
    have s := (((s.here 2).noted (setNote_noted hsetNote)).close (o := o) hopens₃ hfollows₁.serial
      (by rintro ⟨⟩) hpop).1
    let lab := marks [a.mark, (b.emit jump).mark, a₃.mark]
    refine s.lowers hopens₁ (fun _ _ => by rw [Lowering.node, hkind]; rfl) lab
      fun {fill ctx} hctx hjumps => ?_
    have hctx₁ : ctx.opens = a₁.opens.map (Opened.place fill) := by rw [hctx, hopens₁]
    have hplace₁ : first.place lab = Opened.place fill { o with kind := .ifBranch } :=
      place_eq rfl rfl rfl (by rintro ⟨⟩) ⟨hjumps.1, by rintro ⟨⟩⟩
    have hplace₂ : second.place lab = o.place fill :=
      place_eq rfl rfl rfl (by rintro ⟨⟩) ⟨hjumps.1, by rintro ⟨⟩⟩
    exact ⟨rfl, placed_one hctx₁ hplace₂ rfl, rfl, fun hland =>
      ⟨hjumps.1 rfl, placed_one hctx₁ hplace₁ rfl, hland, placed_nil hctx, trivial⟩⟩

end ScriptCompiler
