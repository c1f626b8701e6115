import ScriptCompiler.Proofs.Grammar
import ScriptCompiler.Proofs.Unit.Finishing
import ScriptCompiler.Proofs.Walk.Nodes

/-!
# Compiled units

A unit is the top level of a script or the body of a function. Whatever a unit
is compiled to encodes a program that is, from its first cell to its last, what
the statements of the unit are lowered to. The functions in a unit are units.
-/

namespace ScriptCompiler

open Bytes Emit Draft

variable {s script : Script} {filename : String} {limits : Limits} {ids : List NodeId}

/-- A function of a tree has been compiled to a script, on some level of nesting. -/
def FunctionScript (tree : Tree) (f : Function) (line : UInt32) (s : Script) : Prop :=
  tree.HasFunction f ∧ ∃ (levels : Nat) (inFunction : Bool) (g g' : Generator),
    Walk.functionBody ⟨tree, inFunction, visit tree levels⟩ f (g.child line) = .ok s g'

/-- A generator has emitted the instructions of main code up to a mark, and its modelled stack is
there at the depth of the mark. -/
structure Generator.Reaches (g : Generator) (x : Mark) : Prop where
  code : (instructions g.main.code).length = x.pos
  depth : g.depth.depth = x.frame.depth

/-- A visit of a node of a tree has led from one mark to another, on some level of nesting. -/
def Visited (tree : Tree) (inFunction : Bool) (id : NodeId) (x y : Mark) : Prop :=
  ∃ (levels : Nat) (g g' : Generator), visit tree levels inFunction id g = .ok () g' ∧
    g.Reaches x ∧ g'.Reaches y

/-- What is known of the parts of the units of a tree. -/
def Tree.parts (tree : Tree) : Parts := ⟨FunctionScript tree, Visited tree⟩

/-- Where the code of a unit starts. -/
def Mark.start : Mark := ⟨0, ⟨0⟩, 0, True⟩

/-- A script encodes a program that the statements of a unit are lowered to. -/
structure Compiles (tree : Tree) (inFunction : Bool) (body : List NodeId) (s : Script)
    (P : Program) : Prop where
  encodes : Encodes s P
  sound : P.Sound
  /-- The cells are those of the statements, and a stop behind them. -/
  run : ∃ z, z.pos = P.main.length ∧ z.closed = P.regions.length ∧
    Run tree P tree.parts ⟨inFunction, []⟩ (fun _ => .start) (Lowering.unit body) .start z
  /-- Warnings come from instructions that pop too much. -/
  quiet : ∃ z, Run tree P tree.parts ⟨inFunction, []⟩ (fun _ => .start)
    (Lowering.unit body) .start z ∧ (z.quiet → s.warnings = #[])
  /-- Jumps lead to cells. -/
  dests : ∀ (k : Nat) (c : Cell Nat), P.main[k]? = some c → ∀ d ∈ c.dests, d < P.main.length
  nested : ∀ s' ∈ P.functions, ∃ f line, FunctionScript tree f line s'
  /-- A wide jump or switch has an offset that does not fit a narrow field. -/
  tight : ∀ (k : Nat) (c : Cell Nat), P.main[k]? = some c → c.wide = true →
    ∃ d ∈ c.dests, fits16 ((P.offset d : Int) - P.offset k) = false

/-- A draft ends where its generator is. -/
theorem Drafted.reaches {g : Generator} {a : Draft} (h : Drafted g a) : g.Reaches a.mark where
  code := by
    rw [instructions_of_whole (Codes.whole h.built.code), length_views, cells, length_shown]
    rfl
  depth := congrArg StackDepth.depth h.built.depth

/-- Visits with any number of levels left emit what the lowering of their node describes. -/
theorem visits_tree (tree : Tree) (levels : Nat) : Visits tree tree.parts (visit tree levels) :=
  visits_visit
    (fun {levels inFunction} _ {_ _ g g' _} hf hok =>
      show FunctionScript .. from ⟨hf, levels, inFunction, g, g', hok⟩)
    (fun {levels _ _ g g' _ _} h h' hok =>
      show Visited .. from ⟨levels, g, g', hok, h.reaches, h'.reaches⟩) levels

/-! ## Statements of the top level -/

/-- Statements of the top level lead from one draft to another. -/
structure Continues (tree : Tree) (inFunction : Bool) (body : List NodeId) (a a' : Draft) :
    Prop where
  opens : a'.opens = a.opens
  nested : a'.nested = a.nested
  fills : ∀ {fill : Hole → Nat} {P : Program}, Fills fill P 0 a' → Fills fill P 0 a
  run : ∀ {fill : Hole → Nat} {P : Program}, Fills fill P 0 a' →
    Run tree P tree.parts ⟨inFunction, []⟩ (fun _ => .start) (body.map Lowering.part)
      a.mark a'.mark

namespace Continues

variable {tree : Tree} {inFunction : Bool} {a b d : Draft} {body more : List NodeId}

theorem of_leads (h : Emits ⟨tree, tree.parts, inFunction, []⟩ (body.map Lowering.part) a b)
    (hopens : a.opens = []) : Continues tree inFunction body a b where
  opens := h.opens
  nested := h.grown.nested
  fills := fun hfills => hfills.mono h.grown (Nat.le_refl _)
  run := fun hfills => h.run (Nat.zero_le _) hfills rfl (by simp [Ctx.enter, hopens])

theorem append (h : Continues tree inFunction body a b) (h' : Continues tree inFunction more b d) :
    Continues tree inFunction (body ++ more) a d where
  opens := h'.opens.trans h.opens
  nested := h'.nested.trans h.nested
  fills := fun hfills => h.fills (h'.fills hfills)
  run := fun hfills => by
    rw [List.map_append]
    exact (h.run (h'.fills hfills)).append (h'.run hfills)

theorem settle (h : Continues tree inFunction body a b) (wides : Nat → Bool) :
    Continues tree inFunction body a (b.settle wides) where
  opens := h.opens
  nested := h.nested
  fills := fun hfills => h.fills hfills.of_settle
  run := fun hfills => by
    rw [mark_settle]
    exact h.run hfills.of_settle

end Continues

/-- A draft without open statements and waiting jumps. -/
structure Resting (tree : Tree) (g : Generator) (a : Draft) : Prop where
  drafted : Drafted g a
  closed : a.Closed
  opens : a.opens = []
  nested : a.nested = nestedIn tree.parts
  tight : a.Tight

theorem resting_empty (tree : Tree) (filename : String) (line : UInt32) (limits : Limits)
    (levelBase : Nat) :
    Resting tree { Generator.new filename line limits with levelBase }
      (empty (nestedIn tree.parts)) :=
  ⟨drafted_empty .., fun _ _ hk => absurd hk not_mem_main_empty, rfl, rfl,
    fun _ _ hk => by cases hk⟩

namespace Resting

variable {tree : Tree} {g g' : Generator} {a : Draft}

theorem children (inFunction : Bool) (h : Resting tree g a) {levels : Nat}
    (hok : Walk.children ⟨tree, inFunction, visit tree levels⟩ ids g = .ok () g') :
    ∃ a', Resting tree g' a' ∧ Continues tree inFunction ids a a' := by
  obtain ⟨a', h', hleads⟩ := Visits.children (visits_tree tree levels) [] h.drafted h.nested hok
  exact ⟨a', ⟨h', Leads.closed hleads h.closed h.opens, hleads.opens.trans h.opens,
    hleads.grown.nested.trans h.nested, h.tight.grown hleads.grown h.drafted h'⟩,
    .of_leads hleads h.opens⟩

theorem resolveSpans (inFunction : Bool) (h : Resting tree g a) (hok : Emit.resolveSpans g = .ok () g') :
    ∃ a', Resting tree g' a' ∧ Continues tree inFunction [] a a' ∧
      ∀ (k : Nat) (c' : Cell Hole), a'.main[k]? = some c' →
        ∃ c, a.main[k]? = some c ∧ c'.dests = c.dests := by
  have hsame : Continues tree inFunction [] a a :=
    ⟨rfl, rfl, fun hfills => hfills, fun _ => .nil _⟩
  rcases h.drafted.resolveSpans h.closed h.opens hok with h' | ⟨wides, h', htight⟩
  · exact ⟨a, ⟨h', h.closed, h.opens, h.nested, h.tight⟩, hsame, fun k c hk => ⟨c, hk, rfl⟩⟩
  · refine ⟨_, ⟨h', h.closed.settle, h.opens, h.nested, htight h.tight⟩, hsame.settle wides,
      fun k c' hk => ?_⟩
    obtain ⟨c, hc, heq⟩ := of_getElem?_settle hk
    exact ⟨c, hc, by rw [heq]⟩

/-- The statements of a script, each resolved on its own. -/
theorem emitBody (h : Resting tree g a) (hok : ScriptCompiler.emitBody tree ids g = .ok () g') :
    ∃ a', Resting tree g' a' ∧ Continues tree false ids a a' := by
  induction ids generalizing g a with
  | nil =>
    obtain ⟨-, rfl⟩ := pure_ok.mp hok
    exact ⟨a, h, rfl, rfl, fun hfills => hfills, fun _ => .nil _⟩
  | cons id ids ih =>
    simp only [ScriptCompiler.emitBody, emitTree, bind_ok, get_bind] at hok
    obtain ⟨_, g₁, hvisit, _, g₂, hresolve, hrest⟩ := hok
    have hchild : Walk.children ⟨tree, false, visit tree (g.limits.depthLimit - g.nestingLevel)⟩
        [id] g = .ok () g₁ := by
      simp only [Walk.children, Walk.child, bind_ok, pure_ok]
      exact ⟨(), g₁, hvisit, trivial, rfl⟩
    obtain ⟨a₁, h₁, hcontinues₁⟩ := h.children false hchild
    obtain ⟨a₂, h₂, hcontinues₂, -⟩ := h₁.resolveSpans false hresolve
    obtain ⟨a₃, h₃, hcontinues₃⟩ := ih h₂ hrest
    exact ⟨a₃, h₃, (hcontinues₁.append hcontinues₂).append hcontinues₃⟩

/-- The instruction that ends a unit. -/
theorem stop (inFunction : Bool) (h : Resting tree g a) (hok : Walk.op .stop g = .ok () g') :
    Resting tree g' (a.emit (.plain .stop [] a.frame)) ∧
      Emits ⟨tree, tree.parts, inFunction, []⟩ [Lowering.plain .stop] a
        (a.emit (.plain .stop [] a.frame)) := by
  simp only [Walk.op, bind_ok, pure_ok] at hok
  obtain ⟨pc, _, hstop, -, rfl⟩ := hok
  obtain ⟨-, hdrafted⟩ := h.drafted.simple hstop (by decide) a.frame
  have hleads : Emits ⟨tree, tree.parts, inFunction, []⟩ [Lowering.plain .stop] a
      (a.emit (.plain .stop [] a.frame)) :=
    .of_plain h.drafted.built.sound rfl rfl fun _ _ => ⟨rfl, rfl⟩
  refine ⟨⟨hdrafted, fun k c hk hole hmem => ?_, h.opens, h.nested,
    h.tight.grown hleads.grown h.drafted hdrafted⟩, hleads⟩
  rcases getElem?_emit hk with hold | ⟨-, rfl⟩
  · obtain ⟨t, hle, ht⟩ := h.closed k c hold hole hmem
    exact ⟨t, Nat.le_trans hle (by rw [length_emit]; exact Nat.le_succ _), ht⟩
  · cases hmem

/-- The end of a unit. -/
theorem finish {inFunction : Bool} (h : Resting tree g a) {first : Draft} {body : List NodeId}
    (hfirst : first.mark = .start) (hcontinues : Continues tree inFunction body first a)
    {g₁ : Generator} (hstop : Walk.op .stop g = .ok () g₁) (hok : Emit.finish g₁ = .ok s g') :
    ∃ P, Compiles tree inFunction body s P := by
  obtain ⟨h₁, hleads⟩ := h.stop inFunction hstop
  obtain ⟨g₂, hresolve, hholds⟩ := finish_ok h₁.drafted.built.main hok
  obtain ⟨b, h₂, hlast, hdests⟩ := h₁.resolveSpans inFunction hresolve
  obtain ⟨hcode, hstart, hregions, hliterals, hfunctions, hhigh, hwarnings⟩ := hholds h₂.drafted.built.main
  have hfills := hlast.fills b.fills_leads
  have hbody := hcontinues.run (hfills.mono hleads.grown (Nat.le_refl _))
  have hend : Run tree (b.program b.leads) tree.parts ⟨inFunction, []⟩ (fun _ => .start)
      [Lowering.plain .stop] a.mark (a.emit (.plain .stop [] a.frame)).mark :=
    hleads.run (Nat.zero_le _) hfills rfl (by simp [Ctx.enter, h.opens])
  have hmark : (a.emit (.plain .stop [] a.frame)).mark = b.mark :=
    (hlast.run b.fills_leads).eq_of_nil
  have hlength : b.main.length = a.main.length + 1 := by
    rw [← length_emit (c := .plain .stop [] a.frame)]
    exact congrArg Mark.pos hmark.symm
  have hrun : Run tree (b.program b.leads) tree.parts ⟨inFunction, []⟩ (fun _ => .start)
      (Lowering.unit body) .start b.mark := by
    have hstart := hbody
    rw [hfirst] at hstart
    rw [← hmark]
    exact hstart.append hend
  refine ⟨b.program b.leads, h₂.drafted.encodes h₂.closed (resolveSpans_inactive hresolve) hcode
    hstart hregions hliterals hfunctions hhigh, h₂.drafted.built.sound.program _,
    ⟨b.mark, (length_program _).symm, rfl, hrun⟩, ⟨b.mark, hrun, fun hquiet => ?_⟩,
    fun k c hk d hd => ?_, fun s' hs' => ?_, fun k c hk hwide => ?_⟩
  · rw [hwarnings]
    exact h₂.drafted.built.quiet hquiet
  · rw [length_program, hlength]
    have hlt : k < b.main.length := by
      rw [← length_program b.leads]
      exact lt_of_getElem? hk
    rcases Nat.lt_or_ge k a.main.length with hold | hnew
    · refine Nat.lt_succ_of_le (hbody.dests_le (Nat.le_refl _) (by rintro _ ⟨⟩)
        (fun act hact label hlabel => ?_) (fun act hact target htarget => ?_)
        (by rw [hfirst]; exact Nat.zero_le _) hold hk d hd)
      · obtain ⟨id, -, rfl⟩ := List.mem_map.mp hact
        cases hlabel
      · obtain ⟨id, -, rfl⟩ := List.mem_map.mp hact
        cases htarget
    · -- the last cell is the stop itself
      obtain rfl : k = a.main.length := by omega
      obtain ⟨c', hc', rfl⟩ := of_getElem?_program hk
      obtain ⟨c, hc, hsame⟩ := hdests _ c' hc'
      rw [getElem?_emit_last] at hc
      cases hc
      rw [Cell.closed, hsame] at hd
      cases hd
  · have hnested := h₂.drafted.built.sound.nested s' hs'
    rw [h₂.nested] at hnested
    exact hnested
  · obtain ⟨c, hc, rfl⟩ := of_getElem?_program hk
    obtain ⟨z, hz, hlarge⟩ := h₂.tight k _ (getElem?_cells hc) hwide
    obtain ⟨hole, hhole, rfl⟩ := List.mem_map.mp hz
    obtain ⟨t, -, ht, hoffset⟩ := h₂.closed.offset hc hhole b.main
    have hlead : b.leads hole = t := b.fills_leads.filled hole t ht
    refine ⟨b.leads hole, List.mem_map_of_mem hhole, ?_⟩
    rw [hoffset] at hlarge
    rw [hlead, Program.offset_eq, Program.offset_eq _ k, position_program,
      position_program]
    rwa [show ((Program.offset (b.program b.leads) 0 + position b.main t : Nat) : Int) -
      (Program.offset (b.program b.leads) 0 + position b.main k : Nat) =
        (position b.main t : Int) - position b.main k by omega]

end Resting

/-! ## Units -/

/-- A function that has been compiled is a unit. -/
theorem FunctionScript.compiles {tree : Tree} {f : Function} {line : UInt32}
    (h : FunctionScript tree f line s) : ∃ P, Compiles tree true f.body s P := by
  obtain ⟨-, levels, inFunction, g, g', hok⟩ := h
  simp only [Walk.functionBody, bind_ok] at hok
  obtain ⟨_, g₁, hbody, _, g₂, hstop, hfinish⟩ := hok
  obtain ⟨a, h₁, hcontinues⟩ := (resting_empty tree g.filename line g.limits g.nestingLevel).children true
    hbody
  exact h₁.finish rfl hcontinues hstop hfinish

/-- A script that has been compiled is a unit. -/
theorem compileScript_compiles {tree : Tree} (h : compileScript tree filename limits = .ok s) :
    ∃ P, Compiles tree false tree.body s P := by
  rw [compileScript] at h
  split at h
  · rename_i script g' hok
    cases h
    simp only [emitScript, bind_ok] at hok
    obtain ⟨_, g₁, hbody, pc, g₂, hstop, hfinish⟩ := hok
    obtain ⟨a, h₁, hcontinues⟩ := (resting_empty tree filename 1 limits _).emitBody hbody
    have hlast : Walk.op .stop g₁ = .ok () g₂ := by
      simp only [Walk.op, bind_ok, pure_ok]
      exact ⟨pc, g₂, hstop, trivial, rfl⟩
    exact h₁.finish rfl hcontinues hlast hfinish
  · cases h

/-- An answer that passes a check is there. -/
theorem exists_ok {ε α : Type} {x : Except ε α} {p : α → Bool} (h : x.toOption.any p) :
    ∃ a, x = .ok a ∧ p a := by
  cases x with
  | error e => cases h
  | ok a => exact ⟨a, rfl, h⟩

/-- A script with the scripts of its functions, and of the functions in these. -/
inductive Script.Contains : Script → Script → Prop
  | self (s : Script) : Contains s s
  | function {s s' s'' : Script} (hmem : s' ∈ s.functions) (h : Contains s' s'') : Contains s s''

/-- A script in a compiled script, with the statements it is compiled from: the script itself has
those of the tree, and the script of a function those of the body of that function. -/
inductive UnitIn (tree : Tree) (script : Script) : Bool → List NodeId → Script → Prop
  | script : UnitIn tree script false tree.body script
  | function {inFunction : Bool} {body : List NodeId} {s s' : Script} {f : Function} {line : UInt32}
      (hunit : UnitIn tree script inFunction body s) (hmem : s' ∈ s.functions)
      (hf : FunctionScript tree f line s') : UnitIn tree script true f.body s'

section Units

variable {tree : Tree} {inFunction : Bool} {body : List NodeId}

section

variable (h : compileScript tree filename limits = .ok script)

include h

/-- What a script in a compiled script encodes is what its own statements are lowered to. -/
theorem UnitIn.compiles (hunit : UnitIn tree script inFunction body s) :
    ∃ P, Compiles tree inFunction body s P := by
  cases hunit with
  | script => exact compileScript_compiles h
  | function _ _ hf => exact hf.compiles

/-- Every script in a unit comes from a function. -/
theorem UnitIn.nested (hunit : UnitIn tree script inFunction body s) {s' : Script}
    (hmem : s' ∈ s.functions) : ∃ f line, FunctionScript tree f line s' := by
  obtain ⟨P, hcompiles⟩ := hunit.compiles h
  refine hcompiles.nested s' ?_
  rw [← hcompiles.encodes.functions]
  exact Array.mem_toList_iff.mpr hmem

/-- Every script in a compiled script is a unit. -/
theorem exists_unit_of_contains (hs : script.Contains s) :
    ∃ inFunction body, UnitIn tree script inFunction body s := by
  suffices hin : ∀ {s₀ s' : Script}, s₀.Contains s' →
      (∃ inFunction body, UnitIn tree script inFunction body s₀) →
      ∃ inFunction body, UnitIn tree script inFunction body s' from hin hs ⟨_, _, .script⟩
  intro s₀ s' hs' hunit
  induction hs' with
  | self s => exact hunit
  | function hmem _ ih =>
    obtain ⟨inFunction, body, hunit⟩ := hunit
    obtain ⟨f, line, hf⟩ := hunit.nested h hmem
    exact ih ⟨_, _, hunit.function hmem hf⟩

theorem compiles_of_contains (hs : script.Contains s) :
    ∃ inFunction body P, Compiles tree inFunction body s P := by
  obtain ⟨inFunction, body, hunit⟩ := exists_unit_of_contains h hs
  exact ⟨inFunction, body, hunit.compiles h⟩

end

/-- The units of a well-formed tree are statements. -/
theorem UnitIn.statements (hunit : UnitIn tree script inFunction body s) (hwf : tree.wellFormed) :
    ∀ id ∈ body, tree.holds NodeKind.isStatement id := by
  cases hunit with
  | script =>
    rw [Tree.wellFormed, Bool.and_eq_true, List.all_eq_true] at hwf
    exact hwf.1
  | function _ _ hf =>
    obtain ⟨⟨id, node, hget, hkind⟩, -⟩ := hf
    refine fun child hchild => Tree.isStatement_of_mem hwf hget ?_
    rcases hkind with hkind | hkind <;> rw [hkind] <;> exact hchild

end Units

end ScriptCompiler
