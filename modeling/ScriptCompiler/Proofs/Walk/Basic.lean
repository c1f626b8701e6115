import ScriptCompiler.Proofs.Draft.Leaving

/-!
# What a visit does

A visit of a node emits the code that its lowering describes. Here this is said
for one visit, with what is known of visits of other nodes as an assumption, so
that each construct can be treated on its own.
-/

namespace ScriptCompiler

open Bytes Emit

variable {id : NodeId} {node : Node} {fill : Hole → Nat} {ctx : Ctx} {lab : Nat → Mark}

/-- What a construct that opens `openings` emits its children in. -/
def Walk.setting (w : Walk) (ps : Parts) (openings : List Opening) :
    Setting := ⟨w.tree, ps, w.inFunction, openings⟩

/-- What is known of nested functions. -/
def nestedIn (ps : Parts) (script : Script) : Prop :=
  ∃ f line, ps.function f line script

/-- Visits emit the code that the lowering of their node describes. -/
def Visits (tree : Tree) (ps : Parts)
    (visit : Bool → NodeId → Emit Unit) : Prop :=
  ∀ {inFunction : Bool} {id : NodeId} {g g' : Generator} {a : Draft} (openings : List Opening),
    Drafted g a → a.nested = nestedIn ps → visit inFunction id g = .ok () g' →
    Reaches ⟨tree, ps, inFunction, openings⟩ [.child openings id] a g'

/-- The code of a node has been emitted. -/
def Lowers (w : Walk) (ps : Parts) (node : Node) (a : Draft)
    (g' : Generator) : Prop :=
  ∃ a', Drafted g' a' ∧ Follows a a' ∧ a'.opens = a.opens ∧
    ∀ {fill : Hole → Nat} {P : Program} {n : Nat} {ctx : Ctx}, n ≤ a.main.length →
      Fills fill P n a' → ctx.inFunction = w.inFunction →
      ctx.opens = a.opens.map (Opened.place fill) →
      ∃ plan acts lab, Lowering.node w.tree ctx plan node = some acts ∧
        Run w.tree P ps ctx lab acts a.mark a'.mark

section Children

variable {w : Walk} {ps : Parts} {g g' : Generator} {a : Draft}

theorem Visits.child (hvisits : Visits w.tree ps w.visit) (openings : List Opening)
    (h : Drafted g a) (hnested : a.nested = nestedIn ps) (hok : w.child id g = .ok () g') :
    Reaches (w.setting ps openings) [.child openings id] a g' :=
  hvisits openings h hnested hok

theorem Visits.children (hvisits : Visits w.tree ps w.visit) (openings : List Opening)
    (h : Drafted g a) (hnested : a.nested = nestedIn ps) {ids : List NodeId}
    (hok : w.children ids g = .ok () g') :
    Reaches (w.setting ps openings) (ids.map (.child openings)) a g' := by
  induction ids generalizing g a with
  | nil =>
    obtain ⟨-, rfl⟩ := pure_ok.mp hok
    exact ⟨a, h, .nil a⟩
  | cons id ids ih =>
    simp only [Walk.children, bind_ok] at hok
    obtain ⟨_, g₁, hchild, hrest⟩ := hok
    obtain ⟨a₁, h₁, hleads₁⟩ := hvisits.child openings h hnested hchild
    obtain ⟨a₂, h₂, hleads₂⟩ := ih h₁ (hleads₁.grown.nested.trans hnested) hrest
    exact ⟨a₂, h₂, hleads₁.append hleads₂⟩

/-- A part that is there on a condition. -/
theorem Reaches.optional {r : Setting} {p : Prop} [Decidable p] {x : Emit Unit} (acts : List Action)
    (h : Drafted g a) (hok : (if p then x else pure ()) g = .ok () g')
    (hx : x g = .ok () g' → Reaches r acts a g') : Reaches r (if p then acts else []) a g' := by
  by_cases hp : p
  · rw [if_pos hp] at hok ⊢
    exact hx hok
  · rw [if_neg hp] at hok ⊢
    obtain ⟨-, rfl⟩ := pure_ok.mp hok
    exact ⟨a, h, .nil a⟩

/-- Actions that need no statement to be opened. -/
theorem Reaches.lowers {acts : List Action} (h : Reaches (w.setting ps []) acts a g')
    (hnode : ∀ ctx : Ctx, ctx.inFunction = w.inFunction →
      Lowering.node w.tree ctx .conditional node = some acts) : Lowers w ps node a g' := by
  obtain ⟨a', hdrafted, hleads⟩ := h
  refine ⟨a', hdrafted, hleads.grown, hleads.opens, fun {_ _ _ ctx} hn hfills hin hctx => ?_⟩
  refine ⟨.conditional, acts, fun _ => a.mark, hnode ctx hin, hleads.run hn hfills hin ?_⟩
  rw [← hctx, Ctx.enter, Walk.setting, List.map_nil, List.append_nil]

/-- Outside of any statement opened here, the statements around are those of the draft. -/
theorem placed_nil (hctx : ctx.opens = a.opens.map (Opened.place fill)) :
    (ctx.enter lab []).opens = a.opens.map (Opened.place fill) := by
  rw [← hctx, Ctx.enter, List.map_nil, List.append_nil]

theorem distance_ok {start stop n : Nat} (hok : Walk.distance start stop g = .ok n g') :
    n = stop - start ∧ start ≤ stop ∧ g' = g := by
  simp only [Walk.distance, guard_throw_ok, pure_ok, Nat.not_lt] at hok
  exact ⟨hok.2.1.symm, hok.1, hok.2.2.symm⟩

/-- Inside of one statement opened here. -/
theorem placed_one {b : Draft} {o : Opened} {opening : Opening}
    (hctx : ctx.opens = a.opens.map (Opened.place fill)) (hplace : opening.place lab = o.place fill)
    (hopens : b.opens = a.opens ++ [o]) :
    (ctx.enter lab [opening]).opens = b.opens.map (Opened.place fill) := by
  rw [Ctx.enter, hctx, hopens, List.map_append, List.map_cons, List.map_nil, List.map_cons,
    List.map_nil, hplace]

/-- Marks for labels by number. -/
def marks (ms : List Mark) (label : Nat) : Mark := ms.getD label ⟨0, ⟨0⟩, 0, True⟩

theorem node_ok (hok : w.node id g = .ok node g') : w.tree.get? id = some node ∧ g' = g := by
  simp only [Walk.node, lift_ok, Error.inBounds] at hok
  obtain ⟨hget, rfl⟩ := hok
  cases hnode : w.tree.get? id with
  | none =>
    rw [hnode] at hget
    cases hget
  | some node' =>
    rw [hnode] at hget
    cases hget
    exact ⟨rfl, rfl⟩

end Children

end ScriptCompiler
