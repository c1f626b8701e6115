import ScriptCompiler.Proofs.Lowering.Balance
import ScriptCompiler.Proofs.Unit.Stacks

/-!
# Stack depths in finished code

Control goes from one instruction of a script to another along edges, each with
its own effect on the operand stack. However an instruction of a compiled script
is reached, the stack is equally deep there.
-/

namespace ScriptCompiler

open Bytes Cell

variable {pc target : Nat} {e : Int}

/-! ## Edges of a script -/

namespace Script

end Script

/-! ## Instructions of cells -/

section Cells

variable {s : Script} {P : Program} {k : Nat} {c : Cell Nat}

end Cells

/-! ## One depth for each offset -/

namespace Program

/-- The depth at which a cell is reached, hoisted declarations included. -/
def depthOf (P : Program) (k : Nat) (c : Cell Nat) : Int :=
  if k < P.prolog.length then 0 else c.frame.depth

/-- The cell at an offset is reached at a depth. -/
def Assigns (P : Program) (pc : Nat) (d : Int) : Prop :=
  ∃ k c, P.cells[k]? = some c ∧ position P.cells k = pc ∧ P.depthOf k c = d

variable {P : Program}

theorem Assigns.unique {d : Int} (h : P.Assigns pc d) (h' : P.Assigns pc e) : d = e := by
  obtain ⟨k, c, hk, hpc, rfl⟩ := h
  obtain ⟨k', c', hk', hpc', rfl⟩ := h'
  obtain rfl := position_inj (Nat.le_of_lt (lt_of_getElem? hk))
    (Nat.le_of_lt (lt_of_getElem? hk')) (hpc.trans hpc'.symm)
  obtain rfl := Option.some.inj (hk.symm.trans hk')
  rfl

end Program

section Paths

variable {tree : Tree} {inFunction : Bool} {body : List NodeId} {s : Script} {P : Program}

variable (h : Compiles tree inFunction body s P)

include h

end Paths

/-- All constructs of a well-formed tree are balanced. -/
theorem Tree.balanced {t : Tree} (hwf : t.wellFormed) : t.Balanced := by
  intro T b id nd ctx plan acts hnode hacts hb
  refine ⟨fun hkind hin => ?_, fun hkind => ?_⟩
  · exact Lowering.flows_statement hwf hnode hkind hacts hb hin
  · exact Lowering.flows_expression hwf hnode (Bool.not_eq_true' _ ▸ hkind) hacts hb

/-! ## Occurrences of nodes -/

/-- A stretch goes from one depth to another. -/
def Stretch.Goes (tree : Tree) (P : Program) (s : Stretch) (d m : Int) : Prop :=
  ∃ ℓ β, Flows tree (fun _ _ => True) ℓ β [] s.acts d m ∧ s.first.Stands P d ∧
    ∀ b, β = some b → Inside (fun _ _ => True) s.ctx.opens.reverse b

/-- Number of values that a node leaves on the stack. -/
def NodeKind.leaves (kind : NodeKind) : Nat := if kind.isStatement then 0 else 1

section Occurrences

variable {tree : Tree} {P : Program} {s : Stretch} {occ : Occurrence} {d m : Int}

variable (hbalanced : tree.Balanced) (hhigh : P.high < 2147483647)

include hbalanced hhigh

/-- A child goes from the depth where it starts. -/
theorem Stretch.Child.goes {openings : List Opening} (hchild : s.Child tree P openings occ)
    (h : s.Goes tree P d m) : ∃ e, occ.toStretch.Goes tree P e (e + occ.node.kind.leaves) := by
  obtain ⟨ℓ, β, hflows, hfirst, hin⟩ := h
  obtain ⟨⟨front, back, hacts, hnode, hfront, -⟩, hctx, hlowered, -, -⟩ := hchild
  rw [hacts] at hflows
  obtain ⟨e, known, hbefore, hflows⟩ := hflows.of_append
  obtain ⟨hstart, -⟩ := hfront.passes hbalanced hhigh hbefore hfirst hin (by rintro _ ⟨⟩)
  obtain ⟨hstatement, hexpression⟩ := hbalanced (fun _ _ => True) e occ.id occ.node _ occ.plan occ.acts
    hnode hlowered hstart.nonneg
  refine ⟨e, ?_⟩
  obtain _ | ⟨⟨hkind, ⟨b, hbase, hentered⟩, -⟩ | ⟨hkind, -⟩, -⟩ := hflows
  · rw [Tree.holds, hnode] at hkind
    have hkind : occ.node.kind.isStatement := hkind
    have hinside : Inside (fun _ _ => True) occ.ctx.opens.reverse e := by
      rw [hctx]
      exact (hin _ hbase).enter hentered fun _ _ => trivial
    obtain ⟨ℓ', hinner⟩ := hstatement hkind hinside
    refine ⟨ℓ', some e, ?_, hstart, fun b hb => Option.some.inj hb ▸ hinside⟩
    rw [NodeKind.leaves, if_pos hkind, Int.natCast_zero, Int.add_zero]
    exact hinner
  · rw [Tree.holds, hnode] at hkind
    have hkind : occ.node.kind.isExpression := hkind
    obtain ⟨ℓ', hinner⟩ := hexpression hkind
    refine ⟨ℓ', none, ?_, hstart, by rintro _ ⟨⟩⟩
    rw [NodeKind.leaves, if_neg (by simpa [NodeKind.isExpression] using hkind)]
    exact hinner

/-- So does every node inside. -/
theorem Path.goes {path : List Occurrence} (hpath : Path tree P s path occ) (h : s.Goes tree P d m) :
    ∃ e, occ.toStretch.Goes tree P e (e + occ.node.kind.leaves) := by
  induction hpath generalizing d m with
  | child hchild => exact hchild.goes hbalanced hhigh h
  | inner hchild _ ih =>
    obtain ⟨e, houter⟩ := hchild.goes hbalanced hhigh h
    exact ih houter

theorem Stretch.Goes.last (h : s.Goes tree P d m) (hruns : s.Runs tree P) :
    s.first.frame.depth = d ∧ s.last.frame.depth = m := by
  obtain ⟨ℓ, β, hflows, hfirst, hin⟩ := h
  obtain ⟨hlast, -⟩ := Run.passes hbalanced hhigh hruns hflows hfirst hin (by rintro _ ⟨⟩)
  exact ⟨hfirst.depth, hlast.depth⟩

end Occurrences

end ScriptCompiler
