import ScriptCompiler.Proofs.Unit.Exits

/-!
# Where short-circuit chains lead

The operands of a chain stand one behind the other, with a jump behind each of
them but the last. However the jumps have been linked, widened and resolved on
the way, in the finished code each of them leads behind the last operand.
-/

namespace ScriptCompiler

section Chains

variable (tree : Tree) (P : Program) (s : Script) (occ : Occurrence)

/-- Operands of a chain stand one behind the other from an index of the body on. -/
inductive Occurrence.Chained (op : Opcode) : List NodeId → Nat → Prop where
  /-- The code of the last operand is the end of the code of the chain. -/
  | last {operand : Occurrence} (hchild : occ.Child tree P [] operand)
      (hend : operand.last.pos = occ.last.pos) : Chained op [operand.id] operand.first.pos
  /-- Behind any other operand comes one jump, which leads to the end of the chain. -/
  | next {ids : List NodeId} {operand : Occurrence} (hchild : occ.Child tree P [] operand)
      (hjump : s.JumpsAt (P.offset operand.last.pos) op (P.offset occ.last.pos))
      (hrest : Chained op ids (operand.last.pos + 1)) :
      Chained op (operand.id :: ids) operand.first.pos

/-- A chain of at least two operands, whose jumps are those of its operator. -/
def Occurrence.ShortCircuits (operator : LogicalOp) (operands : List NodeId) : Prop :=
  2 ≤ operands.length ∧ occ.Chained tree P s operator.opcode operands occ.first.pos

end Chains

/-- The short-circuit chains in the code of some statements lead where the tree says. -/
def Script.WellChained (tree : Tree) (inFunction : Bool) (body : List NodeId) (s : Script) : Prop :=
  ∃ P root, Laid tree P inFunction body s root ∧ ∀ path occ, Path tree P root path occ →
    ∀ operator operands, occ.node.kind = .logical operator operands →
      occ.ShortCircuits tree P s operator operands

section Placing

variable {tree : Tree} {P : Program} {s : Script} {occ : Occurrence} {op : Opcode}

/-- The first action of a part of an occurrence is a child. -/
theorem Stretch.Splits.child {st : Stretch} {front acts : List Action} {openings : List Opening}
    {id : NodeId} {x : Mark} (h : st.Splits tree P front (.child openings id :: acts) x) :
    ∃ operand : Occurrence, operand.id = id ∧ operand.first = x ∧
      st.Child tree P openings operand ∧
      st.Splits tree P (front ++ [.child openings id]) acts operand.last := by
  obtain ⟨hacts, hfront, hback⟩ := h
  cases hback with
  | emit his _ _ => cases his
  | @child _ _ lab' _ _ node plan inner _ _ y _ hnode hvisit hinner hrun hrest =>
    refine ⟨⟨⟨_, lab', inner, x, y⟩, id, node, plan⟩, rfl, rfl,
      ⟨⟨front, acts, hacts, hnode, hfront, hrest⟩, rfl, hinner, hrun, hvisit⟩, ?_, ?_, hrest⟩
    · rw [hacts, List.append_assoc]
      rfl
    · exact hfront.append (.child hnode hvisit hinner hrun (.nil y))

/-- The operands from one on, each with its jump to the end. -/
theorem Occurrence.chained (hencodes : Encodes s P) {last : NodeId}
    (hend : occ.lab 0 = occ.last) (ids : List NodeId) {front : List Action} {x : Mark}
    (h : occ.Splits tree P front (Lowering.guarded op ids ++ [Lowering.part last, .here 0]) x) :
    occ.Chained tree P s op (ids ++ [last]) x.pos := by
  induction ids generalizing front x with
  | nil =>
    obtain ⟨operand, rfl, rfl, hchild, hrest⟩ := h.child
    obtain ⟨hlabel, -⟩ := hrest.back.of_here
    exact .last hchild (by rw [← hlabel, hend])
  | cons id ids ih =>
    obtain ⟨operand, rfl, rfl, hchild, hacts, hfront, hback⟩ := h.child
    cases hback with
    | @emit _ _ _ _ _ y _ c _ his hstep hrest =>
      have hc := his
      obtain ⟨-, rfl⟩ := hc
      have hjump := hencodes.jumpsAt hstep.stands
      rw [hend] at hjump
      refine .next hchild hjump ?_
      rw [← hstep.pos]
      refine ih ⟨?_, hfront.append (.emit his hstep (.nil y)), hrest⟩
      rw [hacts, List.append_assoc (front ++ _)]
      rfl

theorem Laid.wellChained {inFunction : Bool} {body : List NodeId} {root : Stretch}
    (h : Laid tree P inFunction body s root) : s.WellChained tree inFunction body := by
  refine ⟨P, root, h, fun path occ hpath operator operands hkind => ?_⟩
  obtain ⟨hlowered, hruns, -, -⟩ := hpath.found
  simp only [Lowering.node, hkind] at hlowered
  obtain _ | ⟨first, _ | ⟨second, rest⟩⟩ := operands
  · cases hlowered
  · cases hlowered
  · have hacts := (Option.some.inj hlowered).symm
    have hend : occ.lab 0 = occ.last := Run.last_here (hruns.of_eq hacts) (by simp)
    have hchained := Occurrence.chained h.encodes hend (first :: (second :: rest).dropLast)
      ⟨hacts, .nil _, hruns.of_eq hacts⟩
    rw [List.cons_append, List.dropLast_append_getLast] at hchained
    exact ⟨by simp, hchained⟩

end Placing

/-- In every unit of a script that compiles, the jumps of each short-circuit chain, in their narrow or
their wide form, lead behind its last operand. -/
theorem compileScript_wellChained {tree : Tree} {filename : String} {limits : Limits}
    {script : Script} (h : compileScript tree filename limits = .ok script) :
    script.Throughout tree fun inFunction body s => s.WellChained tree inFunction body :=
  throughout_of_compiles h fun _ hcompiles =>
    let ⟨_, hlaid⟩ := hcompiles.laid
    hlaid.wellChained

/-- `(null && undefined) || true || null;` -/
def Tree.nestedChain : Tree where
  nodes := #[⟨.null, 1⟩, ⟨.undefined, 1⟩, ⟨.bool true, 1⟩, ⟨.logical .and [⟨0⟩, ⟨1⟩], 1⟩,
    ⟨.logical .or [⟨3⟩, ⟨2⟩, ⟨0⟩], 1⟩, ⟨.expression ⟨4⟩, 1⟩]
  body := [⟨5⟩]

theorem compileScript_wellChained_nestedChain :
    ∃ script, compileScript .nestedChain "chain.js" ⟨none, 10⟩ = .ok script ∧
      script.code = #[6, 79, 4, 0, 1, 78, 8, 0, 7, 78, 4, 0, 6, 58, 60] ∧
      script.WellChained .nestedChain false [⟨5⟩] := by
  obtain ⟨script, hok, hcode⟩ :=
    exists_ok (x := compileScript .nestedChain "chain.js" ⟨none, 10⟩)
      (p := fun s => s.code = #[6, 79, 4, 0, 1, 78, 8, 0, 7, 78, 4, 0, 6, 58, 60])
      (by decide +kernel)
  exact ⟨script, hok, of_decide_eq_true hcode, (compileScript_wellChained hok).holds _ _ _ .script⟩

end ScriptCompiler
